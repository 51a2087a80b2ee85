import AvaServe.BeamSearch.KvSlots
import AvaServe.Foundation.Path

/-!
# Conservation of a beam group's slots

At every moment the slots the allocator has handed out for a group are the slots its rows
name and the slots staged as orphans, and no slot is both. A step can therefore only free
slots that no row names, each of them once, and the end of the group frees all that is
left. While the group has its rows, the slots handed out minus the slots freed is the
number of named plus the number of staged ones.
-/

namespace AvaServe.BeamSearch

open Foundation List Function Option

variable {members : ℕ}

/-! ## Rows of the table -/

section Table

variable {count : ℕ} {table : ℕ → ℕ → ℕ} {rows : Fin count → ℕ}
  {write : Fin count → (ℕ → ℕ) → ℕ → ℕ}

/-- A row that is written. -/
theorem writeRows_row (distinct : Injective rows) (index : Fin count) :
    writeRows table rows write (rows index) = write index (table (rows index)) := by
  have found : (finRange count).find? (fun other => decide (rows other = rows index)) =
      some index := by
    cases search : (finRange count).find? (fun other => decide (rows other = rows index)) with
    | none =>
      have missing := find?_eq_none.mp search index (mem_finRange index)
      simp at missing
    | some other =>
      have same := find?_some search
      simp only [decide_eq_true_eq] at same
      rw [distinct same]
  rw [writeRows, found]
  rfl

/-- A row that is not. -/
theorem writeRows_other {row : ℕ} (other : ∀ index, rows index ≠ row) :
    writeRows table rows write row = table row := by
  have missing : (finRange count).find? (fun index => decide (rows index = row)) = none := by
    refine find?_eq_none.mpr fun index _ => ?_
    simpa using other index
  rw [writeRows, missing]
  rfl

end Table

section Windows

variable {table : ℕ → ℕ → ℕ} {rows : Fin (members + 1) → ℕ} {start stop : ℕ}

/-- The width of a window. -/
theorem length_readWindow (index : Fin (members + 1)) :
    (readWindow table rows start stop index).length = stop - start := by
  simp [readWindow]

/-- A decode forward extends the window of every row by its new slot. -/
theorem readWindow_prepare (distinct : Injective rows) (order : start ≤ stop)
    (fresh : Fin (members + 1) → ℕ) (index : Fin (members + 1)) :
    readWindow (writeRows table rows fun index cells => update cells stop (fresh index))
        rows start (stop + 1) index =
      readWindow table rows start stop index ++ [fresh index] := by
  have split : range' start (stop + 1 - start) = range' start (stop - start) ++ [stop] := by
    rw [Nat.sub_add_comm order, range'_concat, one_mul, Nat.add_sub_cancel' order]
  rw [readWindow, writeRows_row distinct, split, map_append, map_singleton, update_self]
  congr 1
  refine map_congr_left fun position member => ?_
  have bound := mem_range'_1.mp member
  exact update_of_ne (by omega) _ _

variable {mapping : Mapping members}

/-- What is written is read back. -/
theorem readWindow_writeWindow (distinct : Injective rows)
    (width : ∀ index, (mapping index).length = stop - start) :
    readWindow (writeWindow table rows start stop mapping) rows start stop = mapping := by
  funext index
  rw [readWindow, writeWindow, writeRows_row distinct]
  refine ext_getElem (by simp [width]) fun position left right => ?_
  have bound : position < stop - start := by simpa using left
  have inside : start ≤ start + position ∧ start + position < stop := by omega
  simp only [getElem_map, getElem_range', one_mul, if_pos inside, Nat.add_sub_cancel_left]
  rw [getD_eq_getElem?_getD, getElem?_eq_getElem right, getD_some]

/-- A slot of the mapping is in one of its rows. -/
theorem mem_slotsOf {slot : ℕ} : slot ∈ slotsOf mapping ↔ ∃ index, slot ∈ mapping index := by
  simp [slotsOf]

/-- A column adds its slots. -/
theorem slotsOf_append (mapping : Mapping members) (fresh : Fin (members + 1) → ℕ) :
    (slotsOf fun index => mapping index ++ [fresh index]) =
      slotsOf mapping ∪ Finset.univ.image fresh := by
  ext slot
  simp only [mem_slotsOf, mem_append, mem_singleton, Finset.mem_union,
    Finset.mem_image, Finset.mem_univ, true_and, exists_or]
  exact or_congr Iff.rfl ⟨fun ⟨index, same⟩ => ⟨index, same.symm⟩,
    fun ⟨index, same⟩ => ⟨index, same.symm⟩⟩

/-- New parents bring no slots. -/
theorem slotsOf_reparent_subset (mapping : Mapping members)
    (parentIdx : Fin (members + 1) → Fin (members + 1)) :
    (slotsOf fun index => mapping (parentIdx index)) ⊆ slotsOf mapping := by
  intro slot member
  obtain ⟨index, inside⟩ := mem_slotsOf.mp member
  exact mem_slotsOf.mpr ⟨parentIdx index, inside⟩

/-- Empty rows have no slots. -/
theorem slotsOf_eq_empty (empty : ∀ index, mapping index = []) : slotsOf mapping = ∅ := by
  ext slot
  simp [mem_slotsOf, empty]

end Windows

namespace KvState

/-! ## The ledger -/

/-- A held slot was handed out once more than it came back, any other one as often. -/
def Ledger (kv : KvState members) : Prop :=
  ∀ slot, kv.lent slot = kv.returned slot + if slot ∈ kv.held then 1 else 0

/-- The state after slots have come back. -/
def takeBack (kv : KvState members) (slots : Finset ℕ) : KvState members :=
  { kv with
    held := kv.held \ slots
    returned := fun slot => kv.returned slot + if slot ∈ slots then 1 else 0 }

variable {kv : KvState members} {slots : Finset ℕ}

/-- Held slots can be freed. -/
theorem free_eq (inside : slots ⊆ kv.held) : kv.free slots = some (kv.takeBack slots) :=
  if_pos inside

/-- Freed slots are entered. -/
theorem Ledger.takeBack {kv : KvState members} (ledger : kv.Ledger) {slots : Finset ℕ}
    (inside : slots ⊆ kv.held) : (kv.takeBack slots).Ledger := by
  intro slot
  have counted := ledger slot
  simp only [KvState.takeBack, counted]
  by_cases back : slot ∈ slots
  · simp [back, inside back]
  · simp [back]

/-- So are lent slots. -/
theorem Ledger.lend (ledger : kv.Ledger) (apart : Disjoint slots kv.held) :
    (kv.lend slots).Ledger := by
  intro slot
  have counted := ledger slot
  simp only [KvState.lend, counted]
  by_cases new : slot ∈ slots
  · simp [Finset.disjoint_left.mp apart new]
  · simp [new]

/-- The slots of a list of staged entries. -/
def stagedSlots : List (StagedOrphans members) → Finset ℕ
  | [] => ∅
  | entry :: staged => orphansOf entry ∪ stagedSlots staged

variable {staged : List (StagedOrphans members)}

/-- A staged slot is an orphan of an entry. -/
theorem mem_stagedSlots {slot : ℕ} :
    slot ∈ stagedSlots staged ↔ ∃ entry ∈ staged, slot ∈ orphansOf entry := by
  induction staged with
  | nil => simp [stagedSlots]
  | cons entry staged ih => simp [stagedSlots, ih]

/-- Staged entries add up. -/
theorem stagedSlots_append (before after : List (StagedOrphans members)) :
    stagedSlots (before ++ after) = stagedSlots before ∪ stagedSlots after := by
  ext slot
  simp [mem_stagedSlots, or_and_right, exists_or]

/-- Their order does not matter. -/
theorem stagedSlots_perm {left right : List (StagedOrphans members)} (perm : left.Perm right) :
    stagedSlots left = stagedSlots right := by
  ext slot
  simp [mem_stagedSlots, perm.mem_iff]

/-- Freeing staged entries whose orphans are held and pairwise apart. -/
theorem freeStaged_spec (inside : stagedSlots staged ⊆ kv.held)
    (apart : staged.Pairwise fun left right => Disjoint (orphansOf left) (orphansOf right)) :
    ∃ returned, kv.freeStaged staged = some { kv with
        held := kv.held \ stagedSlots staged
        returned := returned
        slotsFreed := kv.slotsFreed + (staged.map fun entry => (orphansOf entry).card).sum } ∧
      (kv.Ledger →
        Ledger { kv with held := kv.held \ stagedSlots staged, returned := returned }) := by
  induction staged generalizing kv with
  | nil => exact ⟨kv.returned, by simp [freeStaged, stagedSlots], by simp [stagedSlots]⟩
  | cons entry staged ih =>
    obtain ⟨first, apart⟩ := pairwise_cons.mp apart
    have entryInside : orphansOf entry ⊆ kv.held := Finset.union_subset_left inside
    have separate : Disjoint (orphansOf entry) (stagedSlots staged) := by
      refine Finset.disjoint_right.mpr fun slot later here => ?_
      obtain ⟨other, member, named⟩ := mem_stagedSlots.mp later
      exact Finset.disjoint_left.mp (first other member) here named
    have restInside : stagedSlots staged ⊆ (kv.takeBack (orphansOf entry)).held := by
      intro slot member
      exact Finset.mem_sdiff.mpr ⟨Finset.union_subset_right inside member,
        Finset.disjoint_right.mp separate member⟩
    obtain ⟨returned, frees, ledger⟩ :=
      @ih { kv.takeBack (orphansOf entry) with
        slotsFreed := kv.slotsFreed + (orphansOf entry).card } restInside apart
    rw [stagedSlots, ← Finset.sup_eq_union, ← sdiff_sdiff_left, map_cons, sum_cons, ← add_assoc]
    refine ⟨returned, ?_, fun before => ledger (before.takeBack entryInside)⟩
    have step := free_eq entryInside
    rw [orphansOf] at step
    rw [freeStaged, step]
    exact frees

/-! ## The invariant -/

/-- A group before its teardown. -/
structure Live (kv : KvState members) : Prop where
  retired : kv.retired = false
  lens : kv.kvCommittedLen = kv.kvAllocatedLen
  base : kv.promptLen ≤ kv.kvAllocatedLen
  distinct : ∀ rows, kv.memberRows = some rows → Injective (kv.allRows rows)
  owned : kv.held = kv.named ∪ stagedSlots kv.pendingOrphans
  apart : Disjoint kv.named (stagedSlots kv.pendingOrphans)
  pairwise : kv.pendingOrphans.Pairwise fun left right =>
    Disjoint (orphansOf left) (orphansOf right)
  balance : ∀ rows, kv.memberRows = some rows → (members + 1) * (kv.kvAllocatedLen - kv.promptLen) =
      kv.slotsFreed + kv.named.card + kv.numStaged
  unspawned : kv.memberRows = none → kv.pendingOrphans = []
  untouched : kv.numGenerated = 0 →
    kv.memberRows = none ∧ kv.kvAllocatedLen = kv.promptLen ∧ kv.slotsFreed = 0

/-- A group after its teardown. -/
structure Over (kv : KvState members) : Prop where
  state : kv.state = .finished
  retired : kv.retired = true
  held : kv.held = ∅
  memberRows : kv.memberRows = none

/-- **What holds of a group between two events.** -/
structure Conserved (kv : KvState members) : Prop where
  ledger : kv.Ledger
  /-- No slot of the prompt was handed out for a row of the group. -/
  unlent : ∀ slot ∈ kv.promptSlots, kv.lent slot = 0
  live : kv.released = false → kv.Live
  ended : kv.released = true → kv.Over

section Steps

variable {kv : KvState members}

/-- It holds of a new group. -/
theorem conserved_new (promptLen maxNewTokens leaderRow : ℕ) (reqToToken : ℕ → ℕ → ℕ) :
    (new members promptLen maxNewTokens leaderRow reqToToken).Conserved where
  ledger := fun slot => by simp [new]
  unlent := fun _ _ => rfl
  live := fun _ =>
    { retired := rfl
      lens := rfl
      base := le_refl _
      distinct := nofun
      owned := by simp [new, named, leaderSlots, stagedSlots]
      apart := by simp [new, stagedSlots]
      pairwise := Pairwise.nil
      balance := nofun
      unspawned := fun _ => rfl
      untouched := fun _ => ⟨rfl, rfl, rfl⟩ }
  ended := nofun

/-- The leader's row is the only one of a group without member rows. -/
theorem leaderSlots_eq (stop : ℕ) : kv.leaderSlots stop =
    slotsOf (readWindow kv.reqToToken (fun _ : Fin (0 + 1) => kv.leaderRow) kv.promptLen stop) := by
  ext slot
  simp [leaderSlots, mem_slotsOf, readWindow]

/-- The leader has no slot before it generates. -/
theorem leaderSlots_promptLen : kv.leaderSlots kv.promptLen = ∅ := by simp [leaderSlots]

/-- The named slots once the members have rows. -/
theorem named_some {rows : Fin members → ℕ} (spawned : kv.memberRows = some rows) : kv.named =
      slotsOf (readWindow kv.reqToToken (kv.allRows rows) kv.promptLen kv.kvAllocatedLen) := by
  rw [named, spawned]

/-- The named slots before that. -/
theorem named_none (spawned : kv.memberRows = none) :
    kv.named = kv.leaderSlots kv.kvAllocatedLen := by
  rw [named, spawned]

/-- The prompt of the leader is not touched by writes behind it. -/
theorem promptSlots_congr {next : KvState members} (promptLen : next.promptLen = kv.promptLen)
    (leader : next.leaderRow = kv.leaderRow)
    (cells : ∀ position < kv.promptLen, next.reqToToken kv.leaderRow position =
      kv.reqToToken kv.leaderRow position) : next.promptSlots = kv.promptSlots := by
  rw [promptSlots, promptLen, leader]
  refine Finset.image_congr fun position member => ?_
  exact cells position (Finset.mem_range.mp (Finset.mem_coe.mp member))

/-! ### Launches -/

variable {rows : Fin members → ℕ}

/-- The fan-out keeps it. -/
theorem Conserved.selectLeaderPrefill (conserved : kv.Conserved)
    (distinct : Injective (kv.allRows rows)) : (kv.selectLeaderPrefill rows).Conserved := by
  unfold KvState.selectLeaderPrefill
  split
  · exact conserved
  next first =>
    rw [not_or, not_not, not_lt, Nat.le_zero] at first
    obtain ⟨decodes, fresh⟩ := first
    have alive : kv.released = false := by
      cases released : kv.released with
      | false => rfl
      | true => cases decodes.symm.trans (conserved.ended released).state
    have live := conserved.live alive
    obtain ⟨unspawned, allocated, freed⟩ := live.untouched fresh
    have staged := live.unspawned unspawned
    have positive : kv.numGenerated + 1 ≠ 0 := Nat.succ_ne_zero _
    split
    · exact
        { conserved with
          live := fun _ => { live with untouched := fun none => absurd none positive }
          ended := fun released => by cases alive.symm.trans released }
    · have empty : kv.held = ∅ := by
        rw [live.owned, named_none unspawned, allocated, leaderSlots_promptLen, staged]
        rfl
      have none : (spawnMemberRows { kv with numGenerated := kv.numGenerated + 1 } rows).named =
          ∅ := by
        refine slotsOf_eq_empty fun index => ?_
        simp [spawnMemberRows, readWindow, allocated]
      refine
        { ledger := conserved.ledger
          unlent := ?_
          live := fun _ =>
            { live with
              distinct := ?_
              owned := ?_
              apart := ?_
              balance := ?_
              unspawned := nofun
              untouched := fun none => absurd none positive }
          ended := fun released => by cases alive.symm.trans released }
      · have same : (spawnMemberRows { kv with numGenerated := kv.numGenerated + 1 }
            rows).promptSlots = kv.promptSlots := by
          refine promptSlots_congr rfl rfl fun position _ => ?_
          change aliasMembersPromptKv kv.reqToToken rows kv.leaderRow kv.promptLen kv.leaderRow
            position = _
          rw [aliasMembersPromptKv, writeRows_other fun index leader => ?_]
          exact absurd (@distinct index.succ 0 leader) (Fin.succ_ne_zero index)
        rw [same]
        exact conserved.unlent
      · intro others spawned
        cases spawned
        exact distinct
      · rw [none, Finset.empty_union]
        simp [spawnMemberRows, empty, staged, stagedSlots]
      · rw [none]
        exact Finset.disjoint_empty_left _
      · rw [none]
        simp [spawnMemberRows, numStaged, staged, allocated, freed]

section Alloc

variable {count : ℕ} {rows fresh : Fin count → ℕ}

/-- Slots handed out for the rows keep the ledger and are none of the prompt's. -/
theorem Conserved.allocForDecode (conserved : kv.Conserved) (live : kv.Live)
    (distinct : Injective rows) (unused : ∀ index, fresh index ∉ kv.held ∪ kv.promptSlots) :
    (kv.allocForDecode rows fresh).Ledger ∧ ∀ slot ∈ (kv.allocForDecode rows fresh).promptSlots,
        (kv.allocForDecode rows fresh).lent slot = 0 := by
  have apart : Disjoint (Finset.univ.image fresh) kv.held := by
    refine Finset.disjoint_left.mpr fun slot member inside => ?_
    obtain ⟨index, _, rfl⟩ := Finset.mem_image.mp member
    exact unused index (Finset.mem_union_left _ inside)
  refine ⟨?_, ?_⟩
  · refine Ledger.lend conserved.ledger apart
  · have same : (kv.allocForDecode rows fresh).promptSlots = kv.promptSlots := by
      refine promptSlots_congr rfl rfl fun position bound => ?_
      have before : position ≠ kv.kvAllocatedLen := (bound.trans_le live.base).ne
      by_cases listed : ∃ index, rows index = kv.leaderRow
      · obtain ⟨index, leader⟩ := listed
        simp only [KvState.allocForDecode, lend, ← leader, writeRows_row distinct]
        exact update_of_ne before _ _
      · simp only [KvState.allocForDecode, lend]
        rw [writeRows_other fun index same => listed ⟨index, same⟩]
    rw [same]
    intro slot inside
    have other : slot ∉ Finset.univ.image fresh := by
      intro member
      obtain ⟨index, _, rfl⟩ := Finset.mem_image.mp member
      exact unused index (Finset.mem_union_right _ inside)
    change kv.lent slot + (if slot ∈ Finset.univ.image fresh then 1 else 0) = 0
    rw [conserved.unlent slot inside, if_neg other]

end Alloc

/-- So does a new column. -/
theorem Conserved.prepareForDecode (conserved : kv.Conserved) {fresh : Fin (members + 1) → ℕ}
    (distinct : Injective fresh) (unused : ∀ index, fresh index ∉ kv.held ∪ kv.promptSlots)
    (generated : 0 < kv.numGenerated) : (kv.prepareForDecode fresh).Conserved := by
  unfold KvState.prepareForDecode
  split
  · exact conserved
  next alive =>
    rw [Bool.not_eq_true] at alive
    have live := conserved.live alive
    cases spawned : kv.memberRows with
    | none =>
      obtain ⟨ledger, prompt⟩ := @Conserved.allocForDecode _ _ _ (fun _ : Fin 1 => kv.leaderRow)
        (fun _ => fresh 0) conserved live (fun _ _ _ => Subsingleton.elim _ _) fun _ => unused 0
      set next := kv.allocForDecode (fun _ : Fin 1 => kv.leaderRow) fun _ => fresh 0 with nextEq
      have staged : next.pendingOrphans = [] := live.unspawned spawned
      have names : next.named = kv.named ∪ Finset.univ.image fun _ : Fin 1 => fresh 0 := by
        rw [@named_none _ next spawned, named_none spawned, leaderSlots_eq, leaderSlots_eq,
          ← slotsOf_append]
        congr 1
        funext index
        exact @readWindow_prepare 0 kv.reqToToken (fun _ => kv.leaderRow) _ _
          (fun _ _ _ => Fin.ext (by omega)) live.base _ index
      refine ⟨ledger, prompt, fun _ => ?_, fun released => by cases alive.symm.trans released⟩
      exact
        { live with
          lens := congrArg (· + 1) live.lens
          base := live.base.trans (Nat.le_succ _)
          owned := by
            rw [names, staged]
            change kv.held ∪ _ = _
            rw [live.owned, live.unspawned spawned]
            simp
          apart := by
            rw [staged]
            exact Finset.disjoint_empty_right _
          balance := fun rows some => by cases spawned.symm.trans some
          untouched := fun none => absurd none generated.ne' }
    | some rows =>
      obtain ⟨ledger, prompt⟩ := conserved.allocForDecode live (live.distinct rows spawned) unused
      set next := kv.allocForDecode (kv.allRows rows) fresh with nextEq
      have names : next.named = kv.named ∪ Finset.univ.image fresh := by
        rw [@named_some _ next rows spawned, named_some spawned, ← slotsOf_append]
        congr 1
        funext index
        exact readWindow_prepare (live.distinct rows spawned) live.base fresh index
      have new : Disjoint (Finset.univ.image fresh) kv.held := by
        refine Finset.disjoint_left.mpr fun slot member inside => ?_
        obtain ⟨index, _, rfl⟩ := Finset.mem_image.mp member
        exact unused index (Finset.mem_union_left _ inside)
      rw [live.owned, Finset.disjoint_union_right] at new
      refine ⟨ledger, prompt, fun _ => ?_, fun released => by cases alive.symm.trans released⟩
      exact
        { live with
          lens := congrArg (· + 1) live.lens
          base := live.base.trans (Nat.le_succ _)
          owned := by
            rw [names]
            change kv.held ∪ Finset.univ.image fresh = _
            rw [live.owned, Finset.union_right_comm]
            rfl
          apart := by
            rw [names]
            exact Finset.disjoint_union_left.mpr ⟨live.apart, new.2⟩
          balance := fun others same => by
            have before := live.balance rows spawned
            have width : (Finset.univ.image fresh).card = members + 1 := by
              rw [Finset.card_image_of_injective _ distinct, Finset.card_univ, Fintype.card_fin]
            rw [names, Finset.card_union_of_disjoint new.1.symm, width]
            change (members + 1) * (kv.kvAllocatedLen + 1 - kv.promptLen) =
              kv.slotsFreed + (kv.named.card + (members + 1)) + kv.numStaged
            rw [Nat.sub_add_comm live.base, Nat.mul_succ]
            omega
          untouched := fun none => absurd none generated.ne' }

/-- The selection of a group with rows. -/
theorem selectAndRelayDecode_some (spawned : kv.memberRows = some rows) (tick : ℕ)
    (parentIdx : Fin (members + 1) → Fin (members + 1)) : kv.selectAndRelayDecode tick parentIdx =
      if kv.retired = true ∨ kv.state ≠ .decoding then kv
      else if kv.nextStepIsFinal then { kv with numGenerated := kv.numGenerated + 1 }
      else { kv with numGenerated := kv.numGenerated + 1 }.applySurvivors rows parentIdx tick := by
  simp [selectAndRelayDecode, spawned]

/-- Moving the rows stages exactly the slots they no longer name. -/
theorem Conserved.applySurvivors (conserved : kv.Conserved) (alive : kv.released = false)
    (generated : 0 < kv.numGenerated) (spawned : kv.memberRows = some rows)
    (parentIdx : Fin (members + 1) → Fin (members + 1)) (tick : ℕ) :
    (kv.applySurvivors rows parentIdx tick).Conserved := by
  have live := conserved.live alive
  have distinct := live.distinct rows spawned
  set old := readWindow kv.reqToToken (kv.allRows rows) kv.promptLen kv.kvCommittedLen with oldEq
  set entry : StagedOrphans members := ⟨tick, old, fun index => old (parentIdx index)⟩ with entryEq
  set next := kv.applySurvivors rows parentIdx tick with nextEq
  have before : kv.named = slotsOf old := by rw [named_some spawned, oldEq, live.lens]
  have after : next.named = slotsOf entry.newMapping := by
    rw [@named_some _ next rows spawned]
    change slotsOf (readWindow (writeWindow kv.reqToToken (kv.allRows rows) kv.promptLen
      kv.kvCommittedLen entry.newMapping) (kv.allRows rows) kv.promptLen kv.kvAllocatedLen) = _
    rw [← live.lens, readWindow_writeWindow distinct fun index => length_readWindow _]
  have orphans : orphansOf entry = kv.named \ next.named := by
    rw [before, after]
    rfl
  have fewer : next.named ⊆ kv.named := by
    rw [before, after]
    exact slotsOf_reparent_subset old parentIdx
  have pending : next.pendingOrphans = kv.pendingOrphans ++ [entry] := rfl
  have staged : stagedSlots next.pendingOrphans =
      stagedSlots kv.pendingOrphans ∪ (kv.named \ next.named) := by
    rw [pending, stagedSlots_append, ← orphans]
    simp [stagedSlots]
  have same : next.promptSlots = kv.promptSlots := by
    refine promptSlots_congr rfl rfl fun position bound => ?_
    change writeWindow kv.reqToToken (kv.allRows rows) kv.promptLen kv.kvCommittedLen _
      (kv.allRows rows 0) position = _
    rw [writeWindow, writeRows_row distinct]
    exact if_neg fun inside => absurd inside.1 (not_le.mpr bound)
  refine ⟨conserved.ledger, ?_, fun _ => ?_, fun released => by cases alive.symm.trans released⟩
  · rw [same]
    exact conserved.unlent
  · exact
      { live with
        owned := by
          rw [staged]
          change kv.held = _
          rw [live.owned, Finset.union_left_comm, Finset.union_sdiff_of_subset fewer,
            Finset.union_comm]
        apart := by
          rw [staged]
          exact Finset.disjoint_union_right.mpr
            ⟨live.apart.mono_left fewer, Finset.disjoint_sdiff⟩
        pairwise := by
          refine pairwise_append.mpr ⟨live.pairwise, pairwise_singleton _ _, ?_⟩
          intro earlier member last isLast
          rw [mem_singleton.mp isLast, orphans]
          refine (live.apart.mono_left Finset.sdiff_subset).symm.mono_left fun slot inside => ?_
          exact mem_stagedSlots.mpr ⟨earlier, member, inside⟩
        balance := fun others some => by
          have balanced := live.balance rows spawned
          have split := Finset.card_sdiff_add_card_eq_card fewer
          have count : next.numStaged = kv.numStaged + (kv.named \ next.named).card := by
            rw [numStaged, pending, map_append, ← orphans]
            simp [numStaged]
          rw [count]
          change (members + 1) * (kv.kvAllocatedLen - kv.promptLen) =
            kv.slotsFreed + next.named.card + (kv.numStaged + _)
          omega
        unspawned := fun none => by cases spawned.symm.trans none
        untouched := fun none => absurd none generated.ne' }

/-- The selection keeps it. -/
theorem Conserved.selectAndRelayDecode (conserved : kv.Conserved) (tick : ℕ)
    (parentIdx : Fin (members + 1) → Fin (members + 1)) :
    (kv.selectAndRelayDecode tick parentIdx).Conserved := by
  cases spawned : kv.memberRows with
  | none =>
    have nothing : kv.selectAndRelayDecode tick parentIdx = kv := by
      simp [KvState.selectAndRelayDecode, spawned]
    rw [nothing]
    exact conserved
  | some rows =>
    have alive : kv.released = false := by
      cases released : kv.released with
      | false => rfl
      | true => cases spawned.symm.trans (conserved.ended released).memberRows
    have live := conserved.live alive
    have positive : kv.numGenerated + 1 ≠ 0 := Nat.succ_ne_zero _
    have counted : Conserved { kv with numGenerated := kv.numGenerated + 1 } :=
      { conserved with
        live := fun _ => { live with untouched := fun none => absurd none positive }
        ended := fun released => by cases alive.symm.trans released }
    rw [selectAndRelayDecode_some spawned]
    split
    · exact conserved
    · split
      · exact counted
      · exact counted.applySurvivors alive (Nat.succ_pos _) spawned parentIdx tick

/-! ### Reclaiming -/

/-- Whether a staged entry is due at a commit. -/
def due (upToTick : Option ℕ) (entry : StagedOrphans members) : Bool :=
  upToTick.elim true fun upTo => decide (entry.tick ≤ upTo)

/-- Due orphans are given back once. -/
theorem reclaimOrphans_spec {upToTick : Option ℕ} (inside : stagedSlots kv.pendingOrphans ⊆ kv.held)
    (pairwise : kv.pendingOrphans.Pairwise fun left right =>
      Disjoint (orphansOf left) (orphansOf right)) :
    ∃ returned, kv.reclaimOrphans upToTick = some { kv with
        pendingOrphans := kv.pendingOrphans.filter fun entry => !due upToTick entry
        held := kv.held \ stagedSlots (kv.pendingOrphans.filter (due upToTick))
        returned := returned
        slotsFreed := kv.slotsFreed + ((kv.pendingOrphans.filter (due upToTick)).map
          fun entry => (orphansOf entry).card).sum } ∧
      (kv.Ledger → Ledger { kv with
        held := kv.held \ stagedSlots (kv.pendingOrphans.filter (due upToTick))
        returned := returned }) := by
  have sublist : (kv.pendingOrphans.filter (due upToTick)).Sublist kv.pendingOrphans :=
    filter_sublist
  refine freeStaged_spec (fun slot member => inside ?_) (pairwise.sublist sublist)
  obtain ⟨entry, among, orphan⟩ := mem_stagedSlots.mp member
  exact mem_stagedSlots.mpr ⟨entry, sublist.subset among, orphan⟩

variable (pending : List (StagedOrphans members))

/-- What is due and what stays staged. -/
theorem staged_split (upToTick : Option ℕ) :
    stagedSlots pending = stagedSlots (pending.filter (due upToTick)) ∪
      stagedSlots (pending.filter fun entry => !due upToTick entry) := by
  rw [← stagedSlots_append]
  exact (stagedSlots_perm (filter_append_perm _ _)).symm

/-- Due orphans and the others are apart. -/
theorem staged_disjoint {pending : List (StagedOrphans members)}
    (pairwise : pending.Pairwise fun left right => Disjoint (orphansOf left) (orphansOf right))
    (upToTick : Option ℕ) : Disjoint (stagedSlots (pending.filter (due upToTick)))
      (stagedSlots (pending.filter fun entry => !due upToTick entry)) := by
  refine Finset.disjoint_left.mpr fun slot early late => ?_
  obtain ⟨first, firstMem, inFirst⟩ := mem_stagedSlots.mp early
  obtain ⟨second, secondMem, inSecond⟩ := mem_stagedSlots.mp late
  obtain ⟨firstMem, isDue⟩ := mem_filter.mp firstMem
  obtain ⟨secondMem, isLater⟩ := mem_filter.mp secondMem
  have different : first ≠ second := by
    rintro rfl
    simp [isDue] at isLater
  have apart := pairwise.forall firstMem secondMem different
  exact Finset.disjoint_left.mp apart inFirst inSecond

/-- At the end nothing is left undue. -/
theorem filter_not_due_none : (pending.filter fun entry => !due none entry) = [] := by simp [due]

/-- At the end everything is due. -/
theorem filter_due_none : pending.filter (due none) = pending := by simp [due]

/-- A commit that does not end the group frees the due orphans. -/
theorem Conserved.reclaimOrphans (conserved : kv.Conserved) (alive : kv.released = false)
    (upToTick : Option ℕ) :
    ∃ next, kv.reclaimOrphans upToTick = some next ∧ next.Conserved ∧ next.released = false ∧
      next.state = kv.state ∧
      next.pendingOrphans = kv.pendingOrphans.filter fun entry => !due upToTick entry := by
  have live := conserved.live alive
  have inside : stagedSlots kv.pendingOrphans ⊆ kv.held := by
    rw [live.owned]
    exact Finset.subset_union_right
  obtain ⟨returned, reclaims, ledger⟩ := @reclaimOrphans_spec _ kv upToTick inside live.pairwise
  have apart := staged_disjoint live.pairwise upToTick
  have separate := live.apart
  rw [staged_split _ upToTick, Finset.disjoint_union_right] at separate
  refine ⟨_, reclaims, ⟨ledger conserved.ledger, conserved.unlent, fun _ => ?_,
    fun ended => by cases alive.symm.trans ended⟩, alive, rfl, rfl⟩
  exact
    { live with
      owned := by
        change kv.held \ _ = kv.named ∪ _
        rw [live.owned, staged_split _ upToTick, Finset.union_sdiff_distrib,
          Finset.sdiff_eq_self_of_disjoint separate.1, Finset.union_sdiff_cancel_left apart]
      apart := separate.2
      pairwise := live.pairwise.sublist filter_sublist
      balance := fun rows spawned => by
        have balanced := live.balance rows spawned
        have split := ((filter_append_perm (due upToTick) kv.pendingOrphans).map
          fun entry => (orphansOf entry).card).sum_eq
        rw [map_append, sum_append] at split
        rw [numStaged] at balanced ⊢
        change (members + 1) * (kv.kvAllocatedLen - kv.promptLen) = _ + kv.named.card + _
        dsimp only
        omega
      unspawned := fun none => by
        rw [live.unspawned none]
        rfl
      untouched := fun none => by
        obtain ⟨unspawned, allocated, zero⟩ := live.untouched none
        refine ⟨unspawned, allocated, ?_⟩
        rw [live.unspawned unspawned, zero]
        rfl }

/-! ### Teardown -/

/-- A group whose member rows are gone, not yet released. -/
structure Freed (kv : KvState members) : Prop where
  ledger : kv.Ledger
  unlent : ∀ slot ∈ kv.promptSlots, kv.lent slot = 0
  retired : kv.retired = false
  memberRows : kv.memberRows = none
  owned : kv.held = kv.leaderSlots kv.kvCommittedLen ∪ stagedSlots kv.pendingOrphans
  apart : Disjoint (kv.leaderSlots kv.kvCommittedLen) (stagedSlots kv.pendingOrphans)
  pairwise : kv.pendingOrphans.Pairwise fun left right =>
    Disjoint (orphansOf left) (orphansOf right)

/-- The members' rows are freed. -/
theorem Conserved.freeMemberRows (conserved : kv.Conserved) (alive : kv.released = false) :
    ∃ next, kv.freeMemberRows = some next ∧ next.Freed ∧ next.state = kv.state ∧
      next.pendingOrphans = kv.pendingOrphans := by
  have live := conserved.live alive
  cases spawned : kv.memberRows with
  | none =>
    refine ⟨kv, ?_, ⟨conserved.ledger, conserved.unlent, live.retired, spawned, ?_, ?_,
      live.pairwise⟩, rfl, rfl⟩
    · simp [KvState.freeMemberRows, spawned]
    · rw [live.lens, ← named_none spawned, live.owned]
    · rw [live.lens, ← named_none spawned]
      exact live.apart
  | some rows =>
    have remaining : kv.held \ kv.named = stagedSlots kv.pendingOrphans := by
      rw [live.owned, Finset.union_sdiff_cancel_left live.apart]
    by_cases grown : kv.promptLen < kv.kvAllocatedLen
    · have inside : kv.named ⊆ kv.held := by
        rw [live.owned]
        exact Finset.subset_union_left
      have frees := free_eq inside
      rw [named_some spawned] at frees
      refine ⟨{ kv.takeBack kv.named with
          kvCommittedLen := kv.promptLen
          kvAllocatedLen := kv.promptLen
          memberRows := none }, ?_, ?_, rfl, rfl⟩
      · simp [KvState.freeMemberRows, spawned, if_pos grown, frees,
          named_some spawned]
      · have none (other : KvState members) (start : other.kvCommittedLen = other.promptLen) :
            other.leaderSlots other.kvCommittedLen = ∅ := by
          rw [start, leaderSlots_promptLen]
        refine ⟨conserved.ledger.takeBack inside, conserved.unlent, live.retired, rfl, ?_, ?_,
          live.pairwise⟩
        · rw [none _ rfl, Finset.empty_union]
          exact remaining
        · rw [none _ rfl]
          exact Finset.disjoint_empty_left _
    · have start : kv.kvAllocatedLen = kv.promptLen := le_antisymm (not_lt.mp grown) live.base
      have empty : kv.named = ∅ := by
        rw [named_some spawned]
        refine slotsOf_eq_empty fun index => ?_
        simp [readWindow, start]
      have nothing : kv.leaderSlots kv.kvCommittedLen = ∅ := by
        rw [live.lens, start, leaderSlots_promptLen]
      refine ⟨{ kv with memberRows := none }, ?_, ⟨conserved.ledger, conserved.unlent,
        live.retired, rfl, ?_, ?_, live.pairwise⟩, rfl, rfl⟩
      · simp [KvState.freeMemberRows, spawned, if_neg grown]
      · change kv.held = kv.leaderSlots kv.kvCommittedLen ∪ _
        rw [nothing, Finset.empty_union, ← remaining, empty, Finset.sdiff_empty]
      · change Disjoint (kv.leaderSlots kv.kvCommittedLen) _
        rw [nothing]
        exact Finset.disjoint_empty_left _

/-- The state after the leader's release, all of it at once. -/
theorem Freed.releaseLeader (freed : kv.Freed) : kv.releaseLeader =
        some { kv.takeBack (kv.leaderSlots kv.kvCommittedLen) with released := true } ∧
      (kv.takeBack (kv.leaderSlots kv.kvCommittedLen)).held = stagedSlots kv.pendingOrphans ∧
      (kv.takeBack (kv.leaderSlots kv.kvCommittedLen)).Ledger := by
  have inside : kv.leaderSlots kv.kvCommittedLen ⊆ kv.held := by
    rw [freed.owned]
    exact Finset.subset_union_left
  refine ⟨?_, ?_, freed.ledger.takeBack inside⟩
  · rw [KvState.releaseLeader, free_eq inside]
    rfl
  · change kv.held \ _ = _
    rw [freed.owned, Finset.union_sdiff_cancel_left freed.apart]

/-- A group that is over is conserved. -/
theorem Over.conserved (ended : kv.Over) (released : kv.released = true) (ledger : kv.Ledger)
    (unlent : ∀ slot ∈ kv.promptSlots, kv.lent slot = 0) : kv.Conserved where
  ledger := ledger
  unlent := unlent
  live := fun alive => by cases released.symm.trans alive
  ended := fun _ => ended

section

variable (conserved : kv.Conserved)
include conserved

/-- A group can end. -/
theorem Conserved.endGroup (alive : kv.released = false) :
    ∃ next, kv.endGroup = some next ∧ next.Conserved ∧ next.released = true := by
  have live := conserved.live alive
  have finished : Conserved { kv with state := .finished } :=
    { conserved with
      live := fun _ => { live with }
      ended := fun released => by cases alive.symm.trans released }
  obtain ⟨reclaimed, reclaims, afterReclaim, stillAlive, state, drained⟩ :=
    finished.reclaimOrphans alive none
  rw [filter_not_due_none] at drained
  obtain ⟨freed, frees, afterFree, sameState, pending⟩ := afterReclaim.freeMemberRows stillAlive
  rw [drained] at pending
  have retires : freed.retireGroup = some { freed with retired := true } := by
    rw [retireGroup, afterFree.retired]
    simp [KvState.reclaimOrphans, pending, freeStaged]
  set retired : KvState members := { freed with retired := true } with retiredEq
  have inside : retired.leaderSlots retired.kvCommittedLen ⊆ retired.held := by
    rw [afterFree.owned]
    exact Finset.subset_union_left
  have empty : retired.held \ retired.leaderSlots retired.kvCommittedLen = ∅ := by
    change freed.held \ freed.leaderSlots freed.kvCommittedLen = ∅
    rw [afterFree.owned, pending, stagedSlots, Finset.union_empty, Finset.sdiff_self]
  refine ⟨{ retired.takeBack (retired.leaderSlots retired.kvCommittedLen) with released := true },
    ?_, ?_, rfl⟩
  · simp [KvState.endGroup, reclaims, frees, retires,
      KvState.releaseLeader, free_eq inside]
  · refine Over.conserved ⟨?_, rfl, empty, afterFree.memberRows⟩ rfl
      (@Ledger.takeBack _ retired afterFree.ledger _ inside) afterFree.unlent
    exact sameState.trans state

/-- It can be retracted. -/
theorem Conserved.retractDecode :
    ∃ next, kv.retractDecode = some next ∧ next.Conserved ∧ next.released = true := by
  cases alive : kv.released with
  | true =>
    refine ⟨kv, ?_, conserved, alive⟩
    simp [KvState.retractDecode, alive]
  | false =>
    obtain ⟨freed, frees, afterFree, _, _⟩ := conserved.freeMemberRows alive
    obtain ⟨releases, held, ledger⟩ := afterFree.releaseLeader
    set back : KvState members :=
      { freed.takeBack (freed.leaderSlots freed.kvCommittedLen) with
        released := true
        state := .finished } with backEq
    obtain ⟨returned, reclaims, balanced⟩ :=
      @reclaimOrphans_spec _ back none held.ge afterFree.pairwise
    have live : back.retired = false := afterFree.retired
    have retires : kv.retractDecode =
        (back.reclaimOrphans none).map fun kv => { kv with retired := true } := by
      simp only [KvState.retractDecode, alive, frees, releases,
        bind_eq_bind, bind_some]
      change back.retireGroup = _
      rw [retireGroup, live]
      rfl
    rw [reclaims] at retires
    refine ⟨_, retires, Over.conserved ⟨rfl, rfl, ?_, afterFree.memberRows⟩ rfl (balanced ledger)
      afterFree.unlent, rfl⟩
    rw [filter_due_none, show back.held = _ from held]
    exact Finset.sdiff_self _

/-! ### Commits and runs -/

/-- Retired groups are the released ones. -/
theorem Conserved.retired_eq : kv.retired = kv.released := by
  cases released : kv.released with
  | false => exact (conserved.live released).retired
  | true => exact (conserved.ended released).retired

/-- The commit of a prefill keeps it. -/
theorem Conserved.commitPrefill (tick : ℕ) (toFinish finishes : Bool) :
    ∃ next, kv.commitPrefill tick toFinish finishes = some next ∧ next.Conserved ∧
      (toFinish = true ∨ finishes = true → next.released = true) := by
  unfold KvState.commitPrefill
  cases alive : kv.released with
  | true =>
    rw [conserved.retired_eq, alive]
    exact ⟨kv, rfl, conserved, fun _ => alive⟩
  | false =>
    rw [conserved.retired_eq, alive, if_neg Bool.false_ne_true]
    split
    · obtain ⟨next, ends, after, released⟩ := conserved.endGroup alive
      exact ⟨next, ends, after, fun _ => released⟩
    next running =>
      obtain ⟨reclaimed, reclaims, after, still, _⟩ := conserved.reclaimOrphans alive (some tick)
      rw [reclaims]
      split
      · obtain ⟨next, ends, last, released⟩ := after.endGroup still
        exact ⟨next, ends, last, fun _ => released⟩
      next unfinished =>
        exact ⟨reclaimed, rfl, after, fun ends => absurd ends (not_or.mpr ⟨running, unfinished⟩)⟩

/-- So does the commit of a step. -/
theorem Conserved.commitDecode (tick : ℕ) (toFinish finishes : Bool) :
    ∃ next, kv.commitDecode tick toFinish finishes = some next ∧ next.Conserved ∧
      (toFinish = true ∨ finishes = true → next.released = true) := by
  unfold KvState.commitDecode
  cases alive : kv.released with
  | true =>
    rw [conserved.retired_eq, alive]
    exact ⟨kv, rfl, conserved, fun _ => alive⟩
  | false =>
    rw [conserved.retired_eq, alive, if_neg Bool.false_ne_true]
    obtain ⟨reclaimed, reclaims, after, still, _⟩ := conserved.reclaimOrphans alive (some tick)
    obtain ⟨next, ends, last, released⟩ := after.endGroup still
    rw [reclaims]
    split
    · exact ⟨next, ends, last, fun _ => released⟩
    next running =>
      split
      · exact ⟨next, ends, last, fun _ => released⟩
      next unfinished =>
        exact ⟨reclaimed, rfl, after, fun ends => absurd ends (not_or.mpr ⟨running, unfinished⟩)⟩

variable {event : KvEvent members}

/-- No event the pools and the scheduler allow frees a slot that is not held, and every
such event keeps the slots conserved. -/
theorem Conserved.perform (allowed : kv.Allowed event) :
    ∃ next, kv.perform event = some next ∧ next.Conserved := by
  cases event with
  | selectLeaderPrefill rows => exact ⟨_, rfl, conserved.selectLeaderPrefill allowed⟩
  | prepareForDecode fresh =>
    obtain ⟨distinct, unused, generated⟩ := allowed
    exact ⟨_, rfl, conserved.prepareForDecode distinct unused generated⟩
  | selectAndRelayDecode tick parentIdx =>
    exact ⟨_, rfl, conserved.selectAndRelayDecode tick parentIdx⟩
  | commitPrefill tick toFinish finishes =>
    obtain ⟨next, commits, after, _⟩ := conserved.commitPrefill tick toFinish finishes
    exact ⟨next, commits, after⟩
  | commitDecode tick toFinish finishes =>
    obtain ⟨next, commits, after, _⟩ := conserved.commitDecode tick toFinish finishes
    exact ⟨next, commits, after⟩
  | retractDecode =>
    obtain ⟨next, retracts, after, _⟩ := conserved.retractDecode
    exact ⟨next, retracts, after⟩

/-- An event that ends a live group. -/
def Ends : KvEvent members → Prop
  | .commitPrefill _ toFinish finishes => toFinish = true ∨ finishes = true
  | .commitDecode _ toFinish finishes => toFinish = true ∨ finishes = true
  | .retractDecode => True
  | _ => False

/-- The last events release the group. -/
theorem Conserved.ends (ends : Ends event) :
    ∃ next, kv.perform event = some next ∧ next.Conserved ∧ next.released = true := by
  cases event with
  | selectLeaderPrefill _ | prepareForDecode _ | selectAndRelayDecode _ _ => exact ends.elim
  | commitPrefill tick toFinish finishes =>
    obtain ⟨next, commits, after, released⟩ := conserved.commitPrefill tick toFinish finishes
    exact ⟨next, commits, after, released ends⟩
  | commitDecode tick toFinish finishes =>
    obtain ⟨next, commits, after, released⟩ := conserved.commitDecode tick toFinish finishes
    exact ⟨next, commits, after, released ends⟩
  | retractDecode => exact conserved.retractDecode

end

/-- **Slots of a beam group are conserved.** Whatever the selections, the lag of the commits
and the way the group ends: no event frees a slot that is not held; the slots the rows name
are held, so none of them has been freed; no slot of the prompt has been handed out or
freed by the group; a slot comes back as often as it was handed out, or once less while it
is held; an event that ends the group leaves no slot held; and from the spawn of the member
rows on the slots handed out are the freed ones, the named ones and the staged ones. -/
theorem beam_slots_conserved {promptLen maxNewTokens leaderRow : ℕ} {reqToToken : ℕ → ℕ → ℕ}
    {events : List (KvEvent members)}
    (path : Path Step (new members promptLen maxNewTokens leaderRow reqToToken) events kv) :
    (∀ event, kv.Allowed event → ∃ next, kv.perform event = some next) ∧
      (kv.released = false → kv.named ⊆ kv.held) ∧
      (∀ slot ∈ kv.promptSlots, kv.lent slot = 0 ∧ kv.returned slot = 0) ∧
      (∀ slot, kv.lent slot = kv.returned slot + if slot ∈ kv.held then 1 else 0) ∧
      (∀ event, Ends event → ∃ next, kv.perform event = some next ∧
        ∀ slot, next.returned slot = next.lent slot) ∧
      ∀ rows, kv.memberRows = some rows → kv.promptLen ≤ kv.kvAllocatedLen ∧
        (members + 1) * (kv.kvAllocatedLen - kv.promptLen) =
          kv.slotsFreed + (kv.named.card + kv.numStaged) := by
  have conserved : kv.Conserved := by
    refine path.invariant Conserved ?_ (conserved_new _ _ _ _)
    rintro before event next ⟨allowed, performs⟩ conserved
    obtain ⟨after, same, kept⟩ := conserved.perform allowed
    rw [performs] at same
    cases same
    exact kept
  refine ⟨fun event allowed => ?_, fun alive => ?_, fun slot inside => ?_, conserved.ledger,
    fun event ends => ?_, fun rows spawned => ?_⟩
  · obtain ⟨next, performs, _⟩ := conserved.perform allowed
    exact ⟨next, performs⟩
  · rw [(conserved.live alive).owned]
    exact Finset.subset_union_left
  · have none := conserved.unlent slot inside
    have counted := conserved.ledger slot
    exact ⟨none, by omega⟩
  · obtain ⟨next, performs, kept, released⟩ := conserved.ends ends
    refine ⟨next, performs, fun slot => ?_⟩
    have counted := kept.ledger slot
    rw [(kept.ended released).held] at counted
    simpa using counted.symm
  · have alive : kv.released = false := by
      cases released : kv.released with
      | false => rfl
      | true => cases spawned.symm.trans (conserved.ended released).memberRows
    have balanced := (conserved.live alive).balance rows spawned
    exact ⟨(conserved.live alive).base, by omega⟩

end Steps

/-- Two rows after two forwards, both moved onto the leader's slot in between. -/
theorem beam_slots_conserved_fork : ∃ kv, Path Step (new 1 1 4 0 fun _ position => position)
        [.selectLeaderPrefill ![1], .prepareForDecode ![10, 11],
          .selectAndRelayDecode 1 ![0, 0], .prepareForDecode ![12, 13]] kv ∧
      (1 + 1) * (kv.kvAllocatedLen - kv.promptLen) =
        kv.slotsFreed + (kv.named.card + kv.numStaged) ∧
      kv.named.card = 3 ∧ kv.numStaged = 1 := by
  refine Exists.imp (fun kv (found : _ ∧ _ ∧ _ ∧ _) => ⟨found.1,
    ((beam_slots_conserved found.1).2.2.2.2.2 ![1] found.2.1).2, found.2.2⟩) ?_
  refine ⟨_, .cons ⟨?_, rfl⟩ (.cons ⟨?_, rfl⟩ (.cons ⟨trivial, rfl⟩ (.cons ⟨?_, rfl⟩ (.nil _)))),
    rfl, by decide, by decide⟩
  · change Injective _
    decide
  · exact ⟨by decide, by decide, by decide⟩
  · exact ⟨by decide, by decide, by decide⟩

/-- A group that ends in its prefill has no member rows. The forward that overlaps its commit
hands out one slot, while the length of the leader grows by one. -/
theorem unspawned_group_unbalanced : ∃ kv, Path Step (new 1 1 1 0 fun _ position => position)
        [.selectLeaderPrefill ![1], .prepareForDecode ![10, 11]] kv ∧
      kv.released = false ∧
      (1 + 1) * (kv.kvAllocatedLen - kv.promptLen) ≠
        kv.slotsFreed + (kv.named.card + kv.numStaged) := by
  refine ⟨_, .cons ⟨?_, rfl⟩ (.cons ⟨?_, rfl⟩ (.nil _)), rfl, by decide⟩
  · change Injective _
    decide
  · exact ⟨by decide, by decide, by decide⟩

end KvState

end AvaServe.BeamSearch
