import Mathlib
import AvaServe.Indexer.Prefix

/-!
# The rule behind a component-aware prefix

A scan with counters of unbounded width keeps, block by block, the largest boundary at
which every declared component's rule holds. The scanner of the source follows it as
long as its counters do, which is for fewer than `2 ^ 32` blocks.
-/

namespace AvaServe.Indexer

open List

/-- The tokens of a block. -/
def tokensOf (block : Option BlockComponents) : ℕ :=
  (block.map fun block => block.tokenCount.toNat).getD 0

/-- The tokens of a run of blocks. -/
def runTokens (run : List (Option BlockComponents)) : ℕ := (run.map tokensOf).sum

/-- Token counts are words. -/
theorem tokensOf_lt (block : Option BlockComponents) : tokensOf block < 2 ^ 32 := by
  cases block with
  | none => exact Nat.two_pow_pos 32
  | some block => exact block.tokenCount.toNat_lt

namespace WorkerCacheSpec

variable (spec : WorkerCacheSpec)

/-- The scanner follows the spec's rules, rather than failing closed. -/
structure Usable : Prop where
  components : spec.components ≠ 0
  version : spec.version ≤ supportedSpecVersion
  window : spec.declares componentSwa → spec.swaWindowTokens ≠ 0

instance : Decidable spec.Usable :=
  decidable_of_iff
    (spec.components ≠ 0 ∧ spec.version ≤ supportedSpecVersion ∧
      (spec.declares componentSwa → spec.swaWindowTokens ≠ 0))
    ⟨fun ⟨components, version, window⟩ => ⟨components, version, window⟩,
      fun usable => ⟨usable.components, usable.version, usable.window⟩⟩

/-- FULL can be served for a block. -/
def fullAvailable (block : Option BlockComponents) : Bool :=
  componentAvailable block componentFull spec.fullTierMask

/-- SWA can be served for a block. -/
def swaAvailable (block : Option BlockComponents) : Bool :=
  componentAvailable block componentSwa spec.swaTierMask

/-- MAMBA can be served for a block. -/
def mambaAvailable (block : Option BlockComponents) : Bool :=
  componentAvailable block componentMamba spec.mambaTierMask

end WorkerCacheSpec

/-- The rules of all declared components hold at the end of some blocks. -/
structure RuleHolds (spec : WorkerCacheSpec) (blocks : List (Option BlockComponents)) : Prop where
  full : ∀ block ∈ blocks, spec.fullAvailable block
  swa : spec.declares componentSwa → ∃ head run, blocks = head ++ run ∧ run ≠ [] ∧
    (∀ block ∈ run, spec.swaAvailable block) ∧
    (head = [] ∨ spec.swaWindowTokens.toNat ≤ runTokens run)
  mamba : spec.declares componentMamba →
    ∃ block, blocks.getLast? = some block ∧ spec.mambaAvailable block

/-- The boundaries of some blocks at which the rules hold, and zero. -/
def boundaries (spec : WorkerCacheSpec) (blocks : List (Option BlockComponents)) : Set ℕ :=
  {n | n ≤ blocks.length ∧ (n = 0 ∨ RuleHolds spec (blocks.take n))}

/-! ### The rule at one more block -/

section Rule

variable {spec : WorkerCacheSpec} {blocks : List (Option BlockComponents)}
  {block : Option BlockComponents}

/-- A later block moves no boundary. -/
theorem mem_boundaries_append {n : ℕ} (inside : n ≤ blocks.length) :
    n ∈ boundaries spec (blocks ++ [block]) ↔ n ∈ boundaries spec blocks := by
  unfold boundaries
  rw [Set.mem_ofPred_eq, take_append_of_le_length inside, length_append]
  exact and_congr_left fun _ => iff_of_true (Nat.le_add_right_of_le inside) inside

/-- Where the rule holds is the greatest boundary. -/
theorem isGreatest_of_holds (holds : RuleHolds spec (blocks ++ [block])) :
    IsGreatest (boundaries spec (blocks ++ [block])) (blocks.length + 1) := by
  have length : (blocks ++ [block]).length = blocks.length + 1 := length_append
  refine ⟨⟨length.ge, .inr ?_⟩, fun n member => length ▸ member.1⟩
  rw [← length, take_length]
  exact holds

/-- Where it fails the old one stays. -/
theorem isGreatest_of_not_holds (fails : ¬ RuleHolds spec (blocks ++ [block])) {best : ℕ}
    (greatest : IsGreatest (boundaries spec blocks) best) :
    IsGreatest (boundaries spec (blocks ++ [block])) best := by
  refine ⟨(mem_boundaries_append greatest.1.1).mpr greatest.1, fun n member => ?_⟩
  rcases lt_or_ge blocks.length n with outside | inside
  · have length : (blocks ++ [block]).length = n :=
      le_antisymm (length_append.trans_le outside) member.1
    rcases member.2 with rfl | holds
    · exact absurd outside (Nat.not_lt_zero _)
    · rw [← length, take_length] at holds
      exact absurd holds fails
  · exact greatest.2 ((mem_boundaries_append inside).mp member)

/-- The longest run of available blocks decides the sliding-window rule. -/
theorem exists_run_iff (available : Option BlockComponents → Bool) (window : ℕ) :
    (∃ head run, blocks ++ [block] = head ++ run ∧ run ≠ [] ∧ (∀ block ∈ run, available block) ∧
      (head = [] ∨ window ≤ runTokens run)) ↔
    available block ∧ ((blocks ++ [block]).all available ∨
      window ≤ runTokens ((blocks ++ [block]).rtakeWhile available)) := by
  constructor
  · rintro ⟨head, run, eq, nonempty, all, reaches⟩
    have last : available block := by
      refine all block ?_
      have same := congrArg getLast? eq
      rw [getLast?_append_of_ne_nil _ nonempty, getLast?_concat] at same
      exact mem_of_getLast? same.symm
    refine ⟨last, reaches.imp ?_ fun enough => ?_⟩
    · rintro rfl
      rw [eq, all_eq_true]
      exact all
    · have longest : (head ++ run).rtakeWhile available = head.rtakeWhile available ++ run := by
        unfold rtakeWhile
        rw [reverse_append, takeWhile_append_of_pos
          fun block member => all block (mem_reverse.mp member), reverse_append,
          reverse_reverse]
      rw [eq, longest, runTokens, map_append, sum_append]
      exact Nat.le_add_left_of_le enough
  · rintro ⟨last, reaches⟩
    rcases reaches with all | enough
    · exact ⟨[], blocks ++ [block], rfl, by simp, all_eq_true.mp all, .inl rfl⟩
    · refine ⟨(blocks ++ [block]).rdropWhile available, (blocks ++ [block]).rtakeWhile available,
        ?_, ?_, fun block member => mem_rtakeWhile_imp member, .inr enough⟩
      · exact rdropWhile_append_rtakeWhile.symm
      · rw [rtakeWhile_concat_pos _ _ _ last]
        simp

/-- The rule, read off the last block. -/
theorem ruleHolds_concat_iff : RuleHolds spec (blocks ++ [block]) ↔
      (blocks.all spec.fullAvailable ∧ spec.fullAvailable block) ∧
      (spec.declares componentSwa → spec.swaAvailable block ∧
        ((blocks ++ [block]).all spec.swaAvailable ∨ spec.swaWindowTokens.toNat ≤
            runTokens ((blocks ++ [block]).rtakeWhile spec.swaAvailable))) ∧
      (spec.declares componentMamba → spec.mambaAvailable block) := by
  have full : (∀ other ∈ blocks ++ [block], spec.fullAvailable other) ↔
      blocks.all spec.fullAvailable ∧ spec.fullAvailable block := by
    rw [forall_mem_append, all_eq_true, forall_mem_singleton]
  have mamba : (∃ other, (blocks ++ [block]).getLast? = some other ∧ spec.mambaAvailable other) ↔
      spec.mambaAvailable block := by
    rw [getLast?_concat]
    exact ⟨fun ⟨_, same, available⟩ => Option.some.inj same ▸ available,
      fun available => ⟨block, rfl, available⟩⟩
  rw [← full, ← mamba, ← exists_run_iff]
  exact ⟨fun holds => ⟨holds.full, holds.swa, holds.mamba⟩,
    fun ⟨full, swa, mamba⟩ => ⟨full, swa, mamba⟩⟩

end Rule

/-! ### The scan with unbounded counters -/

/-- The component-aware scan. -/
@[ext] structure RuleScan where
  processed : ℕ := 0
  active : Bool := true
  best : ℕ := 0
  swaRun : ℕ := 0
  swaHeadBroken : Bool := false

variable {blocks : List (Option BlockComponents)}

namespace RuleScan

/-- The sliding-window part of a push. -/
def pushSwa (spec : WorkerCacheSpec) (scan : RuleScan) (block : Option BlockComponents) :
    ℕ × Bool × Bool :=
  if spec.declares componentSwa then
    if spec.swaAvailable block then
      (scan.swaRun + tokensOf block, scan.swaHeadBroken, !scan.swaHeadBroken ||
          decide (spec.swaWindowTokens.toNat ≤ scan.swaRun + tokensOf block))
    else (0, true, false)
  else (scan.swaRun, scan.swaHeadBroken, true)

/-- One block. -/
def push (spec : WorkerCacheSpec) (scan : RuleScan) (block : Option BlockComponents) : RuleScan :=
  if !scan.active then { scan with processed := scan.processed + 1 }
  else if !spec.fullAvailable block then
    { scan with processed := scan.processed + 1, active := false }
  else
    { processed := scan.processed + 1
      active := true
      best :=
        if (pushSwa spec scan block).2.2 &&
            (!spec.declares componentMamba || spec.mambaAvailable block) then
          scan.processed + 1
        else scan.best
      swaRun := (pushSwa spec scan block).1
      swaHeadBroken := (pushSwa spec scan block).2.1 }

section Branches

variable {spec : WorkerCacheSpec} {scan : RuleScan} {block : Option BlockComponents}

/-- An ended scan goes on counting. -/
theorem push_of_inactive (inactive : scan.active = false) :
    scan.push spec block = { scan with processed := scan.processed + 1 } :=
  if_pos (by rw [inactive]; rfl)

variable (active : scan.active = true)

include active in
/-- A missing block ends it. -/
theorem push_of_missing (missing : spec.fullAvailable block = false) :
    scan.push spec block = { scan with processed := scan.processed + 1, active := false } := by
  rw [push, if_neg (by rw [active]; decide), if_pos (by rw [missing]; rfl)]

include active in
/-- A full block is scanned. -/
theorem push_of_full (full : spec.fullAvailable block = true) : scan.push spec block =
      { processed := scan.processed + 1
        active := true
        best :=
          if (pushSwa spec scan block).2.2 &&
              (!spec.declares componentMamba || spec.mambaAvailable block) then
            scan.processed + 1
          else scan.best
        swaRun := (pushSwa spec scan block).1
        swaHeadBroken := (pushSwa spec scan block).2.1 } := by
  rw [push, if_neg (by rw [active]; decide), if_neg (by rw [full]; decide)]

/-- Every block is counted. -/
theorem processed_push (spec : WorkerCacheSpec) (scan : RuleScan)
    (block : Option BlockComponents) : (scan.push spec block).processed = scan.processed + 1 := by
  cases active : scan.active with
  | false => rw [push_of_inactive active]
  | true =>
    cases full : spec.fullAvailable block with
    | false => rw [push_of_missing active full]
    | true => rw [push_of_full active full]

/-- A run never has more tokens than its blocks can count. -/
theorem swaRun_push_le (bounded : scan.swaRun ≤ scan.processed * 4294967295) :
    (scan.push spec block).swaRun ≤ (scan.push spec block).processed * 4294967295 := by
  have tokens : tokensOf block ≤ 4294967295 := Nat.le_of_lt_succ (tokensOf_lt block)
  have kept : scan.swaRun ≤ (scan.processed + 1) * 4294967295 := by
    rw [Nat.succ_mul]
    exact Nat.le_add_right_of_le bounded
  have longer : scan.swaRun + tokensOf block ≤ (scan.processed + 1) * 4294967295 := by
    rw [Nat.succ_mul]
    exact Nat.add_le_add bounded tokens
  cases active : scan.active with
  | false =>
    rw [push_of_inactive active]
    exact kept
  | true =>
    cases full : spec.fullAvailable block with
    | false =>
      rw [push_of_missing active full]
      exact kept
    | true =>
      rw [push_of_full active full]
      unfold pushSwa
      split
      · split
        · exact longer
        · exact Nat.zero_le _
      · exact kept

end Branches

/-- What a scan knows of the blocks it has seen. -/
structure Sees (spec : WorkerCacheSpec) (blocks : List (Option BlockComponents))
    (scan : RuleScan) : Prop where
  processed : scan.processed = blocks.length
  active : scan.active = blocks.all spec.fullAvailable
  best : IsGreatest (boundaries spec blocks) scan.best
  swaRun : scan.active → spec.declares componentSwa →
    scan.swaRun = runTokens (blocks.rtakeWhile spec.swaAvailable)
  swaHeadBroken : scan.active → spec.declares componentSwa →
    scan.swaHeadBroken = !blocks.all spec.swaAvailable

/-- The scan before the first block. -/
theorem sees_nil (spec : WorkerCacheSpec) : Sees spec [] {} where
  processed := rfl
  active := rfl
  best := ⟨⟨le_rfl, .inl rfl⟩, fun _ member => member.1⟩
  swaRun := fun _ _ => rfl
  swaHeadBroken := fun _ _ => rfl

variable {spec : WorkerCacheSpec} {scan : RuleScan}

/-- What the sliding-window part of a push keeps of the run and the head. -/
theorem Sees.pushSwa (sees : Sees spec blocks scan) (block : Option BlockComponents)
    (active : scan.active = true) (declared : spec.declares componentSwa) :
    (pushSwa spec scan block).1 = runTokens ((blocks ++ [block]).rtakeWhile spec.swaAvailable) ∧
      (pushSwa spec scan block).2.1 = !(blocks ++ [block]).all spec.swaAvailable := by
  rw [RuleScan.pushSwa, if_pos declared, sees.swaRun active declared,
    sees.swaHeadBroken active declared, all_append, all_cons]
  by_cases here : spec.swaAvailable block
  · rw [rtakeWhile_concat_pos _ _ _ here, here, runTokens, runTokens, map_append]
    simp
  · simp [here, runTokens]

/-- A push accepts its boundary exactly when the rules hold there. -/
theorem Sees.boundary_iff (sees : Sees spec blocks scan) {block : Option BlockComponents}
    (active : scan.active = true) (full : spec.fullAvailable block = true) :
    ((RuleScan.pushSwa spec scan block).2.2 &&
        (!spec.declares componentMamba || spec.mambaAvailable block)) = true ↔
      RuleHolds spec (blocks ++ [block]) := by
  rw [ruleHolds_concat_iff, ← sees.active, Bool.and_eq_true]
  refine Iff.trans ?_ (and_iff_right ⟨active, full⟩).symm
  refine and_congr ?_ (by cases spec.declares componentMamba <;> simp)
  by_cases declared : spec.declares componentSwa
  · obtain ⟨run, broken⟩ := sees.pushSwa block active declared
    rw [← run, ← Bool.not_eq_eq_eq_not.mpr broken, RuleScan.pushSwa]
    by_cases here : spec.swaAvailable block
    · simp [here, declared]
    · simp [here, declared]
  · rw [RuleScan.pushSwa, if_neg declared]
    exact iff_of_true rfl fun absurdly => absurd absurdly declared

/-- The scan sees one block more. -/
theorem Sees.push (sees : Sees spec blocks scan) (block : Option BlockComponents) :
    Sees spec (blocks ++ [block]) (scan.push spec block) := by
  have length : scan.processed + 1 = (blocks ++ [block]).length := by
    rw [length_append, sees.processed, length_singleton]
  have all : (blocks ++ [block]).all spec.fullAvailable =
      (scan.active && spec.fullAvailable block) := by
    rw [all_append, sees.active, all_cons, all_nil, Bool.and_true]
  have frozen (inactive : (scan.active && spec.fullAvailable block) = false) :
      IsGreatest (boundaries spec (blocks ++ [block])) scan.best := by
    refine isGreatest_of_not_holds (fun holds => ?_) sees.best
    have every := all_eq_true.mpr holds.full
    rw [all, inactive] at every
    cases every
  cases active : scan.active with
  | false =>
    rw [push_of_inactive active]
    refine ⟨length, ?_, frozen (by rw [active]; rfl), fun impossible => ?_, fun impossible => ?_⟩
    · rw [all, active, Bool.false_and]
    · exact absurd (active.symm.trans impossible) (by decide)
    · exact absurd (active.symm.trans impossible) (by decide)
  | true =>
    cases full : spec.fullAvailable block with
    | false =>
      rw [push_of_missing active full]
      refine ⟨length, ?_, frozen (by rw [full, Bool.and_false]), fun impossible => ?_,
        fun impossible => ?_⟩
      · rw [all, full, Bool.and_false]
      · cases impossible
      · cases impossible
    | true =>
      rw [push_of_full active full]
      have swa := sees.pushSwa block active
      have boundary := sees.boundary_iff active full
      refine ⟨length, ?_, ?_, fun _ declared => (swa declared).1,
        fun _ declared => (swa declared).2⟩
      · rw [all, active, full]
        rfl
      · split
        next ok =>
          rw [sees.processed]
          exact isGreatest_of_holds (boundary.mp ok)
        next bad => exact isGreatest_of_not_holds (boundary.not.mp bad) sees.best

/-- A whole scan knows the blocks. -/
theorem sees_foldl (spec : WorkerCacheSpec) (blocks : List (Option BlockComponents)) :
    Sees spec blocks (blocks.foldl (push spec) {}) := by
  induction blocks using reverseRecOn with
  | nil => exact sees_nil spec
  | append_singleton blocks block ih =>
    rw [foldl_append]
    exact ih.push block

end RuleScan

/-! ### The scanner of the source follows the scan -/

variable {spec : WorkerCacheSpec} {scanner : WorkerPrefixScanner} {scan : RuleScan}

namespace WorkerPrefixScanner

/-- The scanner's counters hold what the scan counts. -/
structure Follows (spec : WorkerCacheSpec) (scan : RuleScan) (scanner : WorkerPrefixScanner) :
    Prop where
  processed : scanner.processed.toNat = scan.processed
  bounded : scan.swaRun ≤ scan.processed * 4294967295
  state : ∃ best swaRun, scanner.state =
      .componentAware scan.active best spec swaRun scan.swaHeadBroken ∧
    best.toNat = scan.best ∧ swaRun.toNat = scan.swaRun

/-- A new scanner follows the scan. -/
theorem follows_new (usable : spec.Usable) :
    Follows spec {} (WorkerPrefixScanner.new (some spec)) := by
  refine ⟨rfl, Nat.zero_le _, 0, 0, ?_, rfl, rfl⟩
  unfold WorkerPrefixScanner.new
  dsimp only
  rw [if_neg, if_neg]
  · exact fun ⟨declared, zero⟩ => usable.window declared zero
  · rintro (zero | newer)
    · exact usable.components zero
    · exact absurd usable.version (UInt32.not_le.mpr newer)

/-- Below the bound, one more. -/
theorem toNat_saturatingSucc {count : UInt32} (room : count.toNat + 1 < 2 ^ 32) :
    (saturatingSucc count).toNat = count.toNat + 1 := by
  unfold saturatingSucc
  rw [if_neg]
  · exact Nat.mod_eq_of_lt room
  · rintro rfl
    exact absurd room (by decide)

/-- The sliding-window parts agree while the run fits. -/
theorem pushSwa_follows {spec : WorkerCacheSpec} {scan : RuleScan} {swaRun : UInt64}
    (same : swaRun.toNat = scan.swaRun) (block : Option BlockComponents)
    (room : scan.swaRun + tokensOf block < 2 ^ 64) :
    (pushSwa spec block swaRun scan.swaHeadBroken).1.toNat = (scan.pushSwa spec block).1 ∧
      (pushSwa spec block swaRun scan.swaHeadBroken).2 = (scan.pushSwa spec block).2 := by
  have tokens : ((block.map fun block : BlockComponents => block.tokenCount.toUInt64).getD
      0).toNat = tokensOf block := by
    cases block with
    | none => rfl
    | some block => exact UInt32.toNat_toUInt64 _
  have sum : (swaRun + (block.map fun block => block.tokenCount.toUInt64).getD 0).toNat =
      scan.swaRun + tokensOf block := by
    rw [UInt64.toNat_add, tokens, same]
    exact Nat.mod_eq_of_lt room
  unfold pushSwa RuleScan.pushSwa
  by_cases declared : spec.declares componentSwa
  · rw [if_pos declared, if_pos declared]
    by_cases here : spec.swaAvailable block
    · rw [if_pos here,
        if_pos (show componentAvailable block componentSwa spec.swaTierMask from here)]
      refine ⟨sum, ?_⟩
      simp [UInt64.le_iff_toNat_le, sum]
    · rw [if_neg here,
        if_neg (show ¬ componentAvailable block componentSwa spec.swaTierMask from here)]
      exact ⟨rfl, rfl⟩
  · rw [if_neg declared, if_neg declared]
    exact ⟨same, rfl⟩

/-- The scanner at a full block. -/
theorem pushState_of_full {processed best : UInt32} {spec : WorkerCacheSpec} {swaRun : UInt64}
    {swaHeadBroken : Bool} {block : Option BlockComponents}
    (full : spec.fullAvailable block = true) :
    pushState processed block (.componentAware true best spec swaRun swaHeadBroken) =
      .componentAware true
        (if (pushSwa spec block swaRun swaHeadBroken).2.2 &&
            (!spec.declares componentMamba || spec.mambaAvailable block) then processed else best)
        spec (pushSwa spec block swaRun swaHeadBroken).1
        (pushSwa spec block swaRun swaHeadBroken).2.1 := by
  have available : componentAvailable block componentFull spec.fullTierMask = true := full
  have mamba : componentAvailable block componentMamba spec.mambaTierMask =
      spec.mambaAvailable block := rfl
  simp only [pushState, available, mamba]
  cases spec.declares componentMamba <;> simp

/-- The scanner follows the scan. -/
theorem Follows.push (follows : Follows spec scan scanner) (block : Option BlockComponents)
    (room : scan.processed + 1 < 2 ^ 32) :
    Follows spec (scan.push spec block) (scanner.push block) := by
  obtain ⟨processed, bounded, best, swaRun, state, isBest, isRun⟩ := follows
  have counted : (saturatingSucc scanner.processed).toNat = scan.processed + 1 := by
    rw [toNat_saturatingSucc (processed.symm ▸ room), processed]
  have fits : scan.swaRun + tokensOf block < 2 ^ 64 := by
    have tokens := tokensOf_lt block
    omega
  obtain ⟨run, rest⟩ := @pushSwa_follows spec scan swaRun isRun block fits
  refine ⟨?_, RuleScan.swaRun_push_le bounded, ?_⟩
  · rw [RuleScan.processed_push]
    exact counted
  rw [WorkerPrefixScanner.push, state]
  cases active : scan.active with
  | false =>
    rw [RuleScan.push_of_inactive active]
    exact ⟨best, swaRun, by rw [active]; rfl, isBest, isRun⟩
  | true =>
    cases full : spec.fullAvailable block with
    | false =>
      rw [RuleScan.push_of_missing active full]
      exact ⟨best, swaRun, if_pos (by rw [Bool.not_eq_true']; exact full), isBest, isRun⟩
    | true =>
      rw [RuleScan.push_of_full active full]
      have next := @pushState_of_full (saturatingSucc scanner.processed) best spec swaRun
        scan.swaHeadBroken block full
      rw [rest] at next
      refine ⟨_, _, next, ?_, run⟩
      split
      · exact counted
      · exact isBest

/-- So it does over all blocks. -/
theorem Follows.foldl (blocks : List (Option BlockComponents)) (follows : Follows spec scan scanner)
    (room : scan.processed + blocks.length < 2 ^ 32) :
    Follows spec (blocks.foldl (RuleScan.push spec) scan)
      (blocks.foldl WorkerPrefixScanner.push scanner) := by
  induction blocks generalizing scan scanner with
  | nil => exact follows
  | cons block blocks ih =>
    rw [length_cons] at room
    refine ih (follows.push block (by omega)) ?_
    rw [RuleScan.processed_push]
    omega

end WorkerPrefixScanner

/-- The prefix of a worker with a usable spec is what the scan finds best. -/
theorem toNat_computeWorkerPrefix (usable : spec.Usable) (fits : blocks.length < 2 ^ 32) :
    (computeWorkerPrefix (some spec) blocks).toNat =
      (blocks.foldl (RuleScan.push spec) {}).best := by
  have follows := (WorkerPrefixScanner.follows_new usable).foldl blocks
    (by rwa [zero_add])
  obtain ⟨best, swaRun, state, isBest, -⟩ := follows.state
  rw [computeWorkerPrefix, WorkerPrefixScanner.prefixLen, state]
  exact isBest

end AvaServe.Indexer
