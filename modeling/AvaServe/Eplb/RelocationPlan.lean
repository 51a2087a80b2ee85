import AvaServe.Eplb.RelocationPeers

/-!
# The plan of a rank

Planning never raises. It leaves one entry of operations for each expert the rank holds,
with its sends, and one for each expert it asks for, with its receives; its copies back
follow the cases of its locations.
-/

namespace AvaServe.Eplb

open List Prod

/-- The rank a case receives from. -/
def Source.holder : Source → Option ℕ
  | .unchanged => none
  | .sameGpu _ => none
  | .freeRider _ => none
  | .sameNode srcRank => some srcRank
  | .crossNode srcRank => some srcRank

/-- The copy back a case leaves for a location. -/
def Source.copyInfo (dst : ℕ) : Source → Option (ℕ × ℕ)
  | .unchanged => none
  | .sameGpu _ => some (dst, dst)
  | .freeRider src => some (src, dst)
  | .sameNode _ => some (dst, dst)
  | .crossNode _ => some (dst, dst)

namespace Relocation

variable {layer : Relocation} {worldSize : ℕ}

/-! ### The case of a location -/

/-- No location of a rank before a given one gets an expert. -/
def FirstWant (layer : Relocation) (rank dst e : ℕ) : Prop :=
  ∀ x ∈ layer.localExpertLocations rank, x < dst → layer.newPhysicalToLogicalMap[x]? ≠ some e

/-- What each case says about a location that gets expert `e`. -/
def Justified (layer : Relocation) (rank dst e : ℕ) : Source → Prop
  | .unchanged => layer.oldPhysicalToLogicalMap[dst]? = some e
  | .sameGpu src => src ∈ layer.localExpertLocations rank ∧
      layer.oldPhysicalToLogicalMap[src]? = some e
  | .freeRider src => ¬layer.Holds rank e ∧ src ∈ layer.localExpertLocations rank ∧ src < dst ∧
      layer.newPhysicalToLogicalMap[src]? = some e ∧ layer.FirstWant rank src e
  | .sameNode holder => layer.FirstWant rank dst e ∧ layer.Asks rank e holder
  | .crossNode holder => layer.FirstWant rank dst e ∧ layer.Asks rank e holder

variable {rank : ℕ} {source : Source}

/-- A source that is asked is a holder. -/
theorem justified_of_holder {dst e holder : ℕ} (justified : layer.Justified rank dst e source)
    (isHolder : source.holder = some holder) :
    layer.FirstWant rank dst e ∧ layer.Asks rank e holder := by
  cases source with
  | unchanged | sameGpu src | freeRider src => cases isHolder
  | sameNode other | crossNode other =>
    cases isHolder
    exact justified

section Cases

variable (valid : layer.Valid worldSize) {rank dst e : ℕ}
include valid

variable (member : dst ∈ layer.localExpertLocations rank)
  (assigned : layer.newPhysicalToLogicalMap[dst]? = some e)

section

include member assigned

/-- Every location has a justified source. -/
theorem sourceOf_spec :
    ∃ source, layer.sourceOf rank dst = some source ∧ layer.Justified rank dst e source := by
  have inside : dst < layer.oldPhysicalToLogicalMap.length := by
    have less := (List.getElem?_eq_some_iff.mp assigned).1
    rwa [valid.new_length, ← valid.old_length] at less
  unfold sourceOf
  rw [assigned, getElem?_eq_getElem inside]
  simp only [Option.bind_eq_bind, Option.bind_some]
  split
  next same => exact ⟨_, rfl, List.getElem?_eq_some_iff.mpr ⟨inside, same⟩⟩
  split
  next src found =>
    have held := find?_some found
    simp only [decide_eq_true_eq] at held
    exact ⟨_, rfl, mem_of_find?_eq_some found, held⟩
  rename_i lacking
  have lacks : ¬layer.Holds rank e := by
    rintro ⟨x, inside, held⟩
    exact absurd held (of_decide_eq_false (by simpa using find?_eq_none.mp lacking x inside))
  have high := (mem_local_iff.mp member).2
  have earlier : ∀ x, x ∈ range' (rank * layer.numLocalPhysicalExperts)
      (dst - rank * layer.numLocalPhysicalExperts) ↔
      x ∈ layer.localExpertLocations rank ∧ x < dst := by
    intro x
    rw [mem_range'_1, mem_local_iff]
    omega
  split
  next src found =>
    obtain ⟨wanted, inRange, none⟩ := find?_range'_eq_some.mp found
    obtain ⟨srcMem, srcLess⟩ := (earlier src).mp inRange
    refine ⟨_, rfl, lacks, srcMem, srcLess, of_decide_eq_true wanted, ?_⟩
    intro x xMem less filled
    have missed := none x (mem_local_iff.mp xMem).1 less
    simp [filled] at missed
  next nothing =>
    have first : layer.FirstWant rank dst e := by
      intro x xMem less filled
      have missed := find?_eq_none.mp nothing x ((earlier x).mpr ⟨xMem, less⟩)
      simp [filled] at missed
    obtain ⟨holder, near | far⟩ := exists_asks valid ⟨dst, member, assigned⟩ lacks
    · exact ⟨_, near, first, .inl near⟩
    · exact ⟨_, far, first, .inr far⟩

/-- A location whose expert nobody before it gets, on a rank without the expert, receives. -/
theorem holder_of_first (lacks : ¬layer.Holds rank e) (first : layer.FirstWant rank dst e)
    (found : layer.sourceOf rank dst = some source) :
    ∃ holder, source.holder = some holder ∧ layer.Asks rank e holder := by
  obtain ⟨source', found', justified⟩ := sourceOf_spec valid member assigned
  obtain rfl := Option.some.inj (found.symm.trans found')
  cases source with
  | unchanged => exact absurd ⟨dst, member, justified⟩ lacks
  | sameGpu src => exact absurd ⟨src, justified⟩ lacks
  | freeRider src =>
    obtain ⟨-, srcMem, less, filled, -⟩ := justified
    exact absurd filled (first src srcMem less)
  | sameNode holder | crossNode holder => exact ⟨holder, rfl, justified.2⟩

end

end Cases

/-! ### Receives and copies -/

/-- The receives of an expert into a location. -/
def recvOps (layer : Relocation) (dst e holder : ℕ) : List P2POp :=
  (range layer.numTensors).map fun i =>
    ⟨.irecv, (i, dst % layer.numLocalPhysicalExperts), holder, e⟩

/-- The entry of operations a location gives rise to. -/
def recvEntry (layer : Relocation) (rank dst : ℕ) : Option (ℕ × List P2POp) := do
  let source ← layer.sourceOf rank dst
  let holder ← source.holder
  let e ← layer.newPhysicalToLogicalMap[dst]?
  pure (e, layer.recvOps dst e holder)

/-- The copy back of a location. -/
def copyEntry (layer : Relocation) (rank dst : ℕ) : Option (ℕ × ℕ) := do
  let source ← layer.sourceOf rank dst
  source.copyInfo dst

/-- The buffers after a location was handled. -/
def bufferAfter {Value : Type} (layer : Relocation) (weights tempBuffers : Slot → Value)
    (dst : ℕ) : Source → Slot → Value
  | .sameGpu src => layer.copyTensors weights tempBuffers (src % layer.numLocalPhysicalExperts)
      (dst % layer.numLocalPhysicalExperts)
  | _ => tempBuffers

section Fold

variable (valid : layer.Valid worldSize) {rank : ℕ} {Value : Type} {weights : Slot → Value}
include valid

/-- What one location adds to the plan. -/
theorem handleRecv_eq {dst e : ℕ} {source : Source} (plan : RankPlan Value)
    (member : dst ∈ layer.localExpertLocations rank)
    (assigned : layer.newPhysicalToLogicalMap[dst]? = some e)
    (found : layer.sourceOf rank dst = some source) :
    layer.handleRecvOfDstExpertLocation rank weights plan dst = some
      { tempBuffers := layer.bufferAfter weights plan.tempBuffers dst source
        buffer2weightCopyInfos := plan.buffer2weightCopyInfos ++ (layer.copyEntry rank dst).toList
        p2pOpInfos := plan.p2pOpInfos ++ (layer.recvEntry rank dst).toList } := by
  obtain ⟨source', found', justified⟩ := sourceOf_spec valid member assigned
  obtain rfl := Option.some.inj (found.symm.trans found')
  have place := getLocal_of_mem member
  unfold handleRecvOfDstExpertLocation copyEntry recvEntry
  rw [found]
  cases source with
  | unchanged => simp [Source.copyInfo, Source.holder, bufferAfter]
  | sameGpu src =>
    have from_ := getLocal_of_mem justified.1
    simp [Source.copyInfo, Source.holder, bufferAfter, from_, place]
  | freeRider src => simp [Source.copyInfo, Source.holder, bufferAfter]
  | sameNode holder | crossNode holder =>
    simp [Source.copyInfo, Source.holder, bufferAfter, createP2PRecv, assigned, place, recvOps]

omit valid in
/-- Every location of a rank of the world has an expert. -/
theorem exists_expert {map : List ℕ} {x : ℕ}
    (length : map.length = worldSize * layer.numLocalPhysicalExperts) (inWorld : rank < worldSize)
    (member : x ∈ layer.localExpertLocations rank) :
    ∃ e, map[x]? = some e := by
  have less : x < map.length := by
    rw [length]
    exact (mem_local_iff.mp member).2.trans_le (Nat.mul_le_mul_right _ inWorld)
  exact ⟨_, getElem?_eq_getElem less⟩

/-- What all locations add. -/
theorem handleRecv_foldlM {dsts : List ℕ} (inWorld : rank < worldSize)
    (inside : ∀ dst ∈ dsts, dst ∈ layer.localExpertLocations rank) (nodup : dsts.Nodup)
    (plan : RankPlan Value) :
    ∃ tempBuffers, dsts.foldlM (layer.handleRecvOfDstExpertLocation rank weights) plan = some
        { tempBuffers := tempBuffers
          buffer2weightCopyInfos :=
            plan.buffer2weightCopyInfos ++ dsts.filterMap (layer.copyEntry rank)
          p2pOpInfos := plan.p2pOpInfos ++ dsts.filterMap (layer.recvEntry rank) } ∧
      (∀ slot : Slot, (∀ dst ∈ dsts, ∀ src, layer.sourceOf rank dst = some (.sameGpu src) →
        dst % layer.numLocalPhysicalExperts ≠ slot.2) →
        tempBuffers slot = plan.tempBuffers slot) ∧
      ∀ dst ∈ dsts, ∀ src, layer.sourceOf rank dst = some (.sameGpu src) →
        ∀ i < layer.numTensors, tempBuffers (i, dst % layer.numLocalPhysicalExperts) =
          weights (i, src % layer.numLocalPhysicalExperts) := by
  induction dsts generalizing plan with
  | nil => exact ⟨plan.tempBuffers, by simp, fun _ _ => rfl, forall_mem_nil _⟩
  | cons dst rest ih =>
    obtain ⟨absent, nodup⟩ := nodup_cons.mp nodup
    have member := inside dst mem_cons_self
    obtain ⟨e, assigned⟩ := exists_expert valid.new_length inWorld member
    obtain ⟨source, found, -⟩ := sourceOf_spec valid member assigned
    have first := @handleRecv_eq layer worldSize valid rank Value weights dst e source plan member
      assigned found
    obtain ⟨tempBuffers, folded, kept, copied⟩ := ih
      (fun other later => inside other (mem_cons_of_mem _ later)) nodup
      { tempBuffers := layer.bufferAfter weights plan.tempBuffers dst source
        buffer2weightCopyInfos := plan.buffer2weightCopyInfos ++ (layer.copyEntry rank dst).toList
        p2pOpInfos := plan.p2pOpInfos ++ (layer.recvEntry rank dst).toList }
    have apart : ∀ other ∈ rest, other % layer.numLocalPhysicalExperts ≠
        dst % layer.numLocalPhysicalExperts := by
      intro other later same
      have equal := local_injective (inside other (mem_cons_of_mem _ later)) member same
      exact absent (equal ▸ later)
    refine ⟨tempBuffers, ?_, fun slot outside => ?_, fun other among src sameGpu i bound => ?_⟩
    · rw [foldlM_cons, first, Option.bind_eq_bind, Option.bind_some, folded]
      have split : ∀ {β : Type} (f : ℕ → Option β),
          (dst :: rest).filterMap f = (f dst).toList ++ rest.filterMap f := by
        intro β f
        rw [filterMap_cons]
        cases f dst <;> rfl
      rw [split, split, append_assoc, append_assoc]
    · rw [kept slot fun other later => outside other (mem_cons_of_mem _ later)]
      have other := outside dst mem_cons_self
      cases source with
      | sameGpu src => exact if_neg fun both => other src found both.2.symm
      | unchanged | freeRider src | sameNode holder | crossNode holder => rfl
    · obtain rfl | later := mem_cons.mp among
      · rw [kept _ fun other later _ _ => apart other later]
        obtain rfl := Option.some.inj (found.symm.trans sameGpu)
        exact if_pos ⟨bound, rfl⟩
      · exact copied other later src sameGpu i bound

end Fold

/-! ### Sends -/

/-- The sends of an expert from a location. -/
def sendOps (layer : Relocation) (src e : ℕ) (dstRanks : List ℕ) : List P2POp :=
  dstRanks.flatMap fun dstRank => (range layer.numTensors).map fun i =>
    ⟨.isend, (i, src % layer.numLocalPhysicalExperts), dstRank, e⟩

/-- An entry with the sends of an expert. -/
def SendEntry (layer : Relocation) (rank : ℕ) (entry : ℕ × List P2POp) : Prop :=
  ∃ src ∈ layer.localExpertLocations rank, layer.oldPhysicalToLogicalMap[src]? = some entry.1 ∧
    ∃ dstRanks, layer.allDstRanks rank entry.1 = some dstRanks ∧
      entry.2 = layer.sendOps src entry.1 dstRanks

/-- The sends of a rank. -/
theorem createIsendOps_foldlM (valid : layer.Valid worldSize) {srcs : List ℕ}
    (inWorld : rank < worldSize) (inside : ∀ src ∈ srcs, src ∈ layer.localExpertLocations rank)
    (handled : List ℕ) (infos : List (ℕ × List P2POp)) :
    ∃ handled' entries, srcs.foldlM (layer.createIsendOp rank) (handled, infos) =
        some (handled', infos ++ entries) ∧
      (entries.map fst).Nodup ∧ (∀ entry ∈ entries, entry.1 ∉ handled) ∧
      (∀ entry ∈ entries, layer.SendEntry rank entry) ∧
      ∀ src ∈ srcs, ∀ e, layer.oldPhysicalToLogicalMap[src]? = some e →
        e ∈ handled ∨ e ∈ entries.map fst := by
  induction srcs generalizing handled infos with
  | nil =>
    exact ⟨handled, [], by simp, nodup_nil, forall_mem_nil _, forall_mem_nil _, forall_mem_nil _⟩
  | cons src rest ih =>
    have member := inside src mem_cons_self
    have insideRest := fun other later => inside other (mem_cons_of_mem src later)
    obtain ⟨e, held⟩ := exists_expert valid.old_length inWorld member
    rw [foldlM_cons]
    by_cases done : e ∈ handled
    · have skipped : layer.createIsendOp rank (handled, infos) src = some (handled, infos) := by
        rw [createIsendOp, held]
        simp [done]
      obtain ⟨handled', entries, folded, nodup, fresh, sends, all⟩ := ih insideRest handled infos
      refine ⟨handled', entries, ?_, nodup, fresh, sends, fun other among e' held' => ?_⟩
      · rw [skipped, Option.bind_eq_bind, Option.bind_some, folded]
      · obtain rfl | later := mem_cons.mp among
        · obtain rfl := Option.some.inj (held.symm.trans held')
          exact .inl done
        · exact all other later e' held'
    · obtain ⟨dstRanks, chosen, -, -⟩ := allDstRanks_spec valid ⟨src, member, held⟩
      have added : layer.createIsendOp rank (handled, infos) src =
          some (e :: handled, infos ++ [(e, layer.sendOps src e dstRanks)]) := by
        rw [createIsendOp, held]
        simp [done, createIsendOpsOfLogicalExpertId, chosen, getLocal_of_mem member, sendOps]
      obtain ⟨handled', entries, folded, nodup, fresh, sends, all⟩ :=
        ih insideRest (e :: handled) (infos ++ [(e, layer.sendOps src e dstRanks)])
      refine ⟨handled', (e, layer.sendOps src e dstRanks) :: entries, ?_, ?_, ?_, ?_, ?_⟩
      · rw [added, Option.bind_eq_bind, Option.bind_some, folded, append_assoc]
        rfl
      · refine nodup_cons.mpr ⟨fun again => ?_, nodup⟩
        obtain ⟨entry, entryMem, same⟩ := mem_map.mp again
        exact fresh entry entryMem (same ▸ mem_cons_self)
      · intro entry among
        obtain rfl | later := mem_cons.mp among
        · exact done
        · exact fun old => fresh entry later (mem_cons_of_mem _ old)
      · intro entry among
        obtain rfl | later := mem_cons.mp among
        · exact ⟨src, member, held, dstRanks, chosen, rfl⟩
        · exact sends entry later
      · intro other among e' held'
        rw [map_cons, mem_cons]
        obtain rfl | later := mem_cons.mp among
        · obtain rfl := Option.some.inj (held.symm.trans held')
          exact .inr (.inl rfl)
        · obtain old | new := all other later e' held'
          · obtain rfl | old := mem_cons.mp old
            · exact .inr (.inl rfl)
            · exact .inl old
          · exact .inr (.inr new)

/-! ### The entries of a plan -/

/-- The dictionary finds an entry of the expert, or there is none. -/
theorem opsByExpert_cases (infos : List (ℕ × List P2POp)) (eid : ℕ) :
    (∃ entry ∈ infos, entry.1 = eid ∧ opsByExpert infos eid = entry.2) ∨
      eid ∉ infos.map fst ∧ opsByExpert infos eid = [] := by
  unfold opsByExpert
  dsimp only
  have perm := mergeSort_perm infos fun a b => decide (a.1 ≤ b.1)
  cases last : ((infos.mergeSort fun a b => decide (a.1 ≤ b.1)).filter
      fun info => decide (info.1 = eid)).getLast? with
  | none =>
    rw [getLast?_eq_none_iff, filter_eq_nil_iff] at last
    refine .inr ⟨fun key => ?_, rfl⟩
    obtain ⟨entry, member, same⟩ := mem_map.mp key
    exact last entry (perm.mem_iff.mpr member) (decide_eq_true same)
  | some info =>
    have found := mem_filter.mp (mem_of_getLast? last)
    exact .inl ⟨info, perm.mem_iff.mp found.1, of_decide_eq_true found.2, rfl⟩

variable {infos : List (ℕ × List P2POp)} {entry : ℕ × List P2POp}

/-- With one entry for each expert the dictionary finds the entry. -/
theorem opsByExpert_of_mem (nodup : (infos.map fst).Nodup) (member : entry ∈ infos) :
    opsByExpert infos entry.1 = entry.2 := by
  obtain ⟨other, otherMem, same, ops⟩ | ⟨absent, -⟩ := opsByExpert_cases infos entry.1
  · rw [ops, inj_on_of_nodup_map nodup otherMem member same]
  · exact absurd (mem_map_of_mem member) absent

/-- The operations a rank has for an expert: it sends an expert it holds, receives one that
it only wants, and has no operation for any other. -/
structure Serves (layer : Relocation) (rank e : ℕ) (ops : List P2POp) : Prop where
  sends : layer.Holds rank e → ∃ src ∈ layer.localExpertLocations rank,
    layer.oldPhysicalToLogicalMap[src]? = some e ∧
      ∃ dstRanks, layer.allDstRanks rank e = some dstRanks ∧ ops = layer.sendOps src e dstRanks
  recvs : ¬layer.Holds rank e → layer.Wants rank e →
    ∃ dst ∈ layer.localExpertLocations rank, layer.newPhysicalToLogicalMap[dst]? = some e ∧
      layer.FirstWant rank dst e ∧
      ∃ holder, layer.Asks rank e holder ∧ ops = layer.recvOps dst e holder
  idle : ¬layer.Holds rank e → ¬layer.Wants rank e → ops = []

/-- A finished plan. -/
structure Planned {Value : Type} (layer : Relocation) (worldSize rank : ℕ)
    (weights tempBuffers : Slot → Value) (plan : RankPlan Value) : Prop where
  copies : plan.buffer2weightCopyInfos =
    (layer.localExpertLocations rank).filterMap (layer.copyEntry rank)
  buffers : ∀ dst ∈ layer.localExpertLocations rank, ∀ src,
    layer.sourceOf rank dst = some (.sameGpu src) → ∀ i < layer.numTensors,
      plan.tempBuffers (i, dst % layer.numLocalPhysicalExperts) =
        weights (i, src % layer.numLocalPhysicalExperts)
  unused : ∀ slot : Slot, (∀ dst ∈ layer.localExpertLocations rank, ∀ src,
    layer.sourceOf rank dst = some (.sameGpu src) →
      dst % layer.numLocalPhysicalExperts ≠ slot.2) → plan.tempBuffers slot = tempBuffers slot
  serves : ∀ e, layer.Serves rank e (opsByExpert plan.p2pOpInfos e)
  peers : ∀ entry ∈ plan.p2pOpInfos, ∀ op ∈ entry.2, op.peer < worldSize

/-- Locations are distinct. -/
theorem nodup_local (layer : Relocation) (rank : ℕ) : (layer.localExpertLocations rank).Nodup :=
  nodup_range'

/-- There is a first location of a rank that gets an expert the rank wants. -/
theorem exists_firstWant {e : ℕ} (wants : layer.Wants rank e) :
    ∃ dst ∈ layer.localExpertLocations rank, layer.newPhysicalToLogicalMap[dst]? = some e ∧
      layer.FirstWant rank dst e := by
  have some' : ∃ x, x ∈ layer.localExpertLocations rank ∧
      layer.newPhysicalToLogicalMap[x]? = some e := wants
  exact ⟨Nat.find some', (Nat.find_spec some').1, (Nat.find_spec some').2,
    fun x member less filled => Nat.find_min some' less ⟨member, filled⟩⟩

/-- An entry of receives is of a location that receives its expert. -/
theorem recvEntry_spec (valid : layer.Valid worldSize) {dst : ℕ}
    (member : dst ∈ layer.localExpertLocations rank)
    (found : layer.recvEntry rank dst = some entry) :
    layer.newPhysicalToLogicalMap[dst]? = some entry.1 ∧ layer.FirstWant rank dst entry.1 ∧
      ∃ holder, layer.Asks rank entry.1 holder ∧ entry.2 = layer.recvOps dst entry.1 holder := by
  obtain ⟨source, isSource, found⟩ := Option.bind_eq_some_iff.mp found
  obtain ⟨holder, isHolder, found⟩ := Option.bind_eq_some_iff.mp found
  obtain ⟨e, assigned, found⟩ := Option.bind_eq_some_iff.mp found
  cases found
  obtain ⟨source', isSource', justified⟩ := sourceOf_spec valid member assigned
  obtain rfl := Option.some.inj (isSource.symm.trans isSource')
  obtain ⟨first, asks⟩ := justified_of_holder justified isHolder
  exact ⟨assigned, first, holder, asks, rfl⟩

/-- A rank has a plan. -/
theorem createPlan_spec (valid : layer.Valid worldSize) (inWorld : rank < worldSize) {Value : Type}
    (weights tempBuffers : Slot → Value) :
    ∃ plan, layer.createPlan rank weights tempBuffers = some plan ∧
      layer.Planned worldSize rank weights tempBuffers plan := by
  obtain ⟨buffers, received, kept, copied⟩ := @handleRecv_foldlM layer worldSize valid rank Value
    weights (layer.localExpertLocations rank) inWorld (fun dst member => member)
    (layer.nodup_local rank) ⟨tempBuffers, [], []⟩
  obtain ⟨handled, entries, sent, sendKeys, -, sends, all⟩ := createIsendOps_foldlM valid inWorld
    (fun src member => member) []
    ([] ++ (layer.localExpertLocations rank).filterMap (layer.recvEntry rank))
  set recvs := (layer.localExpertLocations rank).filterMap (layer.recvEntry rank) with recvsEq
  have recvSpec : ∀ entry ∈ recvs, ∃ dst ∈ layer.localExpertLocations rank,
      layer.newPhysicalToLogicalMap[dst]? = some entry.1 ∧ layer.FirstWant rank dst entry.1 ∧
      ∃ holder, layer.Asks rank entry.1 holder ∧ entry.2 = layer.recvOps dst entry.1 holder := by
    intro entry among
    obtain ⟨dst, member, found⟩ := mem_filterMap.mp among
    exact ⟨dst, member, recvEntry_spec valid member found⟩
  have lacks : ∀ entry ∈ recvs, ¬layer.Holds rank entry.1 := by
    intro entry among
    obtain ⟨-, -, -, -, holder, asks, -⟩ := recvSpec entry among
    exact (asks.spec valid).1.2
  have holds : ∀ entry ∈ entries, layer.Holds rank entry.1 := by
    intro entry among
    obtain ⟨src, member, held, -⟩ := sends entry among
    exact ⟨src, member, held⟩
  have recvKeys : (recvs.map fst).Nodup := by
    rw [nodup_iff_pairwise_ne, pairwise_map, pairwise_filterMap]
    have order : (layer.localExpertLocations rank).Pairwise (· < ·) := pairwise_lt_range'
    refine order.imp_of_mem fun {x y} xMem yMem less one isOne other isOther same => ?_
    have filled := (recvEntry_spec valid xMem isOne).1
    exact (recvEntry_spec valid yMem isOther).2.1 x xMem less (same ▸ filled)
  have keys : ((recvs ++ entries).map fst).Nodup := by
    rw [map_append]
    refine nodup_append.mpr ⟨recvKeys, sendKeys, ?_⟩
    rintro e inRecvs e' inSends rfl
    obtain ⟨one, oneMem, rfl⟩ := mem_map.mp inRecvs
    obtain ⟨other, otherMem, same⟩ := mem_map.mp inSends
    exact lacks one oneMem (same ▸ holds other otherMem)
  refine ⟨{ tempBuffers := buffers
            buffer2weightCopyInfos :=
              [] ++ (layer.localExpertLocations rank).filterMap (layer.copyEntry rank)
            p2pOpInfos := [] ++ recvs ++ entries }, ?_, ?_⟩
  · unfold createPlan
    rw [guard, if_pos valid.gpus, received]
    change ((layer.localExpertLocations rank).foldlM (layer.createIsendOp rank)
      ([], [] ++ recvs)).bind _ = _
    rw [sent]
    rfl
  exact
    { copies := rfl
      buffers := copied
      unused := kept
      serves := fun e =>
        { sends := by
            rintro ⟨src, member, held⟩
            obtain none | key := all src member e held
            · exact absurd none not_mem_nil
            · obtain ⟨entry, among, rfl⟩ := mem_map.mp key
              obtain ⟨place, placeMem, placeHeld, dstRanks, chosen, ops⟩ := sends entry among
              refine ⟨place, placeMem, placeHeld, dstRanks, chosen, ?_⟩
              exact (opsByExpert_of_mem keys (mem_append_right _ among)).trans ops
          recvs without wants := by
            obtain ⟨dst, member, assigned, first⟩ := exists_firstWant wants
            obtain ⟨source, isSource, -⟩ := sourceOf_spec valid member assigned
            obtain ⟨holder, isHolder, asks⟩ :=
              holder_of_first valid member assigned without first isSource
            have among : (e, layer.recvOps dst e holder) ∈ recvs := by
              refine mem_filterMap.mpr ⟨dst, member, ?_⟩
              rw [recvEntry, isSource, Option.bind_eq_bind, Option.bind_some, isHolder,
                Option.bind_eq_bind, assigned]
              rfl
            exact ⟨dst, member, assigned, first, holder, asks,
              opsByExpert_of_mem keys (mem_append_left _ among)⟩
          idle without unwanted := by
            obtain ⟨entry, among, rfl, -⟩ | ⟨-, nothing⟩ := opsByExpert_cases (recvs ++ entries) e
            · obtain inRecvs | inSends := mem_append.mp among
              · obtain ⟨dst, member, assigned, -⟩ := recvSpec entry inRecvs
                exact absurd ⟨dst, member, assigned⟩ unwanted
              · exact absurd (holds entry inSends) without
            · exact nothing }
      peers entry among op opMem := by
        obtain inRecvs | inSends := mem_append.mp among
        · obtain ⟨dst, -, -, -, holder, asks, ops⟩ := recvSpec entry inRecvs
          rw [ops] at opMem
          obtain ⟨i, -, rfl⟩ := mem_map.mp opMem
          exact valid.rank_lt rfl (asks.spec valid).2
        · obtain ⟨src, member, held, dstRanks, chosen, ops⟩ := sends entry inSends
          rw [ops] at opMem
          obtain ⟨dstRank, dstMem, opMem⟩ := mem_flatMap.mp opMem
          obtain ⟨i, -, rfl⟩ := mem_map.mp opMem
          obtain ⟨dstRanks', chosen', -, iff⟩ := allDstRanks_spec valid ⟨src, member, held⟩
          obtain rfl := Option.some.inj (chosen.symm.trans chosen')
          have wants := (((iff dstRank).mp dstMem).spec valid).1.1
          exact valid.rank_lt (valid.new_length.trans valid.old_length.symm) wants }

/-- Nothing is filtered when all ranks are active. -/
theorem filterP2POps_of_active {activeRanks : Option (ℕ → Bool)}
    (active : ∀ isActive, activeRanks = some isActive → ∀ entry ∈ infos, ∀ op ∈ entry.2,
      isActive op.peer = true) : filterP2POps activeRanks infos = infos := by
  cases activeRanks with
  | none => rfl
  | some isActive =>
    have same : ∀ entry ∈ infos, filterEntry isActive entry = entry := by
      intro entry among
      have peers := active isActive rfl entry among
      unfold filterEntry
      split
      · rw [filter_eq_self.mpr peers]
      · split
        next both =>
          obtain ⟨op, opMem, inactive⟩ := any_eq_true.mp ((Bool.and_eq_true _ _).mp both).2
          rw [peers op opMem] at inactive
          cases inactive
        · rfl
    exact (map_congr_left same).trans (map_id'' (fun _ => rfl) infos)

end Relocation

end AvaServe.Eplb
