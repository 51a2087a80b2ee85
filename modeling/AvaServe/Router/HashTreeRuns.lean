import AvaServe.Foundation.Path
import AvaServe.Router.HashTreeInvariant

/-!
# Runs of the hash tree

Eviction, and what every sequence of calls keeps: the shape of the tree, and that
the workers listed for a hash are those whose last event about it was a store.
-/

namespace AvaServe.Router

open AvaServe.Foundation List

variable {state : TreeState} (wf : state.WellFormed) (order : Order)

namespace TreeState

/-! ### Eviction -/

/-- A node the scan for the oldest leaf may pick. -/
def Leaf (state : TreeState) (id : ℕ) : Prop := id ≠ rootId ∧ (state.node id).children.entries = []

/-- The scan finds an oldest leaf. -/
theorem foldl_oldest_spec (state : TreeState) (ids : List ℕ) (start : Option (ℕ × ℕ)) :
    ∀ oldest, ids.foldl
      (fun oldest id =>
        let node := state.node id
        if id = rootId ∨ node.children.entries ≠ [] then oldest
        else
          match oldest with
          | none => some (node.lastUsed, id)
          | some (cur, other) => if node.lastUsed < cur then some (node.lastUsed, id)
              else some (cur, other)) start = oldest →
      (oldest = none → start = none ∧ ∀ id ∈ ids, ¬state.Leaf id) ∧
      ∀ stamp id, oldest = some (stamp, id) →
        start = some (stamp, id) ∨ (id ∈ ids ∧ state.Leaf id) := by
  induction ids generalizing start with
  | nil =>
    rintro oldest rfl
    exact ⟨fun none => ⟨none, by simp⟩, fun stamp id same => .inl same⟩
  | cons id ids ih =>
    rintro oldest result
    obtain ⟨missing, found⟩ := ih _ oldest result
    by_cases skipped : id = rootId ∨ (state.node id).children.entries ≠ []
    · simp only [if_pos skipped] at missing found
      refine ⟨fun none => ?_, fun stamp victim same => ?_⟩
      · obtain ⟨startNone, rest⟩ := missing none
        refine ⟨startNone, forall_mem_cons.mpr ⟨fun leaf => ?_, rest⟩⟩
        exact skipped.elim leaf.1 fun children => children leaf.2
      · exact (found stamp victim same).imp_right fun inside => ⟨.tail _ inside.1, inside.2⟩
    · simp only [if_neg skipped] at missing found
      have leaf : state.Leaf id := by
        rw [not_or, not_not] at skipped
        exact skipped
      cases start with
      | none =>
        refine ⟨fun none => absurd (missing none).1 (by simp), fun stamp victim same => ?_⟩
        rcases found stamp victim same with here | later
        · cases here
          exact .inr ⟨.head _, leaf⟩
        · exact .inr ⟨.tail _ later.1, later.2⟩
      | some previous =>
        obtain ⟨cur, other⟩ := previous
        dsimp only at missing found
        by_cases older : (state.node id).lastUsed < cur
        · rw [if_pos older] at missing found
          refine ⟨fun none => absurd (missing none).1 (by simp), fun stamp victim same => ?_⟩
          rcases found stamp victim same with here | later
          · cases here
            exact .inr ⟨.head _, leaf⟩
          · exact .inr ⟨.tail _ later.1, later.2⟩
        · rw [if_neg older] at missing found
          refine ⟨fun none => absurd (missing none).1 (by simp), fun stamp victim same => ?_⟩
          exact (found stamp victim same).imp_right fun inside => ⟨.tail _ inside.1, inside.2⟩

/-- A tree with more than the root has a leaf to pick: its newest node. -/
theorem oldestLeaf_spec (shaped : Shaped state) (order : Order) (more : 1 < state.nodes.card) :
    ∃ stamp victim, state.oldestLeaf order = some (stamp, victim) ∧ victim ∈ state.nodes ∧
      state.Leaf victim := by
  obtain ⟨missing, found⟩ :=
    foldl_oldest_spec state (order.list state.nodes) none (state.oldestLeaf order) rfl
  cases result : state.oldestLeaf order with
  | some oldest =>
    obtain ⟨stamp, victim⟩ := oldest
    obtain impossible | ⟨listed, leaf⟩ := found stamp victim result
    · cases impossible
    · exact ⟨stamp, victim, rfl, (order.mem_iff _ _).mp listed, leaf⟩
  | none =>
    obtain ⟨-, noLeaf⟩ := missing result
    have nonempty : (state.nodes.erase rootId).Nonempty := by
      rw [← Finset.card_pos, Finset.card_erase_of_mem shaped.tree.root_mem]
      omega
    obtain ⟨newest, inside, largest⟩ := Finset.exists_max_image _ id nonempty
    obtain ⟨notRoot, member⟩ := Finset.mem_erase.mp inside
    refine absurd ⟨notRoot, childless_iff.mpr fun h => ?_⟩
      (noLeaf newest ((order.mem_iff _ _).mpr member))
    cases child : state.links.child newest h with
    | none => rfl
    | some below =>
      obtain ⟨belowMem, -, -, belowNe, higher⟩ := shaped.tree.of_child member child
      have := largest below (Finset.mem_erase.mpr ⟨belowNe, belowMem⟩)
      exact absurd higher (not_lt.mpr this)

include wf in
/-- The loop gets below the size. -/
theorem evictLoop_spec (maxSize rounds : ℕ) (enough : state.nodeCount ≤ maxSize + rounds) :
    WellFormed (evictLoop order maxSize rounds state) ∧
      (evictLoop order maxSize rounds state).nodes ⊆ state.nodes ∧
      (evictLoop order maxSize rounds state).nodeCount ≤ maxSize := by
  induction rounds generalizing state with
  | zero => exact ⟨wf, Finset.Subset.refl _, enough⟩
  | succ rounds ih =>
    rw [evictLoop]
    split
    next small => exact ⟨wf, Finset.Subset.refl _, small⟩
    next large =>
      have more : 1 < state.nodes.card := by
        unfold nodeCount at large
        omega
      obtain ⟨stamp, victim, picked, member, notRoot, childless⟩ :=
        oldestLeaf_spec wf.toShaped order more
      simp only [picked, get_of_mem member]
      set cleared := state.modify victim fun node => { node with workers := ∅ } with isCleared
      have shaped : Shaped cleared := wf.toShaped.modify sameLinks_clearWorkers victim
      have bare : cleared.Bare victim := by
        refine ⟨member, notRoot, Node.bare_iff.mpr ⟨by simp [isCleared], ?_⟩⟩
        rw [modify_field Node.children fun _ => by rfl, childless]
      have pruned := pruneCascade_spec shaped bare
      have wf' : WellFormed (cleared.pruneCascade victim) := by
        refine ⟨pruned.shaped, fun other stillBare => ?_⟩
        refine wf.occupied other (bare_of_modify (pruned.bare other stillBare) ?_)
        rintro rfl
        exact pruned.gone stillBare.1
      have smaller : (cleared.pruneCascade victim).nodes ⊂ state.nodes :=
        (Finset.ssubset_iff_of_subset pruned.keeps.nodes).mpr ⟨victim, member, pruned.gone⟩
      have fewer := Finset.card_lt_card smaller
      obtain ⟨wf'', subset, small⟩ := ih wf' (by unfold nodeCount at enough ⊢; omega)
      exact ⟨wf'', subset.trans smaller.subset, small⟩

include wf in
/-- Eviction counts what it removes. -/
theorem evictLru_spec (maxSize : ℕ) : WellFormed (state.evictLru order maxSize).2 ∧
      (state.evictLru order maxSize).2.nodes ⊆ state.nodes ∧
      (state.evictLru order maxSize).2.nodeCount ≤ maxSize ∧
      (state.evictLru order maxSize).1 =
        (state.nodes \ (state.evictLru order maxSize).2.nodes).card := by
  unfold evictLru
  split
  next small => exact ⟨wf, Finset.Subset.refl _, small, by simp⟩
  next =>
    have noEmptyLeaves : ((order.list state.nodes).filter fun id =>
        id ≠ rootId ∧ (state.node id).bare) = [] := by
      refine filter_eq_nil_iff.mpr fun id listed bare => ?_
      simp only [decide_eq_true_eq] at bare
      exact wf.occupied id ⟨(order.mem_iff _ _).mp listed, bare.1, bare.2⟩
    simp only [noEmptyLeaves]
    obtain ⟨wf', subset, small⟩ := evictLoop_spec wf order maxSize (state.nodes.card + 1)
      (by unfold nodeCount; omega)
    exact ⟨wf', subset, small, (Finset.card_sdiff_of_subset subset).symm⟩

/-! ### Runs -/

include wf in
/-- Every call keeps the tree well formed. -/
theorem apply_wellFormed (call : TreeCall) : WellFormed (state.apply call) := by
  cases call with
  | insert order now worker parentHash blockHashes =>
    exact (insert_spec wf order now worker parentHash blockHashes).1
  | remove order worker blockHashes => exact (remove_spec wf order worker blockHashes).1
  | clearWorker order worker => exact (clearWorker_spec wf order worker).1
  | evictLru order maxSize => exact (evictLru_spec wf order maxSize).1

end TreeState

/-- Whether a call is an event of a worker that touches a hash, and if so whether it
stores it. -/
def TreeCall.touches (call : TreeCall) (worker : KvWorkerId) (h : Int64) : Option Bool :=
  match call with
  | .insert _ _ w _ blockHashes => if w = worker ∧ h ∈ blockHashes then some true else none
  | .remove _ w blockHashes => if w = worker ∧ h ∈ blockHashes then some false else none
  | .clearWorker _ w => if w = worker then some false else none
  | .evictLru _ _ => none

/-- The last event of a worker that touched a hash: `true` for a store. -/
def lastTouch (calls : List TreeCall) (worker : KvWorkerId) (h : Int64) : Option Bool :=
  (calls.filterMap fun call => call.touches worker h).getLast?

/-- The call evicts. -/
def TreeCall.evicts : TreeCall → Bool
  | .evictLru _ _ => true
  | _ => false

/-- The last call that touches the hash. -/
theorem lastTouch_append (calls : List TreeCall) (call : TreeCall) (worker : KvWorkerId)
    (h : Int64) :
    lastTouch (calls ++ [call]) worker h =
      (call.touches worker h).or (lastTouch calls worker h) := by
  unfold lastTouch
  cases touched : call.touches worker h <;> simp [touched]

namespace TreeState

include wf in
/-- One call changes who is listed for a hash exactly as the event says. -/
theorem holds_apply_iff {call : TreeCall} (keeps : call.evicts = false) (worker : KvWorkerId)
    (h : Int64) : (state.apply call).Holds worker h ↔ match call.touches worker h with
      | some stored => stored = true
      | none => state.Holds worker h := by
  cases call with
  | insert order now w parentHash blockHashes =>
    rw [apply, (insert_spec wf order now w parentHash blockHashes).2, TreeCall.touches]
    split_ifs with touched
    · tauto
    · tauto
  | remove order w blockHashes =>
    rw [apply, holds_remove_iff wf, TreeCall.touches]
    split_ifs with touched
    · tauto
    · tauto
  | clearWorker order w =>
    rw [apply, holds_clearWorker_iff wf, TreeCall.touches]
    split_ifs with touched
    · tauto
    · tauto
  | evictLru order maxSize => cases keeps

include wf in
/-- An insert leaves the root's workers. -/
theorem insertLoop_rootWorkers {current : ℕ} (member : current ∈ state.nodes) (now : ℕ)
    (worker : KvWorkerId) (prevHash : Option Int64) (blockHashes : List Int64) :
    ((insertLoop now worker state current prevHash blockHashes).node rootId).workers =
      (state.node rootId).workers := by
  induction blockHashes generalizing state current prevHash with
  | nil => rfl
  | cons h blockHashes ih =>
    obtain ⟨after, child, visited, rest⟩ :=
      insertLoop_cons wf member now worker prevHash h blockHashes
    rw [rest, ih visited.wellFormed visited.child_mem,
      visited.workers rootId visited.wellFormed.tree.root_mem, if_pos wf.tree.root_mem,
      if_neg visited.child_ne.symm, Finset.union_empty]

variable (now : ℕ)

include wf in
/-- The events of a worker never list it at the root. -/
theorem apply_rootWorkers (worker : KvWorkerId) (event : KvCacheEvent) :
    ((state.apply (event.call order now worker)).node rootId).workers =
      (state.node rootId).workers := by
  have root := (apply_wellFormed wf (event.call order now worker)).tree.root_mem
  cases event with
  | blockStored parentBlockHash blockHashes =>
    simp only [KvCacheEvent.call, apply, insert]
    split
    · rfl
    · exact insertLoop_rootWorkers wf (resolveParent_mem wf.toShaped order worker _) now worker
        _ _
  | blockRemoved blockHashes =>
    rw [KvCacheEvent.call, apply, (remove_spec wf order worker blockHashes).2.workers _ root,
      if_neg (fun target => target.2.1 rfl)]
  | allBlocksCleared =>
    rw [KvCacheEvent.call, apply, (clearWorker_spec wf order worker).2.workers _ root,
      if_neg (fun target => target.2 rfl)]

/-- The tree after a sequence of calls. -/
def run (now : ℕ) (calls : List TreeCall) : TreeState := calls.foldl apply (new now)

variable (calls : List TreeCall)

/-- Every run is well formed. -/
theorem run_wellFormed : WellFormed (run now calls) :=
  foldlRecOn calls apply (wellFormed_new now) fun _ wf call _ => apply_wellFormed wf call

/-- Without eviction the last touch decides. -/
theorem run_holds_iff (keeps : ∀ call ∈ calls, call.evicts = false) (worker : KvWorkerId)
    (h : Int64) : (run now calls).Holds worker h ↔ lastTouch calls worker h = some true := by
  induction calls using reverseRecOn with
  | nil =>
    constructor
    · rintro ⟨id, inside, notRoot, -⟩
      exact absurd (Finset.mem_singleton.mp inside) notRoot
    · intro none
      cases none
  | append_singleton calls call ih =>
    obtain ⟨before, last⟩ := forall_mem_append.mp keeps
    have same : run now (calls ++ [call]) = (run now calls).apply call := by
      rw [run, foldl_append]
      rfl
    rw [same, holds_apply_iff (run_wellFormed now calls) (last call (.head _)), lastTouch_append]
    cases touched : call.touches worker h with
    | some stored => simp
    | none => exact ih before

/-- After every sequence of calls: parent and child pointers agree, the reverse
index is exact, no node but the root is without both workers and children, a worker
is listed for a hash exactly when its last event about it was a store (if nothing
was evicted), and eviction brings the node count under its bound and returns the
number of nodes it removed. -/
theorem run_consistent (now : ℕ) (calls : List TreeCall) :
    ((run now calls).links.parent rootId = none ∧ (∀ id ∈ (run now calls).nodes, id ≠ rootId →
        ∃ above ∈ (run now calls).nodes, ((run now calls).node id).parent = some above ∧
          ((run now calls).node above).children.lookup ((run now calls).node id).blockHash =
            some id) ∧
      (∀ id ∈ (run now calls).nodes, ∀ h below,
        ((run now calls).node id).children.lookup h = some below →
        below ∈ (run now calls).nodes ∧ ((run now calls).node below).parent = some id ∧
          ((run now calls).node below).blockHash = h)) ∧
    (∀ h, ((run now calls).byHash h).getD ∅ = (run now calls).nodes.filter fun id =>
        id ≠ rootId ∧ ((run now calls).node id).blockHash = h) ∧
    (∀ id ∈ (run now calls).nodes, id ≠ rootId → ((run now calls).node id).workers ≠ ∅ ∨
        ∃ h below, ((run now calls).node id).children.lookup h = some below) ∧
    ((∀ call ∈ calls, call.evicts = false) → ∀ worker h,
      (∃ id ∈ (run now calls).nodes, id ≠ rootId ∧ ((run now calls).node id).blockHash = h ∧
        worker ∈ ((run now calls).node id).workers) ↔ lastTouch calls worker h = some true) ∧
    (∀ order maxSize, ((run now calls).evictLru order maxSize).2.nodeCount ≤ maxSize ∧
        ((run now calls).evictLru order maxSize).2.nodes ⊆ (run now calls).nodes ∧
        ((run now calls).evictLru order maxSize).1 =
          ((run now calls).nodes \ ((run now calls).evictLru order maxSize).2.nodes).card) := by
  have wf := run_wellFormed now calls
  refine ⟨⟨wf.tree.root_parent, ?_, ?_⟩, ?_, ?_, ?_, ?_⟩
  · intro id member notRoot
    obtain ⟨above, aboveMem, parent, -⟩ := wf.tree.parent_mem id member notRoot
    exact ⟨above, aboveMem, parent, wf.tree.child_of_parent member parent⟩
  · intro id member h below found
    obtain ⟨belowMem, parent, label, -⟩ := wf.tree.of_child member found
    exact ⟨belowMem, parent, label⟩
  · intro h
    ext id
    rw [wf.index, Finset.mem_filter]
  · intro id member notRoot
    by_contra neither
    rw [not_or, not_not] at neither
    refine wf.occupied id ⟨member, notRoot, Node.bare_iff.mpr ⟨neither.1, ?_⟩⟩
    refine childless_iff.mpr fun h => ?_
    cases found : (run now calls).links.child id h with
    | none => rfl
    | some below => exact absurd ⟨h, below, found⟩ neither.2
  · exact fun keeps worker h => run_holds_iff now calls keeps worker h
  · intro order maxSize
    obtain ⟨-, subset, small, count⟩ := evictLru_spec wf order maxSize
    exact ⟨small, subset, count⟩

/-- One worker stores two blocks and drops the second: the first is still listed for
it and the second is not. -/
theorem run_consistent_two_blocks : let worker : KvWorkerId := ⟨"w", 0⟩
    let state := run 0 [.insert .increasing 1 worker none [7, 8], .remove .increasing worker [8]]
    (∃ id ∈ state.nodes, id ≠ rootId ∧ (state.node id).blockHash = 7 ∧
        worker ∈ (state.node id).workers) ∧
      ¬∃ id ∈ state.nodes, id ≠ rootId ∧ (state.node id).blockHash = 8 ∧
        worker ∈ (state.node id).workers := by
  intro worker state
  have listed := (run_consistent 0 [.insert .increasing 1 worker none [7, 8],
    .remove .increasing worker [8]]).2.2.2.1 (by simp [TreeCall.evicts]) worker
  exact ⟨(listed 7).mpr (by decide), fun still => absurd ((listed 8).mp still) (by decide)⟩

end TreeState

end AvaServe.Router
