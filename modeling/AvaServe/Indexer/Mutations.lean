import AvaServe.Indexer.BridgeParts

/-!
# Indexer mutations

Applying a batch is applying its mutations one by one, except that a report of a hash
which the same action reports again is dropped.
-/

namespace AvaServe.Indexer

open Foundation List Finmap

/-- One mutation of the index. -/
inductive Mutation
  | report (tier : Int32) (report : Report)
  | revoke (tier : Int32) (hash : Int64)
  | clearAt (tier : Int32)
  deriving DecidableEq

namespace State

/-- Apply one mutation of a worker. -/
def mutate (order : Listing Int64) (workerId : String) (state : State) : Mutation → State
  | .report tier report => state.reportOne workerId tier report
  | .revoke tier hash => state.revokeOne workerId tier hash
  | .clearAt tier => (order.list (state.held workerId tier)).foldl (revokeOne workerId tier) state

end State

namespace ExternalKvAction

/-- The mutations of an action. -/
def mutations (action : ExternalKvAction) : List Mutation :=
  match ExternalKvActionType.tryFrom action.type with
  | some .actionReport => action.reports.map (.report action.tier)
  | some .actionRevoke => action.hashes.map (.revoke action.tier)
  | some .actionClearAllAtTier => [.clearAt action.tier]
  | some .actionUnknown | none => []

/-- The mutations that applying an action carries out: of the reports of a hash the last. -/
def applied (action : ExternalKvAction) : List Mutation :=
  match ExternalKvActionType.tryFrom action.type with
  | some .actionReport => (lastWrites action.reports).map (.report action.tier)
  | _ => action.mutations

end ExternalKvAction

namespace State

/-! ### Reports of different hashes commute -/

/-- Reports of different hashes commute. -/
theorem reportOne_comm (workerId : String) (tier : Int32) :
    WritesCommute (reportOne workerId tier) := by
  intro state hash value other value' different
  have leftBlock : (reportOne workerId tier state (hash, value)).block other =
      state.block other := by
    simp [State.block, reportOne, lookup_insert_of_ne _ different.symm]
  have rightBlock : (reportOne workerId tier state (other, value')).block hash =
      state.block hash := by
    simp [State.block, reportOne, lookup_insert_of_ne _ different]
  refine State.ext ?_ ?_ rfl
  · conv_lhs => rw [reportOne]
    conv_rhs => rw [reportOne]
    simp only [leftBlock, rightBlock]
    exact (insert_insert_of_ne _ different)
  · simp [reportOne, State.worker, Finset.insert_comm hash other]

/-- A later report of the same hash leaves nothing of an earlier one, unless only the earlier
one has a token count. -/
theorem reportOne_absorb (workerId : String) (tier : Int32) (state : State) (hash : Int64)
    {first last : UInt32 × UInt32} (sized : first.2 ≠ 0 → last.2 ≠ 0) :
    reportOne workerId tier (reportOne workerId tier state (hash, first)) (hash, last) =
      reportOne workerId tier state (hash, last) := by
  refine State.ext ?_ ?_ rfl
  · by_cases known : last.2 = 0
    · have unknown : first.2 = 0 := not_not.mp fun nonzero => sized nonzero known
      simp [reportOne, State.block, known, unknown]
    · simp [reportOne, State.block, UInt32.pos_iff_ne_zero.mpr known]
  · simp [reportOne, State.worker]

variable (order : Listing Int64)

/-- Applying an action carries out its mutations but for the repeated reports. -/
theorem applyAction_eq (workerId : String) (state : State) {action : ExternalKvAction}
    (formed : action.Formed) : state.applyAction order workerId action =
      some (action.applied.foldl (mutate order workerId) state) := by
  unfold applyAction ExternalKvAction.applied ExternalKvAction.mutations
  rcases formed.type with ⟨type, -⟩ | ⟨type, -⟩ | ⟨type, -⟩
  · simp only [type, ExternalKvActionType.tryFrom_code, Option.some.injEq]
    rw [foldGathered_eq (reportOne_comm workerId action.tier), foldl_map]
    rfl
  · simp only [type, ExternalKvActionType.tryFrom_code]
    rw [foldl_map]
    rfl
  · simp only [type]
    rfl

/-- Applying the actions of a batch. -/
theorem applyActions_eq (workerId : String) (state : State) {actions : List ExternalKvAction}
    (formed : ∀ action ∈ actions, action.Formed) : (state.applyActions order workerId actions).2 =
      (actions.flatMap ExternalKvAction.applied).foldl (mutate order workerId) state := by
  induction actions generalizing state with
  | nil => rfl
  | cons action actions ih =>
    obtain ⟨head, tail⟩ := forall_mem_cons.mp formed
    rw [applyActions, applyAction_eq order workerId state head]
    rw [ih _ tail, flatMap_cons, foldl_append]

/-! ### The worker's address and spec -/

section Touch

variable (order : Listing Int64) (workerId address : String) (spec : Option WorkerCacheSpec)
  (state : State)

/-- Recording the address again changes nothing. -/
theorem touch_touch : (state.touch workerId address spec).touch workerId address spec =
      state.touch workerId address spec := by
  simp [touch, State.worker]

/-- The address and the spec are not part of the holdings. -/
theorem dropHolding_touched (worker : WorkerRecord) (tier : Int32) (hash : Int64) :
    dropHolding { worker with address := address, spec := spec } tier hash =
      { dropHolding worker tier hash with address := address, spec := spec } := by
  unfold dropHolding
  cases worker.holdings.lookup tier <;> rfl

/-- The address may be recorded after a revoke. -/
theorem touch_revokeOne (tier : Int32) (state : State) (hash : Int64) :
    (revokeOne workerId tier state hash).touch workerId address spec =
      revokeOne workerId tier (state.touch workerId address spec) hash := by
  refine State.ext ?_ ?_ ?_
  · rw [blocks_revokeOne]
    exact blocks_revokeOne state workerId tier hash
  · rw [workers_revokeOne]
    have touched : (state.touch workerId address spec).workers.lookup workerId =
        some { state.worker workerId with address := address, spec := spec } :=
      lookup_insert _
    rw [touched]
    dsimp only
    rw [dropHolding_touched, touch, touch, insert_insert]
    unfold State.worker
    rw [workers_revokeOne]
    cases known : state.workers.lookup workerId with
    | none =>
      rw [known]
      rfl
    | some worker =>
      rw [lookup_insert, insert_insert]
      rfl
  · rw [hitCounts_revokeOne]
    exact hitCounts_revokeOne workerId tier state hash

/-- The address may be recorded after a mutation. -/
theorem touch_mutate (mutation : Mutation) :
    (state.mutate order workerId mutation).touch workerId address spec =
      (state.touch workerId address spec).mutate order workerId mutation := by
  cases mutation with
  | report tier report =>
    refine State.ext rfl ?_ rfl
    simp [mutate, touch, reportOne, State.worker]
  | revoke tier hash => exact touch_revokeOne workerId address spec tier state hash
  | clearAt tier =>
    simp only [mutate, held_touch]
    exact (foldl_hom (touch · workerId address spec) fun state hash =>
      (touch_revokeOne workerId address spec tier state hash).symm).symm

/-- The address may be recorded after all of them. -/
theorem touch_foldl_mutate (mutations : List Mutation) (state : State) :
    (mutations.foldl (mutate order workerId) state).touch workerId address spec =
      mutations.foldl (mutate order workerId) (state.touch workerId address spec) := by
  exact (foldl_hom (touch · workerId address spec) fun state mutation =>
    (touch_mutate _ _ _ _ state mutation).symm).symm

/-- Batches that each record the address first do so once. -/
theorem foldl_batches (batches : List (List Mutation)) (state : State) :
    batches.foldl (fun state batch =>
      batch.foldl (mutate order workerId) (state.touch workerId address spec)) state =
      if batches = [] then state
      else batches.flatten.foldl (mutate order workerId) (state.touch workerId address spec) := by
  induction batches generalizing state with
  | nil => rfl
  | cons batch batches ih =>
    rw [foldl_cons, ih, flatten_cons, foldl_append, touch_foldl_mutate, touch_touch]
    split
    next empty =>
      rw [empty]
      rfl
    next => rfl

end Touch

end State

end AvaServe.Indexer
