import AvaServe.Foundation.CoalescedWrites

/-!
# The in-memory KV indexer backend

`InMemoryKvIndexerBackend`: which worker holds which block at which tier, with the
reverse index each worker keeps of its holdings. An apply batch reports blocks,
revokes them, and clears a tier; a match may count hits.

Hash maps and sets are walked in an order the source does not fix; a `Listing` stands
for any such order.
-/

namespace AvaServe.Indexer

open AvaServe.Foundation List Option
open Finmap (lookup_insert_of_ne lookup_erase lookup_empty lookup_erase_ne lookup_insert
  notMem_empty mem_insert mem_erase)

/-- `WorkerCacheSpec`. -/
structure WorkerCacheSpec where
  version : UInt32
  components : UInt32
  swaWindowTokens : UInt32
  fullTierMask : UInt32
  swaTierMask : UInt32
  mambaTierMask : UInt32
  deriving DecidableEq, Repr

/-- `ExternalKvActionType`. -/
inductive ExternalKvActionType
  | actionUnknown
  | actionReport
  | actionRevoke
  | actionClearAllAtTier
  deriving DecidableEq, Repr

namespace ExternalKvActionType

/-- The wire code of an action type. -/
def code : ExternalKvActionType → Int32
  | .actionUnknown => 0
  | .actionReport => 1
  | .actionRevoke => 2
  | .actionClearAllAtTier => 3

/-- `ExternalKvActionType::try_from`. -/
def tryFrom (code : Int32) : Option ExternalKvActionType :=
  if code = 0 then some .actionUnknown
  else if code = 1 then some .actionReport
  else if code = 2 then some .actionRevoke
  else if code = 3 then some .actionClearAllAtTier
  else none

/-- A code is read back. -/
@[simp] theorem tryFrom_code (type : ExternalKvActionType) : tryFrom type.code = some type := by
  cases type <;> rfl

end ExternalKvActionType

/-- `ExternalKvAction`. -/
structure ExternalKvAction where
  type : Int32
  tier : Int32
  hashes : List Int64
  componentMasks : List UInt32
  blockSizes : List UInt32
  deriving DecidableEq, Repr

/-- `ApplyExternalKvBatchRequest`. -/
structure ApplyExternalKvBatchRequest where
  workerId : String
  seq : UInt64
  actions : List ExternalKvAction
  workerAddress : String
  cacheSpec : Option WorkerCacheSpec
  deriving DecidableEq, Repr

/-- A gRPC `Status` with its message. -/
inductive Status
  | invalidArgument (message : String)
  | resourceExhausted (message : String)
  deriving DecidableEq, Repr

/-- `BlockRecord`. -/
structure BlockRecord where
  tokenCount : UInt32 := 0
  placements : Finmap (fun _ : String × Int32 => UInt32) := ∅
  deriving DecidableEq

/-- `WorkerRecord`. -/
structure WorkerRecord where
  address : String := ""
  spec : Option WorkerCacheSpec := none
  holdings : Finmap (fun _ : Int32 => Finset Int64) := ∅
  deriving DecidableEq

/-- `State`. -/
@[ext] structure State where
  blocks : Finmap (fun _ : Int64 => BlockRecord) := ∅
  workers : Finmap (fun _ : String => WorkerRecord) := ∅
  hitCounts : Finmap (fun _ : Int64 => UInt64) := ∅
  deriving DecidableEq

/-- A report of one hash, with its component mask and token count. -/
abbrev Report := Int64 × (UInt32 × UInt32)

namespace ExternalKvAction

/-- The reports of an action, with what the side arrays give for each hash. -/
def reports (action : ExternalKvAction) : List Report :=
  action.hashes.zipIdx.map fun (hash, index) =>
    (hash, (if action.componentMasks.isEmpty then 0 else action.componentMasks.getD index 0,
        if action.blockSizes.isEmpty then 0 else action.blockSizes.getD index 0))

end ExternalKvAction

namespace State

/-- The record of a hash, or a fresh one. -/
def block (state : State) (hash : Int64) : BlockRecord := (state.blocks.lookup hash).getD {}

/-- The record of a worker, or a fresh one. -/
def worker (state : State) (workerId : String) : WorkerRecord :=
  (state.workers.lookup workerId).getD {}

/-- The hashes a worker holds at a tier. -/
def held (state : State) (workerId : String) (tier : Int32) : Finset Int64 :=
  ((state.worker workerId).holdings.lookup tier).getD ∅

/-- The placements of a hash. -/
def placements (state : State) (hash : Int64) : Finmap (fun _ : String × Int32 => UInt32) :=
  (state.block hash).placements

/-- The first step of `apply`: the address and the spec of every batch are kept. -/
def touch (state : State) (workerId address : String) (spec : Option WorkerCacheSpec) : State :=
  { state with
    workers := state.workers.insert workerId
      { state.worker workerId with address := address, spec := spec } }

/-- One gathered report of `apply`. -/
def reportOne (workerId : String) (tier : Int32) (state : State) (report : Report) : State :=
  let (hash, mask, tokenCount) := report
  let block := state.block hash
  let worker := state.worker workerId
  { state with
    blocks := state.blocks.insert hash
      { tokenCount := if 0 < tokenCount then tokenCount else block.tokenCount
        placements := block.placements.insert (workerId, tier) mask }
    workers := state.workers.insert workerId
      { worker with
        holdings := worker.holdings.insert tier
          (insert hash ((worker.holdings.lookup tier).getD ∅)) } }

/-- `holdings` of a worker without one hash at a tier. -/
def dropHolding (worker : WorkerRecord) (tier : Int32) (hash : Int64) : WorkerRecord :=
  match worker.holdings.lookup tier with
  | none => worker
  | some hashes =>
    { worker with
      holdings :=
        if hashes.erase hash = ∅ then worker.holdings.erase tier
        else worker.holdings.insert tier (hashes.erase hash) }

/-- `revoke_one`. -/
def revokeOne (workerId : String) (tier : Int32) (state : State) (hash : Int64) : State :=
  let dropped : State :=
    { state with
      workers :=
        match state.workers.lookup workerId with
        | none => state.workers
        | some worker => state.workers.insert workerId (dropHolding worker tier hash) }
  match state.blocks.lookup hash with
  | none => dropped
  | some block =>
    let placements := block.placements.erase (workerId, tier)
    if placements = ∅ then
      { dropped with
        blocks := state.blocks.erase hash
        hitCounts := state.hitCounts.erase hash }
    else
      { dropped with
        blocks := state.blocks.insert hash { block with placements := placements } }

/-- One action of `apply`; `none` for an unsupported type. -/
def applyAction (order : Listing Int64) (workerId : String) (state : State)
    (action : ExternalKvAction) : Option State :=
  match ExternalKvActionType.tryFrom action.type with
  | some .actionReport =>
    some (foldGathered (reportOne workerId action.tier) order (gather action.reports) state)
  | some .actionRevoke => some (action.hashes.foldl (revokeOne workerId action.tier) state)
  | some .actionClearAllAtTier =>
    some ((order.list (state.held workerId action.tier)).foldl (revokeOne workerId action.tier)
      state)
  | some .actionUnknown | none => none

/-- The action loop of `apply`; what an unsupported action follows stays applied. -/
def applyActions (order : Listing Int64) (workerId : String) :
    State → List ExternalKvAction → Except Status Unit × State
  | state, [] => (.ok (), state)
  | state, action :: actions =>
    match state.applyAction order workerId action with
    | none => (.error (.invalidArgument "unsupported action type"), state)
    | some next => applyActions order workerId next actions

/-- `apply`. -/
def apply (order : Listing Int64) (state : State) (req : ApplyExternalKvBatchRequest) :
    Except Status Unit × State :=
  applyActions order req.workerId (state.touch req.workerId req.workerAddress req.cacheSpec)
    req.actions

/-- `dedup_preserve_order`. -/
def dedupPreserveOrder (hashes : List Int64) : List Int64 := hashes.eraseDups

/-- A hit on one recorded hash. -/
def countHit (state : State) (hash : Int64) : State :=
  let count := (state.hitCounts.lookup hash).getD 0
  { state with
    hitCounts := state.hitCounts.insert hash
      (if count = UInt64.ofNat (UInt64.size - 1) then count else count + 1) }

/-- What `do_match` with `count_as_hit` leaves. -/
def countHits (state : State) (hashes : List Int64) : State :=
  ((dedupPreserveOrder hashes).filter fun hash => state.placements hash ≠ ∅).foldl countHit state

end State

/-! ### What one mutation changes -/

namespace State

variable (state : State) (workerId : String) (tier : Int32) (report : Report)

/-- A report adds its placement. -/
theorem placements_reportOne (hash : Int64) :
    (reportOne workerId tier state report).placements hash =
      if hash = report.1 then (state.placements hash).insert (workerId, tier) report.2.1
      else state.placements hash := by
  by_cases same : hash = report.1
  · subst same
    simp [placements, State.block, reportOne]
  · simp [placements, State.block, reportOne, same]

/-- The worker holds the hash. -/
theorem held_reportOne (workerId' : String) (tier' : Int32) :
    (reportOne workerId tier state report).held workerId' tier' =
      if workerId' = workerId ∧ tier' = tier then insert report.1 (state.held workerId tier)
      else state.held workerId' tier' := by
  by_cases sameWorker : workerId' = workerId
  · subst sameWorker
    by_cases sameTier : tier' = tier
    · subst sameTier
      simp [held, State.worker, reportOne]
    · simp [held, State.worker, reportOne, sameTier]
  · simp [held, State.worker, reportOne, sameWorker]

variable (hash : Int64)

/-- The blocks after a revocation. -/
theorem blocks_revokeOne : (revokeOne workerId tier state hash).blocks =
      match state.blocks.lookup hash with
      | none => state.blocks
      | some block =>
        if block.placements.erase (workerId, tier) = ∅ then state.blocks.erase hash
        else state.blocks.insert hash
          { block with placements := block.placements.erase (workerId, tier) } := by
  unfold revokeOne
  cases state.blocks.lookup hash with
  | none => rfl
  | some block =>
    dsimp only
    split <;> rfl

/-- The workers after it. -/
theorem workers_revokeOne : (revokeOne workerId tier state hash).workers =
      match state.workers.lookup workerId with
      | none => state.workers
      | some worker => state.workers.insert workerId (dropHolding worker tier hash) := by
  unfold revokeOne
  cases state.blocks.lookup hash with
  | none => rfl
  | some block =>
    dsimp only
    split <;> rfl

/-- Nothing to erase. -/
theorem erase_empty_placements :
    (∅ : Finmap fun _ : String × Int32 => UInt32).erase (workerId, tier) = ∅ :=
  Finmap.ext_lookup fun key => by
    by_cases same : key = (workerId, tier)
    · rw [same, lookup_erase, lookup_empty]
    · rw [lookup_erase_ne same]

/-- A record that is kept with a new value or given up. -/
theorem lookup_shrink {κ ν : Type*} [DecidableEq κ] (map : Finmap fun _ : κ => ν) (key other : κ)
    (value : ν) (gone : Prop) [Decidable gone] :
    (if gone then map.erase key else map.insert key value).lookup other =
      if other = key then if gone then none else some value else map.lookup other := by
  by_cases same : other = key
  · subst same
    split <;> simp [*]
  · split <;> simp [same]

/-- What a revocation leaves of the record of a hash. -/
theorem lookup_revokeOne (other : Int64) :
    (revokeOne workerId tier state hash).blocks.lookup other = if other = hash then
      (state.blocks.lookup hash).bind fun block =>
        if block.placements.erase (workerId, tier) = ∅ then none
        else some { block with placements := block.placements.erase (workerId, tier) }
      else state.blocks.lookup other := by
  rw [blocks_revokeOne]
  cases found : state.blocks.lookup hash with
  | none =>
    dsimp only
    split
    next same => exact same ▸ found
    next => rfl
  | some block => exact lookup_shrink ..

/-- A revocation erases its placement. -/
theorem placements_revokeOne (other : Int64) :
    (revokeOne workerId tier state hash).placements other =
      if other = hash then (state.placements other).erase (workerId, tier)
      else state.placements other := by
  unfold placements State.block
  rw [lookup_revokeOne]
  split
  next same =>
    rw [same]
    cases state.blocks.lookup hash with
    | none => exact (erase_empty_placements workerId tier).symm
    | some block =>
      rw [bind_some, getD_some]
      split
      next gone => exact gone.symm
      next => rfl
  next => rfl

/-- The holdings without a hash. -/
theorem lookup_dropHolding (worker : WorkerRecord) (hash : Int64) (tier' : Int32) :
    (dropHolding worker tier hash).holdings.lookup tier' = if tier' = tier then
      (worker.holdings.lookup tier).bind fun hashes =>
        if hashes.erase hash = ∅ then none else some (hashes.erase hash)
      else worker.holdings.lookup tier' := by
  unfold dropHolding
  cases found : worker.holdings.lookup tier with
  | none =>
    dsimp only
    split
    next same => exact same ▸ found
    next => rfl
  | some hashes => exact lookup_shrink ..

/-- The worker no longer holds it. -/
theorem held_revokeOne (workerId' : String) (tier' : Int32) :
    (revokeOne workerId tier state hash).held workerId' tier' =
      if workerId' = workerId ∧ tier' = tier then (state.held workerId tier).erase hash
      else state.held workerId' tier' := by
  unfold held State.worker
  rw [workers_revokeOne]
  cases found : state.workers.lookup workerId with
  | none =>
    dsimp only
    split
    next same =>
      obtain ⟨rfl, rfl⟩ := same
      rw [found, getD_none, lookup_empty, getD_none, Finset.erase_empty]
    next => rfl
  | some worker =>
    by_cases same : workerId' = workerId
    · subst same
      rw [lookup_insert, getD_some, lookup_dropHolding, found, getD_some]
      simp only [true_and]
      split
      · cases worker.holdings.lookup tier with
        | none => exact (Finset.erase_empty _).symm
        | some hashes =>
          rw [bind_some, getD_some]
          split
          next gone => exact gone.symm
          next => rfl
      · rfl
    · rw [lookup_insert_of_ne _ same, if_neg fun both => same both.1]

/-- A touch keeps what is held. -/
theorem held_touch (address : String) (spec : Option WorkerCacheSpec) (workerId' : String)
    (tier' : Int32) :
    (state.touch workerId address spec).held workerId' tier' = state.held workerId' tier' := by
  by_cases same : workerId' = workerId
  · subst same
    simp [held, State.worker, touch]
  · simp [held, State.worker, touch, lookup_insert_of_ne _ same]

end State

/-! ### Consistency of the two indexes -/

namespace State

/-- Placements and holdings are inverse to each other, no record is without placements,
and hits are counted for recorded blocks only. -/
structure Consistent (state : State) : Prop where
  inverse : ∀ hash workerId tier,
    (workerId, tier) ∈ state.placements hash ↔ hash ∈ state.held workerId tier
  placed : ∀ hash block, state.blocks.lookup hash = some block → block.placements ≠ ∅
  hits : ∀ hash, hash ∈ state.hitCounts → hash ∈ state.blocks
  held_ne : ∀ workerId worker tier hashes, state.workers.lookup workerId = some worker →
    worker.holdings.lookup tier = some hashes → hashes ≠ ∅

/-- The empty state is consistent. -/
theorem consistent_empty : Consistent {} where
  inverse := fun hash workerId tier => ⟨fun member => absurd member notMem_empty, nofun⟩
  placed := fun hash block found => by simp at found
  hits := fun hash member => absurd member notMem_empty
  held_ne := fun workerId worker tier hashes found => by simp at found

variable {state : State}

variable (consistent : Consistent state) (workerId : String) (tier : Int32)

section

include consistent

/-- A touch keeps it so. -/
theorem Consistent.touch (address : String) (spec : Option WorkerCacheSpec) :
    Consistent (state.touch workerId address spec) where
  inverse := fun hash workerId' tier => by
    rw [held_touch]
    exact consistent.inverse hash workerId' tier
  placed := consistent.placed
  hits := consistent.hits
  held_ne := fun workerId' worker tier hashes found here => by
    by_cases same : workerId' = workerId
    · subst same
      rw [State.touch, lookup_insert, some.injEq] at found
      subst found
      unfold State.worker at here
      cases known : state.workers.lookup workerId' with
      | none => simp [known] at here
      | some worker =>
        rw [known] at here
        exact consistent.held_ne workerId' worker tier hashes known here
    · rw [State.touch, lookup_insert_of_ne _ same] at found
      exact consistent.held_ne workerId' worker tier hashes found here

/-- So does a report. -/
theorem Consistent.reportOne (report : Report) :
    Consistent (state.reportOne workerId tier report) where
  inverse := fun hash workerId' tier' => by
    have before := consistent.inverse hash workerId' tier'
    rw [placements_reportOne, held_reportOne]
    by_cases sameHash : hash = report.1 <;>
      by_cases sameSlot : workerId' = workerId ∧ tier' = tier
    · obtain ⟨rfl, rfl⟩ := sameSlot
      simp [sameHash]
    · rw [if_pos sameHash, if_neg sameSlot, mem_insert, ← before, Prod.mk.injEq]
      exact or_iff_right sameSlot
    · obtain ⟨rfl, rfl⟩ := sameSlot
      rw [if_neg sameHash, if_pos ⟨rfl, rfl⟩, Finset.mem_insert, ← before]
      exact (or_iff_right sameHash).symm
    · rw [if_neg sameHash, if_neg sameSlot, before]
  placed := fun hash block found => by
    by_cases same : hash = report.1
    · subst same
      rw [State.reportOne, lookup_insert, some.injEq] at found
      subst found
      dsimp only
      intro empty
      have here : (workerId, tier) ∈
          (state.block report.1).placements.insert (workerId, tier) report.2.1 :=
        mem_insert.mpr (.inl rfl)
      rw [empty] at here
      exact notMem_empty here
    · rw [State.reportOne, lookup_insert_of_ne _ same] at found
      exact consistent.placed hash block found
  hits := fun hash member => mem_insert.mpr (.inr (consistent.hits hash member))
  held_ne := fun workerId' worker tier' hashes found here => by
    by_cases same : workerId' = workerId
    · subst same
      rw [State.reportOne, lookup_insert, some.injEq] at found
      subst found
      by_cases sameTier : tier' = tier
      · subst sameTier
        rw [lookup_insert, some.injEq] at here
        rw [← here]
        exact Finset.insert_ne_empty _ _
      · rw [lookup_insert_of_ne _ sameTier] at here
        unfold State.worker at here
        cases known : state.workers.lookup workerId' with
        | none => simp [known] at here
        | some worker =>
          rw [known] at here
          exact consistent.held_ne workerId' worker tier' hashes known here
    · rw [State.reportOne, lookup_insert_of_ne _ same] at found
      exact consistent.held_ne workerId' worker tier' hashes found here

end

/-- A block that goes takes its hit count. -/
theorem hitCounts_revokeOne (state : State) (hash : Int64) :
    (revokeOne workerId tier state hash).hitCounts = match state.blocks.lookup hash with
      | none => state.hitCounts
      | some block =>
        if block.placements.erase (workerId, tier) = ∅ then state.hitCounts.erase hash
        else state.hitCounts := by
  unfold revokeOne
  cases state.blocks.lookup hash with
  | none => rfl
  | some block =>
    dsimp only
    split <;> rfl

section

include consistent

/-- A revocation keeps it. -/
theorem Consistent.revokeOne (hash : Int64) : Consistent (state.revokeOne workerId tier hash) where
  inverse := fun other workerId' tier' => by
    have before := consistent.inverse other workerId' tier'
    rw [placements_revokeOne, held_revokeOne]
    by_cases sameHash : other = hash <;>
      by_cases sameSlot : workerId' = workerId ∧ tier' = tier
    · obtain ⟨rfl, rfl⟩ := sameSlot
      simp [sameHash]
    · rw [if_pos sameHash, if_neg sameSlot, mem_erase, ← before, ne_eq, Prod.mk.injEq]
      exact and_iff_right sameSlot
    · obtain ⟨rfl, rfl⟩ := sameSlot
      rw [if_neg sameHash, if_pos ⟨rfl, rfl⟩, Finset.mem_erase, ← before]
      exact (and_iff_right sameHash).symm
    · rw [if_neg sameHash, if_neg sameSlot, before]
  placed := fun other block found => by
    rw [lookup_revokeOne] at found
    split at found
    · obtain ⟨record, -, found⟩ := bind_eq_some_iff.mp found
      split at found
      · cases found
      · cases found
        assumption
    · exact consistent.placed other block found
  hits := fun other member => by
    have before := consistent.hits other
    rw [hitCounts_revokeOne] at member
    rw [blocks_revokeOne]
    cases known : state.blocks.lookup hash with
    | none =>
      rw [known] at member
      exact before member
    | some record =>
      rw [known] at member
      dsimp only at member ⊢
      split at member
      next gone =>
        rw [if_pos gone, mem_erase]
        exact (mem_erase.mp member).imp_right before
      next nonempty =>
        rw [if_neg nonempty, mem_insert]
        exact .inr (before member)
  held_ne := fun workerId' worker tier' hashes found here => by
    rw [workers_revokeOne] at found
    split at found
    next => exact consistent.held_ne workerId' worker tier' hashes found here
    next record known =>
      by_cases same : workerId' = workerId
      · subst same
        rw [lookup_insert, some.injEq] at found
        subst found
        rw [lookup_dropHolding] at here
        split at here
        · obtain ⟨old, -, here⟩ := bind_eq_some_iff.mp here
          split at here
          · cases here
          · cases here
            assumption
        · exact consistent.held_ne workerId' record tier' hashes known here
      · rw [lookup_insert_of_ne _ same] at found
        exact consistent.held_ne workerId' worker tier' hashes found here

/-- So does a hit. -/
theorem Consistent.countHit {hash : Int64}
    (recorded : hash ∈ state.blocks) : Consistent (state.countHit hash) :=
  { consistent with
    hits := fun other member => by
      rcases mem_insert.mp member with rfl | old
      · exact recorded
      · exact consistent.hits other old }

end

/-- A placed hash has a block. -/
theorem mem_blocks_of_placements {hash : Int64} (placed : state.placements hash ≠ ∅) :
    hash ∈ state.blocks := by
  by_contra absent
  rw [placements, State.block, Finmap.lookup_eq_none.mpr absent] at placed
  exact placed rfl

section

include consistent

/-- So do hits. -/
theorem Consistent.countHits (hashes : List Int64) : Consistent (state.countHits hashes) := by
  refine (foldlRecOn (motive := fun next => Consistent next ∧ next.blocks = state.blocks)
    _ _ ⟨consistent, rfl⟩ fun next kept hash member => ⟨kept.1.countHit ?_, kept.2⟩).1
  have placed := (mem_filter.mp member).2
  rw [kept.2]
  exact mem_blocks_of_placements (of_decide_eq_true placed)

/-- So does an action. -/
theorem Consistent.applyAction {next : State}
    {order : Listing Int64} {workerId : String} {action : ExternalKvAction}
    (applied : state.applyAction order workerId action = some next) : Consistent next := by
  unfold State.applyAction at applied
  split at applied
  · cases applied
    refine foldlRecOn _ _ consistent fun state consistent key _ => ?_
    split
    · exact consistent
    · exact consistent.reportOne workerId action.tier _
  · cases applied
    exact foldlRecOn _ _ consistent fun _ consistent hash _ =>
      consistent.revokeOne workerId action.tier hash
  · cases applied
    exact foldlRecOn _ _ consistent fun _ consistent hash _ =>
      consistent.revokeOne workerId action.tier hash
  · cases applied
  · cases applied

/-- So do actions. -/
theorem Consistent.applyActions (order : Listing Int64)
    (workerId : String) (actions : List ExternalKvAction) :
    Consistent (state.applyActions order workerId actions).2 := by
  induction actions generalizing state with
  | nil => exact consistent
  | cons action actions ih =>
    rw [State.applyActions]
    split
    next => exact consistent
    next next applied => exact ih (consistent.applyAction applied)

end

end State

/-- The calls that change the backend. -/
inductive BackendCall
  | apply (order : Listing Int64) (req : ApplyExternalKvBatchRequest)
  | countHits (hashes : List Int64)

namespace State

/-- What a call leaves. -/
def call (state : State) : BackendCall → State
  | .apply order req => (state.apply order req).2
  | .countHits hashes => state.countHits hashes

/-- In every reachable state the two indexes agree. -/
theorem consistent_run (calls : List BackendCall) : Consistent (calls.foldl State.call {}) := by
  refine foldlRecOn calls _ consistent_empty fun state consistent call _ => ?_
  cases call with
  | apply order req =>
    exact (consistent.touch req.workerId req.workerAddress req.cacheSpec).applyActions order
      req.workerId req.actions
  | countHits hashes => exact consistent.countHits hashes

end State

end AvaServe.Indexer
