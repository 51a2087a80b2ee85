import AvaServe.Indexer.Bridge

/-!
# Prefix queries of the KV indexer

The rule engine that scans a worker's blocks, the default prefix query over the inputs
it collects for every worker, and the in-memory backend's own query, which follows the
holders of the first block only.

Counters have the source's width: the number of processed blocks saturates at `u32::MAX`
and the sliding-window run is a `u64`.
-/

namespace AvaServe.Indexer

open AvaServe.Foundation

/-- `COMPONENT_FULL`. -/
def componentFull : UInt32 := (1 : UInt32) <<< 0

/-- `COMPONENT_SWA`. -/
def componentSwa : UInt32 := (1 : UInt32) <<< 1

/-- `COMPONENT_MAMBA`. -/
def componentMamba : UInt32 := (1 : UInt32) <<< 2

/-- `SERVABLE_TIER_MASK`. -/
def servableTierMask : UInt32 :=
  (1 <<< TierType.tierHbm.code.toUInt32) ||| (1 <<< TierType.tierDram.code.toUInt32)

/-- `SUPPORTED_SPEC_VERSION`. -/
def supportedSpecVersion : UInt32 := 1

/-- `tier_in_mask`. -/
def tierInMask (mask : UInt32) (tier : Int32) : Bool :=
  decide (0 ≤ tier) && mask &&& (1 <<< tier.toUInt32) != 0

/-- `BlockComponents`. -/
structure BlockComponents where
  tokenCount : UInt32
  tierMasks : List (Int32 × UInt32)
  deriving DecidableEq, Repr

/-- `component_available`. -/
def componentAvailable (block : Option BlockComponents) (component specTierMask : UInt32) : Bool :=
  match block with
  | none => false
  | some block => block.tierMasks.any fun (tier, mask) =>
    mask &&& component != 0 && tierInMask servableTierMask tier && tierInMask specTierMask tier

namespace WorkerCacheSpec

/-- The spec declares a component. -/
def declares (spec : WorkerCacheSpec) (component : UInt32) : Bool :=
  spec.components &&& component != 0

end WorkerCacheSpec

/-! ### The scanner -/

/-- `PrefixScanState`. -/
inductive PrefixScanState
  | legacy (prefixLen : UInt32) (contiguous sawComponents : Bool)
  | invalid
  | componentAware (active : Bool) (best : UInt32) (spec : WorkerCacheSpec) (swaRun : UInt64)
      (swaHeadBroken : Bool)
  deriving DecidableEq, Repr

/-- `WorkerPrefixScanner`. -/
structure WorkerPrefixScanner where
  processed : UInt32
  state : PrefixScanState
  deriving DecidableEq, Repr

namespace WorkerPrefixScanner

/-- `WorkerPrefixScanner::new`. -/
def new (spec : Option WorkerCacheSpec) : WorkerPrefixScanner where
  processed := 0
  state :=
    match spec with
    | none => .legacy 0 true false
    | some spec =>
      if spec.components = 0 ∨ supportedSpecVersion < spec.version then .invalid
      else if spec.declares componentSwa ∧ spec.swaWindowTokens = 0 then .invalid
      else .componentAware true 0 spec 0 false

/-- `u32::saturating_add(1)`. -/
def saturatingSucc (count : UInt32) : UInt32 :=
  if count = UInt32.ofNat (UInt32.size - 1) then count else count + 1

/-- The sliding-window part of a push: the run, whether the head is broken, and whether
the boundary holds. -/
def pushSwa (spec : WorkerCacheSpec) (block : Option BlockComponents) (swaRun : UInt64)
    (swaHeadBroken : Bool) : UInt64 × Bool × Bool :=
  if spec.declares componentSwa then
    if componentAvailable block componentSwa spec.swaTierMask then
      let swaRun := swaRun + (block.map fun block => block.tokenCount.toUInt64).getD 0
      (swaRun, swaHeadBroken, !swaHeadBroken || decide (spec.swaWindowTokens.toUInt64 ≤ swaRun))
    else (0, true, false)
  else (swaRun, swaHeadBroken, true)

/-- The state after a push that processes the given number of blocks in all. -/
def pushState (processed : UInt32) (block : Option BlockComponents) :
    PrefixScanState → PrefixScanState
  | .legacy prefixLen contiguous sawComponents =>
    let sawComponents := sawComponents ||
      block.any fun block => block.tierMasks.any fun (_, mask) => mask != 0
    if contiguous then
      match block with
      | some _ => .legacy processed true sawComponents
      | none => .legacy prefixLen false sawComponents
    else .legacy prefixLen false sawComponents
  | .invalid => .invalid
  | .componentAware active best spec swaRun swaHeadBroken =>
    if !active then .componentAware active best spec swaRun swaHeadBroken
    else if !componentAvailable block componentFull spec.fullTierMask then
      .componentAware false best spec swaRun swaHeadBroken
    else
      let (swaRun, swaHeadBroken, boundaryOk) := pushSwa spec block swaRun swaHeadBroken
      let boundaryOk :=
        if spec.declares componentMamba then
          boundaryOk && componentAvailable block componentMamba spec.mambaTierMask
        else boundaryOk
      .componentAware true (if boundaryOk then processed else best) spec swaRun swaHeadBroken

/-- `WorkerPrefixScanner::push`. -/
def push (scanner : WorkerPrefixScanner) (block : Option BlockComponents) :
    WorkerPrefixScanner :=
  let processed := saturatingSucc scanner.processed
  { processed, state := pushState processed block scanner.state }

/-- `WorkerPrefixScanner::prefix`. -/
def prefixLen (scanner : WorkerPrefixScanner) : UInt32 :=
  match scanner.state with
  | .legacy prefixLen _ sawComponents => if sawComponents then 0 else prefixLen
  | .invalid => 0
  | .componentAware _ best _ _ _ => best

end WorkerPrefixScanner

/-- `compute_worker_prefix`. -/
def computeWorkerPrefix (spec : Option WorkerCacheSpec)
    (blocks : List (Option BlockComponents)) : UInt32 :=
  (blocks.foldl WorkerPrefixScanner.push (WorkerPrefixScanner.new spec)).prefixLen

/-! ### Responses -/

/-- `ExternalKvPrefixMatch`. -/
structure ExternalKvPrefixMatch where
  workerAddress : String
  matchedPrefixBlocks : UInt32
  workerId : String
  deriving DecidableEq, Repr

/-- `MatchExternalKvPrefixResponse`. -/
structure MatchExternalKvPrefixResponse where
  responseMatches : List ExternalKvPrefixMatch := []
  bestPrefixBlocks : UInt32 := 0
  blocksRead : UInt32 := 0
  deriving DecidableEq, Repr

/-- `MatchExternalKvPrefixRequest`. -/
structure MatchExternalKvPrefixRequest where
  hashes : List Int64
  maxBlocks : UInt32
  deriving DecidableEq, Repr

/-- `prefix_limit`. -/
def prefixLimit (len : ℕ) (maxBlocks : UInt32) : ℕ :=
  if maxBlocks = 0 then len else min len maxBlocks.toNat

/-- The hashes a request considers. -/
def MatchExternalKvPrefixRequest.considered (req : MatchExternalKvPrefixRequest) : List Int64 :=
  req.hashes.take (prefixLimit req.hashes.length req.maxBlocks)

/-- `assemble_prefix_response`. -/
def assemblePrefixResponse (entries : List (String × String × UInt32)) (blocksRead : UInt32) :
    MatchExternalKvPrefixResponse :=
  let entries := entries.mergeSort fun first second => second.2.2 ≤ first.2.2
  { responseMatches := entries.map fun (workerId, workerAddress, matchedPrefixBlocks) =>
      { workerAddress, matchedPrefixBlocks, workerId }
    bestPrefixBlocks := (entries.head?.map fun entry => entry.2.2).getD 0
    blocksRead }

/-- `WorkerPrefixInput`. -/
structure WorkerPrefixInput where
  workerId : String
  address : String
  spec : Option WorkerCacheSpec
  blocks : List (Option BlockComponents)
  deriving DecidableEq, Repr

/-- The entry of a worker, if it is routable and has a prefix. -/
def prefixEntry (workerId address : String) (prefixLen : UInt32) :
    Option (String × String × UInt32) :=
  if address ≠ "" ∧ 0 < prefixLen then some (workerId, address, prefixLen) else none

/-- `compute_prefix_response`. -/
def computePrefixResponse (inputs : List WorkerPrefixInput) (blocksRead : UInt32) :
    MatchExternalKvPrefixResponse :=
  assemblePrefixResponse
    (inputs.filterMap fun worker =>
      prefixEntry worker.workerId worker.address (computeWorkerPrefix worker.spec worker.blocks))
    blocksRead

/-! ### The default query -/

/-- The order in which each block's placements are walked. -/
abbrev PlacementOrder := Int64 → Listing (String × Int32)

/-- The placements of a block as they are walked. -/
def PlacementOrder.walk (order : PlacementOrder) (hash : Int64) (block : BlockRecord) :
    List ((String × Int32) × UInt32) :=
  (order hash).entries block.placements

namespace State

/-- The address a worker is known under. -/
def address (state : State) (workerId : String) : String :=
  ((state.workers.lookup workerId).map WorkerRecord.address).getD ""

/-- The spec a worker declares. -/
def spec (state : State) (workerId : String) : Option WorkerCacheSpec :=
  (state.workers.lookup workerId).bind WorkerRecord.spec

end State

/-- `WorkerView`. -/
structure WorkerView where
  workerId : String
  address : String
  spec : Option WorkerCacheSpec
  hashesByTier : Finmap fun _ : Int32 => List (Int64 × UInt32 × UInt32)
  blocks : List (Option BlockComponents)

namespace CollectViews

/-- What the loops of `collect_worker_views` accumulate. -/
structure Table where
  workerOrder : List String := []
  byWorker : Finmap (fun _ : String => WorkerView) := ∅
  matchedHashes : List Int64 := []

/-- The view a worker starts with. -/
def freshView (state : State) (count : ℕ) (withBlocks : Bool) (workerId : String) : WorkerView where
  workerId := workerId
  address := state.address workerId
  spec := state.spec workerId
  hashesByTier := ∅
  blocks := if withBlocks then List.replicate count none else []

/-- One more tier of a block. -/
def addTier (tokenCount : UInt32) (tier : Int32) (mask : UInt32)
    (block : Option BlockComponents) : Option BlockComponents :=
  let components := block.getD ⟨tokenCount, []⟩
  some { components with tierMasks := components.tierMasks ++ [(tier, mask)] }

/-- One placement of a block. -/
def addPlacement (state : State) (count : ℕ) (withBlocks : Bool) (index : ℕ) (hash : Int64)
    (tokenCount : UInt32) (table : Table) (placement : (String × Int32) × UInt32) : Table :=
  let ((worker, tier), mask) := placement
  let view := (table.byWorker.lookup worker).getD (freshView state count withBlocks worker)
  { table with
    workerOrder :=
      if worker ∈ table.byWorker then table.workerOrder else table.workerOrder ++ [worker]
    byWorker := table.byWorker.insert worker
      (if withBlocks then
        { view with blocks := view.blocks.modify index (addTier tokenCount tier mask) }
      else
        { view with
          hashesByTier := view.hashesByTier.insert tier
            ((view.hashesByTier.lookup tier).getD [] ++ [(hash, mask, tokenCount)]) }) }

/-- One hash of a query. -/
def addHash (order : PlacementOrder) (state : State) (count : ℕ) (withBlocks : Bool)
    (table : Table) (entry : Int64 × ℕ) : Table :=
  match state.blocks.lookup entry.1 with
  | none => table
  | some block =>
    if block.placements = ∅ then table
    else (order.walk entry.1 block).foldl
      (addPlacement state count withBlocks entry.2 entry.1 block.tokenCount)
      { table with matchedHashes := table.matchedHashes ++ [entry.1] }

/-- The views taken out of the table, worker by worker. -/
def takeViews : List String → Finmap (fun _ : String => WorkerView) → List WorkerView
  | [], _ => []
  | worker :: workers, byWorker =>
    match byWorker.lookup worker with
    | none => takeViews workers byWorker
    | some view => view :: takeViews workers (byWorker.erase worker)

end CollectViews

open CollectViews in
/-- `collect_worker_views`. -/
def collectWorkerViews (order : PlacementOrder) (state : State) (hashes : List Int64)
    (withBlocks : Bool) : List WorkerView × List Int64 :=
  let table := hashes.zipIdx.foldl (addHash order state hashes.length withBlocks) {}
  (takeViews table.workerOrder table.byWorker, table.matchedHashes)

/-- `collect_prefix_inputs_locked`, which answers `collect_worker_prefix_inputs`. -/
def collectWorkerPrefixInputs (order : PlacementOrder) (state : State) (hashes : List Int64) :
    List WorkerPrefixInput :=
  (collectWorkerViews order state hashes true).1.map fun worker =>
    { workerId := worker.workerId
      address := worker.address
      spec := worker.spec
      blocks := worker.blocks }

/-- The default `match_external_kv_prefix`. -/
def matchExternalKvPrefix (order : PlacementOrder) (state : State)
    (req : MatchExternalKvPrefixRequest) : MatchExternalKvPrefixResponse :=
  let hashes := req.considered
  if hashes = [] then {}
  else computePrefixResponse (collectWorkerPrefixInputs order state hashes)
    (UInt32.ofNat hashes.length)

/-! ### The in-memory backend's query -/

/-- `PrefixCandidate`. -/
structure PrefixCandidate where
  address : String
  scanner : WorkerPrefixScanner
  workerId : String
  deriving DecidableEq, Repr

namespace MatchPrefix

/-- The candidates: each worker among the placements of the first block, once. -/
def candidates (state : State) (placements : List ((String × Int32) × UInt32)) :
    List PrefixCandidate :=
  (placements.map fun placement => placement.1.1).eraseDups.map fun workerId =>
    { address := state.address workerId
      scanner := WorkerPrefixScanner.new (state.spec workerId)
      workerId }

/-- `candidate_by_id`. -/
def candidateById (candidates : List PrefixCandidate) : Finmap fun _ : String => ℕ :=
  gather (candidates.zipIdx.map fun (candidate, index) => (candidate.workerId, index))

/-- One placement of a scanned block: which candidates are present, and their views. -/
def addPlacement (byId : Finmap fun _ : String => ℕ) (tokenCount : UInt32)
    (views : List Bool × List BlockComponents) (placement : (String × Int32) × UInt32) :
    List Bool × List BlockComponents :=
  match byId.lookup placement.1.1 with
  | none => views
  | some index =>
    (views.1.set index true, views.2.modify index fun view =>
        { tokenCount, tierMasks := view.tierMasks ++ [(placement.1.2, placement.2)] })

/-- One hash of a query. -/
def pushHash (order : PlacementOrder) (state : State) (byId : Finmap fun _ : String => ℕ)
    (candidates : List PrefixCandidate) (hash : Int64) : List PrefixCandidate :=
  let cleared : List Bool × List BlockComponents :=
    (List.replicate candidates.length false, List.replicate candidates.length ⟨0, []⟩)
  let views :=
    match state.blocks.lookup hash with
    | none => cleared
    | some block => (order.walk hash block).foldl (addPlacement byId block.tokenCount) cleared
  candidates.zipIdx.map fun (candidate, index) =>
    { candidate with
      scanner := candidate.scanner.push
        (if views.1.getD index false then views.2[index]? else none) }

end MatchPrefix

open MatchPrefix in
/-- `InMemoryKvIndexerBackend::do_match_prefix`. -/
def doMatchPrefix (order : PlacementOrder) (state : State) (req : MatchExternalKvPrefixRequest) :
    MatchExternalKvPrefixResponse :=
  let limit := prefixLimit req.hashes.length req.maxBlocks
  match req.considered with
  | [] => {}
  | first :: rest =>
    match (state.blocks.lookup first).filter fun block => block.placements ≠ ∅ with
    | none => { responseMatches := [], bestPrefixBlocks := 0, blocksRead := 1 }
    | some block =>
      let start := candidates state (order.walk first block)
      let scanned := (first :: rest).foldl (pushHash order state (candidateById start)) start
      assemblePrefixResponse
        (scanned.filterMap fun candidate =>
          prefixEntry candidate.workerId candidate.address candidate.scanner.prefixLen)
        (UInt32.ofNat limit)

end AvaServe.Indexer
