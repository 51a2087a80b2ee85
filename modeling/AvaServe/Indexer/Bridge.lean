import AvaServe.Indexer.Backend

/-!
# The KV event bridge

The bridge decodes a worker's event batch into indexer mutations, merging adjacent
stores and adjacent removals of one tier, maps them to one apply request, and splits
that into requests within the service's bounds.
-/

namespace AvaServe.Indexer

open AvaServe.Foundation List

/-- `TierType`, without the unknown tier that no medium maps to. -/
inductive TierType
  | tierHbm
  | tierDram
  | tierSsd
  deriving DecidableEq, Repr

/-- The tier's number on the wire. -/
def TierType.code : TierType → Int32
  | .tierHbm => 1
  | .tierDram => 2
  | .tierSsd => 3

/-- A decoded event. The component mask and the token count of a store come together;
a legacy store has neither. -/
inductive CacheEvent
  | blockStored (tier : TierType) (hashes : List Int64) (components : Option (UInt32 × UInt32))
  | blockRemoved (tier : TierType) (hashes : List Int64)
  | allBlocksCleared
  deriving DecidableEq, Repr

/-- `Action`. -/
inductive Action
  | report (tier : TierType) (hashes : List Int64) (masks blockSizes : List (Option UInt32))
  | revoke (tier : TierType) (hashes : List Int64)
  | clearAll
  deriving DecidableEq, Repr

/-- `BridgeConfig`, as far as a request carries it. -/
structure BridgeConfig where
  workerId : String
  workerAddress : String
  clearTiers : List TierType
  cacheSpec : Option WorkerCacheSpec
  deriving DecidableEq, Repr

/-- `MAX_HASHES_PER_REQUEST`. -/
def maxHashesPerRequest : ℕ := 16384

/-- `MAX_ACTIONS_PER_BATCH`. -/
def maxActionsPerBatch : ℕ := 256

namespace EventActions

/-- `EventActions::report`. -/
def report (actions : List Action) (tier : TierType) (hashes : List Int64)
    (mask blockSize : Option UInt32) : List Action :=
  if hashes.isEmpty then actions
  else
    let n := hashes.length
    let fresh := actions ++
      [.report tier hashes (replicate n mask) (replicate n blockSize)]
    match actions.getLast? with
    | some (.report lastTier last masks blockSizes) =>
      if lastTier = tier then
        actions.dropLast ++ [.report tier (last ++ hashes) (masks ++ replicate n mask)
            (blockSizes ++ replicate n blockSize)]
      else fresh
    | _ => fresh

/-- `EventActions::revoke`. -/
def revoke (actions : List Action) (tier : TierType) (hashes : List Int64) : List Action :=
  if hashes.isEmpty then actions
  else
    let fresh := actions ++ [.revoke tier hashes]
    match actions.getLast? with
    | some (.revoke lastTier last) =>
      if lastTier = tier then actions.dropLast ++ [.revoke tier (last ++ hashes)] else fresh
    | _ => fresh

/-- `EventActions::clear_all`. -/
def clearAll (actions : List Action) : List Action := actions ++ [.clearAll]

/-- `decode_event`, on an event that decodes. -/
def decodeEvent (actions : List Action) : CacheEvent → List Action
  | .blockStored tier hashes components =>
    report actions tier hashes (components.map Prod.fst) (components.map Prod.snd)
  | .blockRemoved tier hashes => revoke actions tier hashes
  | .allBlocksCleared => clearAll actions

/-- `decode_event_batch`. -/
def decodeEventBatch (events : List CacheEvent) : List Action := events.foldl decodeEvent []

end EventActions

/-- `encode_component_masks` and `encode_block_sizes`: nothing when no hash carries a
value, otherwise one value per hash. -/
def encodeValues (values : List (Option UInt32)) : List UInt32 :=
  if values.all Option.isNone then [] else values.map fun value => value.getD 0

/-- `encode_component_masks`. -/
def encodeComponentMasks (masks : List (Option UInt32)) : List UInt32 := encodeValues masks

/-- `encode_block_sizes`. -/
def encodeBlockSizes (blockSizes : List (Option UInt32)) : List UInt32 := encodeValues blockSizes

/-- The wire actions of one action. -/
def wireActions (config : BridgeConfig) : Action → List ExternalKvAction
  | .report tier hashes masks blockSizes =>
    [{ type := ExternalKvActionType.actionReport.code
       tier := tier.code
       hashes := hashes
       componentMasks := encodeComponentMasks masks
       blockSizes := encodeBlockSizes blockSizes }]
  | .revoke tier hashes =>
    [{ type := ExternalKvActionType.actionRevoke.code
       tier := tier.code
       hashes := hashes
       componentMasks := []
       blockSizes := [] }]
  | .clearAll =>
    config.clearTiers.map fun tier =>
      { type := ExternalKvActionType.actionClearAllAtTier.code
        tier := tier.code
        hashes := []
        componentMasks := []
        blockSizes := [] }

/-- `build_apply_request`. -/
def buildApplyRequest (config : BridgeConfig) (seq : UInt64) (events : List Action) :
    ApplyExternalKvBatchRequest where
  workerId := config.workerId
  seq := seq
  actions := events.flatMap (wireActions config)
  workerAddress := config.workerAddress
  cacheSpec := config.cacheSpec

/-- `slice_or_empty`. -/
def sliceOrEmpty (values : List UInt32) (start stop : ℕ) : List UInt32 :=
  if values.isEmpty then [] else (values.take stop).drop start

/-- `split_action`. -/
def splitAction (action : ExternalKvAction) : List ExternalKvAction :=
  if action.hashes.length ≤ maxHashesPerRequest then [action]
  else
    (range ((action.hashes.length + maxHashesPerRequest - 1) / maxHashesPerRequest)).map
      fun index =>
        let start := index * maxHashesPerRequest
        let stop := min (start + maxHashesPerRequest) action.hashes.length
        { type := action.type
          tier := action.tier
          hashes := (action.hashes.take stop).drop start
          componentMasks := sliceOrEmpty action.componentMasks start stop
          blockSizes := sliceOrEmpty action.blockSizes start stop }

/-- The loop of `split_apply_request`: the batches closed so far, and the open one with
the number of its hashes. -/
def splitLoop (batches : List (List ExternalKvAction)) (current : List ExternalKvAction)
    (currentHashes : ℕ) : List ExternalKvAction → List (List ExternalKvAction)
  | [] => if current.isEmpty then batches else batches ++ [current]
  | action :: actions =>
    if current ≠ [] ∧ (current.length = maxActionsPerBatch ∨
        maxHashesPerRequest < currentHashes + action.hashes.length) then
      splitLoop (batches ++ [current]) [action] action.hashes.length actions
    else
      splitLoop batches (current ++ [action]) (currentHashes + action.hashes.length) actions

/-- `split_apply_request`. -/
def splitApplyRequest (request : ApplyExternalKvBatchRequest) : List ApplyExternalKvBatchRequest :=
  (splitLoop [] [] 0 (request.actions.flatMap splitAction)).map fun actions =>
    { request with actions := actions }

/-! ### The service's validation -/

/-- `validate_hashes`. -/
def validateHashes (hashes : List Int64) : Except Status Unit :=
  if hashes.isEmpty then .error (.invalidArgument "hashes must not be empty") else .ok ()

/-- `validate_hashes_bounded`. -/
def validateHashesBounded (hashes : List Int64) : Except Status Unit := do
  validateHashes hashes
  if maxHashesPerRequest < hashes.length then
    throw (.resourceExhausted
      s!"request contains {hashes.length} hashes; maximum is {maxHashesPerRequest}")

/-- `validate_tier`. -/
def validateTier (tier : Int32) : Except Status Unit :=
  if 1 ≤ tier ∧ tier ≤ 3 then .ok ()
  else if tier = 0 then .error (.invalidArgument "tier must not be TIER_UNKNOWN")
  else .error (.invalidArgument "tier is not supported")

/-- `validate_aligned`. -/
def validateAligned (arrayLen hashesLen : ℕ) (field : String) : Except Status Unit :=
  if arrayLen ≠ 0 ∧ arrayLen ≠ hashesLen then
    .error (.invalidArgument
      s!"{field} has {arrayLen} entries but must be empty or match {hashesLen} hashes")
  else .ok ()

/-- One action of `validate_actions`. -/
def validateAction (action : ExternalKvAction) : Except Status Unit := do
  validateTier action.tier
  match ExternalKvActionType.tryFrom action.type with
  | some .actionReport | some .actionRevoke => validateHashesBounded action.hashes
  | some .actionClearAllAtTier => pure ()
  | some .actionUnknown | none => throw (.invalidArgument "action type is not supported")
  validateAligned action.componentMasks.length action.hashes.length "component_masks"
  validateAligned action.blockSizes.length action.hashes.length "block_sizes"

/-- The action loop of `validate_actions`. -/
def validateEach : List ExternalKvAction → Except Status Unit
  | [] => .ok ()
  | action :: actions => do
      validateAction action
      validateEach actions

/-- `validate_actions`. -/
def validateActions (actions : List ExternalKvAction) : Except Status Unit := do
  if maxActionsPerBatch < actions.length then
    throw (.resourceExhausted
      s!"batch contains {actions.length} actions; maximum is {maxActionsPerBatch}")
  let totalHashes := (actions.map fun action => action.hashes.length).sum
  if maxHashesPerRequest < totalHashes then
    throw (.resourceExhausted
      s!"batch contains {totalHashes} hashes; maximum is {maxHashesPerRequest}")
  validateEach actions

end AvaServe.Indexer
