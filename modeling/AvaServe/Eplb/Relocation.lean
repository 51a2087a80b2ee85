import Mathlib
import AvaServe.Eplb.ChunkUtils

/-!
# Relocating expert weights

After a rebalance every slot of every rank has to hold the weights of the logical expert
that the new map assigns to it. Each rank plans alone which slots it copies, receives and
sends, runs its messages in batches of expert ids, and copies its buffers back.
-/

namespace AvaServe.Eplb

/-- Where a tensor of an expert lies in the tensors of a rank: the index of the tensor and
the local location of the expert. -/
abbrev Slot := ℕ × ℕ

/-- A send or a receive. -/
inductive Direction
  | isend
  | irecv
deriving DecidableEq, Repr

/-- An operation. A send reads the slot of the weights, a receive writes the slot of the
buffers. The expert is that of the entry the operation is filed in. -/
structure P2POp where
  op : Direction
  slot : Slot
  peer : ℕ
  logicalExpertId : ℕ
deriving DecidableEq, Repr

/-- The arguments of `update_expert_weights_single_layer` that all ranks share. -/
structure Relocation where
  numLocalPhysicalExperts : ℕ
  numGpuPerNode : ℕ
  numTensors : ℕ
  batchChunkSize : ℕ
  oldPhysicalToLogicalMap : List ℕ
  newPhysicalToLogicalMap : List ℕ

/-- The five cases of `_handle_recv_of_dst_expert_location`; the last two both receive
from a rank. -/
inductive Source
  | unchanged
  | sameGpu (srcExpertLocation : ℕ)
  | freeRider (srcExpertLocation : ℕ)
  | sameNode (srcRank : ℕ)
  | crossNode (srcRank : ℕ)
deriving DecidableEq, Repr

/-- What a rank has planned so far. -/
structure RankPlan (Value : Type) where
  tempBuffers : Slot → Value
  buffer2weightCopyInfos : List (ℕ × ℕ)
  p2pOpInfos : List (ℕ × List P2POp)

/-- `_deduplicate_ordered`. -/
def deduplicateOrdered (arr : List ℕ) : List ℕ :=
  arr.foldl (fun output item =>
    if output = [] ∨ output.getLast? ≠ some item then output ++ [item] else output) []

/-- The answer of `_compute_comm_info`. -/
structure CommInfo where
  sameNodeMapping : ChunkUtils
  crossNodeMapping : ChunkUtils
  needCommSelfNodeDstRanks : List ℕ

namespace Relocation

variable (layer : Relocation)

/-- `num_physical_experts`. -/
def numPhysicalExperts : ℕ := layer.oldPhysicalToLogicalMap.length

/-- `range(*local_expert_location_range)` of a rank. -/
def localExpertLocations (rank : ℕ) : List ℕ :=
  List.range' (rank * layer.numLocalPhysicalExperts) layer.numLocalPhysicalExperts

/-- `none` when the assertion fails. -/
def getLocalExpertLocation (rank expertLocation : ℕ) : Option ℕ :=
  if rank * layer.numLocalPhysicalExperts ≤ expertLocation ∧
      expertLocation < (rank + 1) * layer.numLocalPhysicalExperts then
    some (expertLocation % layer.numLocalPhysicalExperts)
  else
    none

/-- The ranks of the locations at which a map has an expert. -/
def ranksOf (map : List ℕ) (logicalExpertId : ℕ) : List ℕ :=
  ((List.range layer.numPhysicalExperts).filter fun x =>
    decide (map[x]? = some logicalExpertId)).map (· / layer.numLocalPhysicalExperts)

/-- `all_src_ranks`. -/
def allSrcRanks (logicalExpertId : ℕ) : List ℕ :=
  deduplicateOrdered (layer.ranksOf layer.oldPhysicalToLogicalMap logicalExpertId)

/-- `need_comm_dst_ranks`. -/
def needCommDstRanks (logicalExpertId : ℕ) : List ℕ :=
  deduplicateOrdered
    ((layer.ranksOf layer.newPhysicalToLogicalMap logicalExpertId).filter fun rank =>
      decide (rank ∉ layer.allSrcRanks logicalExpertId))

/-- `_compute_comm_info`, seen from a rank. -/
def computeCommInfo (rank logicalExpertId : ℕ) : CommInfo :=
  let selfNodeId := rank / layer.numGpuPerNode
  let allSrcRanks := layer.allSrcRanks logicalExpertId
  let allSrcNodes := allSrcRanks.map (· / layer.numGpuPerNode)
  let selfNodeSrcRanks := allSrcRanks.filter fun x => decide (x / layer.numGpuPerNode = selfNodeId)
  let needCommDstRanks := layer.needCommDstRanks logicalExpertId
  let needCommSelfNodeDstRanks :=
    if 0 < selfNodeSrcRanks.length then
      needCommDstRanks.filter fun x => decide (x / layer.numGpuPerNode = selfNodeId)
    else
      []
  let needCommCrossNodeDstRanks :=
    needCommDstRanks.filter fun x => decide (x / layer.numGpuPerNode ∉ allSrcNodes)
  { sameNodeMapping := ⟨selfNodeSrcRanks, needCommSelfNodeDstRanks⟩
    crossNodeMapping := ⟨allSrcRanks, needCommCrossNodeDstRanks⟩
    needCommSelfNodeDstRanks := needCommSelfNodeDstRanks }

/-- The rank an expert is received from; `none` when a lookup raises. -/
def chosenSource (rank logicalExpertId : ℕ) : Option Source :=
  let info := layer.computeCommInfo rank logicalExpertId
  if rank ∈ info.needCommSelfNodeDstRanks then
    (info.sameNodeMapping.chunkValueFromElementValue rank).map .sameNode
  else
    (info.crossNodeMapping.chunkValueFromElementValue rank).map .crossNode

/-- The case a location of a rank falls into. -/
def sourceOf (rank dstExpertLocation : ℕ) : Option Source := do
  let logicalExpertId ← layer.newPhysicalToLogicalMap[dstExpertLocation]?
  let current ← layer.oldPhysicalToLogicalMap[dstExpertLocation]?
  if current = logicalExpertId then
    pure .unchanged
  else
    match (layer.localExpertLocations rank).find? fun src =>
        decide (layer.oldPhysicalToLogicalMap[src]? = some logicalExpertId) with
    | some src => pure (.sameGpu src)
    | none =>
      match (List.range' (rank * layer.numLocalPhysicalExperts)
          (dstExpertLocation - rank * layer.numLocalPhysicalExperts)).find? fun src =>
            decide (layer.newPhysicalToLogicalMap[src]? = some logicalExpertId) with
      | some src => pure (.freeRider src)
      | none => layer.chosenSource rank logicalExpertId

/-- `_create_p2p_recv_and_buffer2weight_copy`. -/
def createP2PRecv {Value : Type} (rank : ℕ) (plan : RankPlan Value) (srcRank dst : ℕ) :
    Option (RankPlan Value) := do
  let logicalExpertId ← layer.newPhysicalToLogicalMap[dst]?
  let place ← layer.getLocalExpertLocation rank dst
  pure
    { plan with
      p2pOpInfos := plan.p2pOpInfos ++ [(logicalExpertId, (List.range layer.numTensors).map fun i =>
          ⟨.irecv, (i, place), srcRank, logicalExpertId⟩)]
      buffer2weightCopyInfos := plan.buffer2weightCopyInfos ++ [(dst, dst)] }

/-- The copies of all tensors of an expert into the buffers. -/
def copyTensors {Value : Type} (weights tempBuffers : Slot → Value) (src dst : ℕ) : Slot → Value :=
  fun slot => if slot.1 < layer.numTensors ∧ slot.2 = dst then weights (slot.1, src)
    else tempBuffers slot

/-- `_handle_recv_of_dst_expert_location`. -/
def handleRecvOfDstExpertLocation {Value : Type} (rank : ℕ) (weights : Slot → Value)
    (plan : RankPlan Value) (dst : ℕ) : Option (RankPlan Value) := do
  match ← layer.sourceOf rank dst with
  | .unchanged => pure plan
  | .sameGpu src =>
    let from_ ← layer.getLocalExpertLocation rank src
    let to_ ← layer.getLocalExpertLocation rank dst
    pure
      { plan with
        tempBuffers := layer.copyTensors weights plan.tempBuffers from_ to_
        buffer2weightCopyInfos := plan.buffer2weightCopyInfos ++ [(dst, dst)] }
  | .freeRider src =>
    pure { plan with buffer2weightCopyInfos := plan.buffer2weightCopyInfos ++ [(src, dst)] }
  | .sameNode srcRank => layer.createP2PRecv rank plan srcRank dst
  | .crossNode srcRank => layer.createP2PRecv rank plan srcRank dst

/-- The ranks a rank sends an expert to. -/
def allDstRanks (rank logicalExpertId : ℕ) : Option (List ℕ) := do
  let info := layer.computeCommInfo rank logicalExpertId
  let sameNodeDstRanks ← info.sameNodeMapping.elementValuesFromChunkValue rank
  let crossNodeDstRanks ← info.crossNodeMapping.elementValuesFromChunkValue rank
  pure (sameNodeDstRanks ++ crossNodeDstRanks)

/-- `_create_isend_ops_of_logical_expert_id`. -/
def createIsendOpsOfLogicalExpertId (rank logicalExpertId src : ℕ) : Option (ℕ × List P2POp) := do
  let allDstRanks ← layer.allDstRanks rank logicalExpertId
  let place ← layer.getLocalExpertLocation rank src
  pure (logicalExpertId, allDstRanks.flatMap fun dstRank =>
    (List.range layer.numTensors).map fun i => ⟨.isend, (i, place), dstRank, logicalExpertId⟩)

/-- One round of `_create_isend_ops`, with the experts handled so far. -/
def createIsendOp (rank : ℕ) (state : List ℕ × List (ℕ × List P2POp)) (src : ℕ) :
    Option (List ℕ × List (ℕ × List P2POp)) := do
  let logicalExpertId ← layer.oldPhysicalToLogicalMap[src]?
  if logicalExpertId ∈ state.1 then
    pure state
  else
    let entry ← layer.createIsendOpsOfLogicalExpertId rank logicalExpertId src
    pure (logicalExpertId :: state.1, state.2 ++ [entry])

/-- `_handle_recv` and `_create_isend_ops`. Division by zero GPUs raises. -/
def createPlan {Value : Type} (rank : ℕ) (weights tempBuffers : Slot → Value) :
    Option (RankPlan Value) := do
  guard (layer.numGpuPerNode ≠ 0)
  let plan ← (layer.localExpertLocations rank).foldlM
    (layer.handleRecvOfDstExpertLocation rank weights) ⟨tempBuffers, [], []⟩
  let (_, p2pOpInfos) ← (layer.localExpertLocations rank).foldlM (layer.createIsendOp rank)
    ([], plan.p2pOpInfos)
  pure { plan with p2pOpInfos := p2pOpInfos }

/-- What `_filter_p2p_ops` leaves of one entry. -/
def filterEntry (isActive : ℕ → Bool) (info : ℕ × List P2POp) : ℕ × List P2POp :=
  if info.2.any fun op => decide (op.op = .isend) then
    (info.1, info.2.filter fun op => isActive op.peer)
  else if (info.2.any fun op => decide (op.op = .irecv)) && info.2.any fun op => !isActive op.peer
  then (info.1, [])
  else info

/-- `_filter_p2p_ops`; `none` when there is no elastic state. -/
def filterP2POps (activeRanks : Option (ℕ → Bool)) (p2pOpInfos : List (ℕ × List P2POp)) :
    List (ℕ × List P2POp) :=
  match activeRanks with
  | none => p2pOpInfos
  | some isActive => p2pOpInfos.map (filterEntry isActive)

/-- `ops_by_expert`: the last entry of an expert counts. -/
def opsByExpert (p2pOpInfos : List (ℕ × List P2POp)) (eid : ℕ) : List P2POp :=
  let sortedInfos := p2pOpInfos.mergeSort fun a b => decide (a.1 ≤ b.1)
  match (sortedInfos.filter fun info => decide (info.1 = eid)).getLast? with
  | some info => info.2
  | none => []

/-- The number of batches, `len(range(0, num_physical_experts, batch_chunk_size))`. -/
def numBatches : ℕ := (layer.numPhysicalExperts + layer.batchChunkSize - 1) / layer.batchChunkSize

/-- The expert ids of a batch. -/
def batchExperts (batch : ℕ) : List ℕ :=
  let start := batch * layer.batchChunkSize
  List.range' start (min (start + layer.batchChunkSize) layer.numPhysicalExperts - start)

/-- The operations of the batches of `_execute_p2p_ops`, in order. -/
def batchOps (p2pOpInfos : List (ℕ × List P2POp)) (batch : ℕ) : List P2POp :=
  (layer.batchExperts batch).flatMap (opsByExpert p2pOpInfos)

/-- The copies of `_execute_buffer2weight_copies`, from slots of the buffers to slots of the
weights. -/
def buffer2weightCopies (rank : ℕ) (infos : List (ℕ × ℕ)) : Option (List (Slot × Slot)) := do
  let copies ← infos.mapM fun info => do
    let source ← layer.getLocalExpertLocation rank info.1
    let target ← layer.getLocalExpertLocation rank info.2
    pure ((List.range layer.numTensors).map fun i => ((i, source), (i, target)))
  pure copies.flatten

/-- What is left to a rank after its plan: its buffers, the operations of its batches, and
its copies back. -/
structure RankProgram (Value : Type) where
  tempBuffers : Slot → Value
  batches : ℕ → List P2POp
  copies : List (Slot × Slot)

/-- `update_expert_weights_single_layer` of a rank. A batch size of zero raises when there
are operations. -/
def updateExpertWeightsSingleLayer {Value : Type} (activeRanks : Option (ℕ → Bool)) (rank : ℕ)
    (weights tempBuffers : Slot → Value) : Option (RankProgram Value) := do
  let plan ← layer.createPlan rank weights tempBuffers
  let p2pOpInfos := filterP2POps activeRanks plan.p2pOpInfos
  guard (p2pOpInfos.flatMap Prod.snd = [] ∨ layer.batchChunkSize ≠ 0)
  let copies ← layer.buffer2weightCopies rank plan.buffer2weightCopyInfos
  pure
    { tempBuffers := plan.tempBuffers
      batches := layer.batchOps p2pOpInfos
      copies := copies }

end Relocation

end AvaServe.Eplb
