import Mathlib
import AvaServe.Foundation.LinkedTree

/-!
# The router's hash tree

`TreeState` of the cache-aware router: an arena of nodes, one per block hash on a
chain, with a reverse index from a hash to the nodes that carry it. Workers' block
events insert chains, remove hashes wherever they sit, and clear a worker; nodes
that end up without workers and without children are pruned upwards.

The order in which a hash set or hash map is walked is not fixed by the source; an
`Order` stands for any such order and is an argument of every operation that walks
one.
-/

namespace AvaServe.Router

open AvaServe.Foundation Function

/-- `KvWorkerId`: a worker endpoint and its DP-attention rank. -/
structure KvWorkerId where
  url : String
  dpRank : UInt32
  deriving DecidableEq, Repr

/-- `Node`. -/
structure Node where
  blockHash : Int64
  parentBlockHash : Option Int64
  parent : Option ℕ
  workers : Finset KvWorkerId
  children : AList fun _ : Int64 => ℕ
  lastUsed : ℕ

/-- The order in which a set of node ids is walked. -/
structure Order where
  list : Finset ℕ → List ℕ
  nodup : ∀ ids, (list ids).Nodup
  mem_iff : ∀ ids id, id ∈ list ids ↔ id ∈ ids

/-- The increasing order. -/
def Order.increasing : Order where
  list := fun ids => ids.sort (· ≤ ·)
  nodup := fun ids => ids.sort_nodup _
  mem_iff := fun ids _ => ids.mem_sort _

/-- `TreeState`; `nodes` are the keys of the arena and `node` its records. -/
structure TreeState where
  nodes : Finset ℕ
  node : ℕ → Node
  byHash : Int64 → Option (Finset ℕ)
  nextId : ℕ

/-- `ROOT_ID`. -/
def rootId : ℕ := 0

/-- `ROOT_HASH_SENTINEL`. -/
def rootHashSentinel : Int64 := Int64.minValue

/-- `Node::new_child`. -/
def Node.newChild (now : ℕ) (blockHash : Int64) (parentBlockHash : Option Int64) (parent : ℕ) :
    Node where
  blockHash := blockHash
  parentBlockHash := parentBlockHash
  parent := some parent
  workers := ∅
  children := ∅
  lastUsed := now

/-- Neither workers nor children. -/
def Node.bare (node : Node) : Bool := node.workers = ∅ ∧ node.children.entries = []

namespace TreeState

/-- `TreeState::new`. -/
def new (now : ℕ) : TreeState where
  nodes := {rootId}
  node := fun _ =>
    { blockHash := rootHashSentinel
      parentBlockHash := none
      parent := none
      workers := ∅
      children := ∅
      lastUsed := now }
  byHash := fun _ => none
  nextId := 1

variable (state : TreeState)

/-- `nodes.get`. -/
def get (id : ℕ) : Option Node :=
  if id ∈ state.nodes then some (state.node id) else none

/-- Update the record of a node. -/
def modify (id : ℕ) (f : Node → Node) : TreeState :=
  { state with node := update state.node id (f (state.node id)) }

/-- `create_child`: `none` when the parent is unknown. -/
def createChild (now parentId : ℕ) (blockHash : Int64)
    (parentBlockHash : Option Int64) : Option ℕ × TreeState :=
  let id := state.nextId
  let state : TreeState :=
    { state with
      nodes := insert id state.nodes
      node := update state.node id (.newChild now blockHash parentBlockHash parentId)
      nextId := state.nextId + 1 }
  if parentId ∈ state.nodes then
    let state := state.modify parentId fun parent =>
      { parent with children := parent.children.insert blockHash id }
    (some id, { state with
        byHash := update state.byHash blockHash
          (some (insert id ((state.byHash blockHash).getD ∅))) })
  else (none, { state with nodes := state.nodes.erase id })

variable (order : Order)

variable (worker : KvWorkerId)

/-- `resolve_parent`. -/
def resolveParent
    (parentHash : Option Int64) : ℕ :=
  match parentHash with
  | none => rootId
  | some parentHash =>
    match state.byHash parentHash with
    | none => rootId
    | some candidates =>
      if candidates.card = 1 then (order.list candidates).headD rootId
      else
        ((order.list candidates).find? fun candidate =>
          match state.get candidate with
          | none => false
          | some node => worker ∈ node.workers).getD rootId

/-- The loop of `insert`, from the node reached so far. -/
def insertLoop (now : ℕ) (worker : KvWorkerId) :
    TreeState → ℕ → Option Int64 → List Int64 → TreeState
  | state, _, _, [] => state
  | state, current, prevHash, h :: blockHashes =>
    let (childId, state) :=
      match (state.get current).bind fun node => node.children.lookup h with
      | some id => (some id, state)
      | none => state.createChild now current h prevHash
    match childId with
    | none => state
    | some childId =>
      match state.get childId with
      | none => state
      | some _ =>
        insertLoop now worker
          (state.modify childId fun child =>
            { child with workers := insert worker child.workers, lastUsed := now })
          childId (some h) blockHashes

/-- `insert`: apply a `BlockStored` event. -/
def insert (now : ℕ) (worker : KvWorkerId)
    (parentHash : Option Int64) (blockHashes : List Int64) : TreeState :=
  if blockHashes.isEmpty then state
  else insertLoop now worker state (state.resolveParent order worker parentHash) parentHash
    blockHashes

/-- The reverse index without one node of a hash. -/
def unindex (id : ℕ) (blockHash : Int64) : Int64 → Option (Finset ℕ) :=
  match state.byHash blockHash with
  | none => state.byHash
  | some ids =>
    update state.byHash blockHash
      (if ids.erase id = ∅ then none else some (ids.erase id))

/-- The removals of one round of `prune_cascade`. -/
def detach (id parentId : ℕ) (blockHash : Int64) : TreeState :=
  let unlinked :=
    if parentId ∈ state.nodes then
      state.modify parentId fun parent =>
        { parent with children := parent.children.erase blockHash }
    else state
  { unlinked with
    byHash := unlinked.unindex id blockHash
    nodes := unlinked.nodes.erase id }

/-- The loop of `prune_cascade`; every round removes a node. -/
def pruneLoop : ℕ → TreeState → ℕ → TreeState
  | 0, state, _ => state
  | fuel + 1, state, cursor =>
    if cursor = rootId then state
    else
      match state.get cursor with
      | none => state
      | some node =>
        match node.parent with
        | none => state
        | some parentId =>
          if node.bare then
            let state := state.detach cursor parentId node.blockHash
            match state.get parentId with
            | none => state
            | some parent =>
              if parentId ≠ rootId ∧ parent.bare then pruneLoop fuel state parentId
              else state
          else state

/-- `prune_cascade`. -/
def pruneCascade (start : ℕ) : TreeState := pruneLoop state.nodes.card state start

/-- One target of `remove`. -/
def removeAt (state : TreeState) (id : ℕ) : TreeState :=
  match state.get id with
  | none => state
  | some _ =>
    let state := state.modify id fun node => { node with workers := node.workers.erase worker }
    if (state.node id).bare then state.pruneCascade id else state

/-- `remove`: apply a `BlockRemoved` event. -/
def remove (blockHashes : List Int64) : TreeState :=
  let targets := blockHashes.flatMap fun h =>
    match state.byHash h with
    | none => []
    | some ids => order.list ids
  targets.foldl (removeAt worker) state

/-- One node of the first pass of `clear_worker`, with the prune candidates so far. -/
def clearAt (walk : TreeState × List ℕ) (id : ℕ) : TreeState × List ℕ :=
  match walk.1.get id with
  | none => walk
  | some node =>
    let state := walk.1.modify id fun node => { node with workers := node.workers.erase worker }
    if worker ∈ node.workers ∧ (state.node id).bare then (state, walk.2 ++ [id])
    else (state, walk.2)

/-- One candidate of the second pass of `clear_worker`. -/
def pruneAt (id : ℕ) : TreeState :=
  if id ∈ state.nodes then state.pruneCascade id else state

/-- `clear_worker`. -/
def clearWorker : TreeState :=
  let ids := (order.list state.nodes).filter fun id => id ≠ rootId
  let walk := ids.foldl (clearAt worker) (state, [])
  walk.2.foldl pruneAt walk.1

/-- `node_count`: the nodes without the root. -/
def nodeCount : ℕ := state.nodes.card - 1

/-- The scan for the least recently used leaf. -/
def oldestLeaf : Option (ℕ × ℕ) :=
  (order.list state.nodes).foldl
    (fun oldest id =>
      let node := state.node id
      if id = rootId ∨ node.children.entries ≠ [] then oldest
      else
        match oldest with
        | none => some (node.lastUsed, id)
        | some (cur, other) => if node.lastUsed < cur then some (node.lastUsed, id)
            else some (cur, other))
    none

/-- The second phase of `evict_lru`, for a number of rounds. -/
def evictLoop (order : Order) (maxSize : ℕ) : ℕ → TreeState → TreeState
  | 0, state => state
  | rounds + 1, state =>
    if state.nodeCount ≤ maxSize then state
    else
      match state.oldestLeaf order with
      | none => state
      | some (_, victim) =>
        let state :=
          match state.get victim with
          | none => state
          | some _ => state.modify victim fun node => { node with workers := ∅ }
        evictLoop order maxSize rounds (state.pruneCascade victim)

/-- One empty leaf of the first phase of `evict_lru`. -/
def evictEmptyAt (maxSize : ℕ) (state : TreeState) (id : ℕ) : TreeState :=
  if state.nodeCount ≤ maxSize then state else state.pruneAt id

/-- `evict_lru`: the number of nodes it removes, and the tree it leaves. -/
def evictLru (maxSize : ℕ) : ℕ × TreeState :=
  if state.nodeCount ≤ maxSize then (0, state)
  else
    let emptyLeaves := (order.list state.nodes).filter fun id => id ≠ rootId ∧ (state.node id).bare
    let pruned := emptyLeaves.foldl (evictEmptyAt maxSize) state
    let evicted := evictLoop order maxSize (pruned.nodes.card + 1) pruned
    (state.nodes.card - evicted.nodes.card, evicted)

/-- The pointers of the arena. -/
def links : Links ℕ Int64 where
  parent id := (state.node id).parent
  label id := (state.node id).blockHash
  child id h := (state.node id).children.lookup h

end TreeState

/-- The calls that change the nodes or their workers; `match_prefix` only sets times of use. -/
inductive TreeCall
  | insert (order : Order) (now : ℕ) (worker : KvWorkerId) (parentHash : Option Int64)
      (blockHashes : List Int64)
  | remove (order : Order) (worker : KvWorkerId) (blockHashes : List Int64)
  | clearWorker (order : Order) (worker : KvWorkerId)
  | evictLru (order : Order) (maxSize : ℕ)

namespace TreeState

/-- One call. -/
def apply (state : TreeState) : TreeCall → TreeState
  | .insert order now worker parentHash blockHashes =>
    state.insert order now worker parentHash blockHashes
  | .remove order worker blockHashes => state.remove order worker blockHashes
  | .clearWorker order worker => state.clearWorker order worker
  | .evictLru order maxSize => (state.evictLru order maxSize).2

end TreeState

/-- `KvCacheEvent`, with the fields the tree is given. -/
inductive KvCacheEvent
  | blockStored (parentBlockHash : Option Int64) (blockHashes : List Int64)
  | blockRemoved (blockHashes : List Int64)
  | allBlocksCleared
  deriving DecidableEq

/-- The call by which a worker's event is applied to the tree. -/
def KvCacheEvent.call (order : Order) (now : ℕ) (worker : KvWorkerId) : KvCacheEvent → TreeCall
  | .blockStored parentBlockHash blockHashes => .insert order now worker parentBlockHash blockHashes
  | .blockRemoved blockHashes => .remove order worker blockHashes
  | .allBlocksCleared => .clearWorker order worker

end AvaServe.Router
