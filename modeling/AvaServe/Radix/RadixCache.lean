import Mathlib
import AvaServe.Foundation.BinaryHeap
import AvaServe.Foundation.LinkedTree
import AvaServe.Radix.RadixKey

/-!
# The radix cache

`RadixCache` as a heap of nodes addressed by their ids. A method that changes the
tree returns the changed cache. The readings of `time.monotonic` that a call makes
are its argument, and so is the order in which `evict` lists the set of evictable
leaves, which Python leaves open. `evict` returns the nodes whose values it frees,
in order.
-/

namespace AvaServe.Radix

open AvaServe.Foundation

/-- `TreeNode`. -/
structure TreeNode where
  children : AList fun _ : ChildKey => ℕ
  parent : Option ℕ
  key : RadixKey
  value : Option (List ℕ)
  lockRef : ℤ
  lastAccessTime : ℚ
  creationTime : ℚ
  hitCount : ℕ
  priority : ℤ

namespace TreeNode

/-- `evicted`. -/
def evicted (node : TreeNode) : Bool := node.value.isNone

/-- The indices a node holds; none once it is evicted. -/
def indices (node : TreeNode) : List ℕ := node.value.getD []

end TreeNode

/-- The clock readings of one call: the access time the call stamps on the nodes it
visits, and the two readings made when the node with a given id is created. -/
structure Clock where
  accessTime : ℚ
  nodeAccess : ℕ → ℚ
  nodeCreation : ℕ → ℚ

/-! ### Eviction strategies -/

/-- The eviction strategies. -/
inductive EvictionStrategy
  | lru
  | lfu
  | fifo
  | mru
  | filo
  | priority
  | slru (protectedThreshold : ℕ)
  deriving DecidableEq

/-- `get_priority`; a number is a tuple of one entry. -/
def EvictionStrategy.getPriority (strategy : EvictionStrategy) (node : TreeNode) : List ℚ :=
  match strategy with
  | .lru => [node.lastAccessTime]
  | .lfu => [node.hitCount, node.lastAccessTime]
  | .fifo => [node.creationTime]
  | .mru => [-node.lastAccessTime]
  | .filo => [-node.creationTime]
  | .priority => [node.priority, node.lastAccessTime]
  | .slru protectedThreshold =>
    [if protectedThreshold ≤ node.hitCount then 1 else 0, node.lastAccessTime]

/-- Comparison of Python tuples of numbers. -/
def tupleLt : List ℚ → List ℚ → Bool
  | [], [] => false
  | [], _ :: _ => true
  | _ :: _, [] => false
  | x :: left, y :: right => if x = y then tupleLt left right else decide (x < y)

/-- `RadixCache`. -/
structure RadixCache where
  disable : Bool
  pageSize : ℕ
  isEagle : Bool
  disableFinishedInsert : Bool
  evictionStrategy : EvictionStrategy
  node : ℕ → TreeNode
  counter : ℕ
  rootNode : ℕ
  evictableSize : ℤ
  protectedSize : ℤ
  evictableLeaves : Finset ℕ

/-- `MatchResult`. -/
structure MatchResult where
  deviceIndices : List ℕ
  lastDeviceNode : ℕ

/-- `InsertParams`. -/
structure InsertParams where
  key : RadixKey
  value : Option (List ℕ)
  priority : Option ℤ
  chunked : Bool

/-- `InsertResult`. -/
structure InsertResult where
  prefixLen : ℕ
  lastDeviceNode : Option ℕ

/-- `sys.maxsize`. -/
def maxsize : ℤ := 2 ^ 63 - 1

namespace RadixCache

variable (cache : RadixCache)

/-- One node is replaced. -/
def setNode (id : ℕ) (node : TreeNode) : RadixCache :=
  { cache with node := Function.update cache.node id node }

/-- One node is changed. -/
def modifyNode (id : ℕ) (change : TreeNode → TreeNode) : RadixCache :=
  cache.setNode id (change (cache.node id))

/-- Create a node under the next id. -/
def addNode (node : TreeNode) : RadixCache :=
  { cache.setNode cache.counter node with counter := cache.counter + 1 }

variable (clock : Clock)

/-- `reset`. -/
def reset : RadixCache :=
  { cache.addNode {
      children := ∅
      parent := none
      key := .init [] none false none none
      value := some []
      lockRef := 1
      lastAccessTime := clock.nodeAccess cache.counter
      creationTime := clock.nodeCreation cache.counter
      hitCount := 0
      priority := -maxsize } with
    rootNode := cache.counter
    evictableSize := 0
    protectedSize := 0
    evictableLeaves := ∅ }

/-- A heap entry under whose id no node has been created. -/
def blankNode : TreeNode where
  children := ∅
  parent := none
  key := .init [] none false none none
  value := none
  lockRef := 0
  lastAccessTime := 0
  creationTime := 0
  hitCount := 0
  priority := 0

/-- `__init__`. -/
def init (disable : Bool) (pageSize : ℕ) (isEagle disableFinishedInsert : Bool)
    (evictionStrategy : EvictionStrategy) (clock : Clock) : RadixCache :=
  reset {
    disable := disable
    pageSize := pageSize
    isEagle := isEagle
    disableFinishedInsert := disableFinishedInsert
    evictionStrategy := evictionStrategy
    node := fun _ => blankNode
    counter := 0
    rootNode := 0
    evictableSize := 0
    protectedSize := 0
    evictableLeaves := ∅ } clock

/-- The pointers of the tree; a node is filed under the child key of its own key. -/
def links : Links ℕ ChildKey where
  parent id := (cache.node id).parent
  label id := (cache.node id).key.childKey cache.pageSize
  child id key := (cache.node id).children.lookup key

/-! ### Leaves and splits -/

/-- `_update_leaf_status`. -/
def updateLeafStatus (id : ℕ) : RadixCache :=
  let node := cache.node id
  if node.evicted ∨ 0 < node.lockRef then
    { cache with evictableLeaves := cache.evictableLeaves.erase id }
  else if node.children.entries.any fun entry => !(cache.node entry.2).evicted then
    { cache with evictableLeaves := cache.evictableLeaves.erase id }
  else
    { cache with evictableLeaves := insert id cache.evictableLeaves }

/-- The leaf status of a node is kept in the set of evictable leaves alone. -/
theorem updateLeafStatus_frame (cache : RadixCache) (id : ℕ) : cache.updateLeafStatus id =
      { cache with evictableLeaves := (cache.updateLeafStatus id).evictableLeaves } := by
  unfold updateLeafStatus
  dsimp only
  split
  · rfl
  · split <;> rfl

/-- A node is an evictable leaf when it holds a value, no lock and no child that
holds a value. -/
def LeafReady (node : ℕ → TreeNode) (id : ℕ) : Prop :=
  (node id).evicted = false ∧ (node id).lockRef ≤ 0 ∧
    ∀ entry ∈ (node id).children.entries, (node entry.2).evicted = true

instance (node : ℕ → TreeNode) (id : ℕ) : Decidable (LeafReady node id) :=
  inferInstanceAs (Decidable (_ ∧ _ ∧ _))

/-- The leaves after an update. -/
theorem updateLeafStatus_leaves (cache : RadixCache) (id : ℕ) :
    (cache.updateLeafStatus id).evictableLeaves =
      if LeafReady cache.node id then Insert.insert id cache.evictableLeaves
      else cache.evictableLeaves.erase id := by
  unfold updateLeafStatus
  by_cases busy : (cache.node id).evicted = true ∨ 0 < (cache.node id).lockRef
  · rw [if_pos busy, if_neg]
    rintro ⟨valued, unlocked, -⟩
    rw [valued] at busy
    simp only [Bool.false_eq_true, false_or] at busy
    omega
  · rw [if_neg busy]
    simp only [not_or, not_lt, Bool.not_eq_true] at busy
    by_cases parent : (cache.node id).children.entries.any fun entry =>
        !(cache.node entry.2).evicted
    · rw [if_pos parent, if_neg]
      rintro ⟨-, -, none⟩
      obtain ⟨entry, member, valued⟩ := List.any_eq_true.mp parent
      rw [none entry member] at valued
      exact absurd valued (by decide)
    · rw [if_neg parent, if_pos]
      refine ⟨busy.1, busy.2, fun entry member => ?_⟩
      by_contra valued
      exact parent (List.any_eq_true.mpr ⟨entry, member, by simpa using valued⟩)

/-- It keeps the nodes. -/
@[simp] theorem updateLeafStatus_node (cache : RadixCache) (id : ℕ) :
    (cache.updateLeafStatus id).node = cache.node := by
  rw [updateLeafStatus_frame]

/-- `_split_node`: a new node takes the first `splitLen` units of `child` and its
place in the tree; `child` keeps the rest below it. -/
def splitNode (key : RadixKey) (child splitLen : ℕ) : RadixCache × ℕ :=
  let newNode := cache.counter
  let old := cache.node child
  let cache := cache.addNode {
    children := AList.singleton ((key.dropUnits splitLen).childKey cache.pageSize) child
    parent := old.parent
    key := old.key.takeUnits splitLen
    value := old.value.map (·.take splitLen)
    lockRef := old.lockRef
    lastAccessTime := clock.nodeAccess newNode
    creationTime := clock.nodeCreation newNode
    hitCount := old.hitCount
    priority := old.priority }
  let cache := cache.setNode child { old with
    parent := some newNode
    key := old.key.dropUnits splitLen
    value := old.value.map (·.drop splitLen) }
  let cache :=
    match old.parent with
    | none => cache
    | some parent => cache.modifyNode parent fun node =>
      { node with children := node.children.insert (key.childKey cache.pageSize) newNode }
  (cache, newNode)

/-! ### Matching -/

/-- Stamp a node with the access time of the call. -/
def touch (id : ℕ) : RadixCache :=
  cache.modifyNode id fun node => { node with lastAccessTime := clock.accessTime }

/-- The loop of `_match_prefix_helper`. -/
def matchLoop (clock : Clock) : ℕ → RadixCache → ℕ → RadixKey → List ℕ →
    Except IncompatibleKeys (RadixCache × List ℕ × ℕ)
  | 0, cache, node, _, value => .ok (cache, value, node)
  | fuel + 1, cache, node, key, value =>
    if 0 < key.len then
      match (cache.node node).children.lookup (key.childKey cache.pageSize) with
      | none => .ok (cache, value, node)
      | some child => do
          let cache := cache.touch clock child
          let prefixLen ← (cache.node child).key.matchKey key cache.pageSize
          if prefixLen < (cache.node child).key.len then
            let (cache, newNode) := cache.splitNode clock (cache.node child).key child prefixLen
            return (cache, value ++ (cache.node newNode).indices, newNode)
          else
            matchLoop clock fuel cache child (key.dropUnits prefixLen)
              (value ++ (cache.node child).indices)
    else .ok (cache, value, node)

/-- `_match_prefix_helper`. -/
def matchPrefixHelper (node : ℕ) (key : RadixKey) :
    Except IncompatibleKeys (RadixCache × List ℕ × ℕ) :=
  matchLoop clock key.len (cache.touch clock node) node key []

/-- `match_prefix`. -/
def matchPrefix (key : RadixKey) : Except IncompatibleKeys (RadixCache × MatchResult) := do
  let key := (key.maybeToBigramView cache.isEagle none).1
  if cache.disable ∨ key.len = 0 then
    return (cache, ⟨[], cache.rootNode⟩)
  let key := key.pageAligned cache.pageSize
  if key.len = 0 then
    return (cache, ⟨[], cache.rootNode⟩)
  let (cache, value, lastNode) ← cache.matchPrefixHelper clock cache.rootNode key
  return (cache, ⟨value, lastNode⟩)

/-! ### Inserting -/

/-- `_inc_hit_count`. -/
def incHitCount (id : ℕ) (chunked : Bool) : RadixCache :=
  if chunked then cache
  else cache.modifyNode id fun node => { node with hitCount := node.hitCount + 1 }

/-- The priority is raised. -/
def raisePriority (id : ℕ) (priority : ℤ) : RadixCache :=
  cache.modifyNode id fun node => { node with priority := max node.priority priority }

/-- The variables of the loop of `_insert_helper`. -/
structure InsertCursor where
  node : ℕ
  key : RadixKey
  value : List ℕ
  totalPrefixLength : ℕ

/-- Step to `node` past the first `prefixLen` units of the key. -/
def InsertCursor.advance (cursor : InsertCursor) (node prefixLen : ℕ) : InsertCursor where
  node := node
  key := cursor.key.dropUnits prefixLen
  value := cursor.value.drop prefixLen
  totalPrefixLength := cursor.totalPrefixLength + prefixLen

/-- The loop of `_insert_helper`. -/
def insertLoop (clock : Clock) (priority : ℤ) (chunked : Bool) :
    ℕ → RadixCache → InsertCursor → Except IncompatibleKeys (RadixCache × InsertCursor)
  | 0, cache, cursor => .ok (cache, cursor)
  | fuel + 1, cache, cursor =>
    if 0 < cursor.key.len then
      match (cache.node cursor.node).children.lookup (cursor.key.childKey cache.pageSize) with
      | none => .ok (cache, cursor)
      | some child => do
          let cache := cache.touch clock child
          let prefixLen ← (cache.node child).key.matchKey cursor.key cache.pageSize
          if prefixLen < (cache.node child).key.len then
            let (cache, newNode) := cache.splitNode clock (cache.node child).key child prefixLen
            let cache := (cache.raisePriority newNode priority).incHitCount newNode chunked
            insertLoop clock priority chunked fuel cache (cursor.advance newNode prefixLen)
          else
            let cache := (cache.raisePriority child priority).incHitCount child chunked
            insertLoop clock priority chunked fuel cache (cursor.advance child prefixLen)
    else .ok (cache, cursor)

/-- The end of `_insert_helper`: what is left of the key becomes a new leaf. -/
def insertLeaf (cursor : InsertCursor) (priority : ℤ)
    (chunked : Bool) : RadixCache × ℕ :=
  let newNode := cache.counter
  let cache := cache.addNode {
    children := ∅
    parent := some cursor.node
    key := cursor.key
    value := some cursor.value
    lockRef := 0
    lastAccessTime := clock.nodeAccess newNode
    creationTime := clock.nodeCreation newNode
    hitCount := 0
    priority := priority }
  let cache := cache.incHitCount newNode chunked
  let cache := cache.modifyNode cursor.node fun node =>
    { node with children := node.children.insert (cursor.key.childKey cache.pageSize) newNode }
  let cache := { cache with evictableSize := cache.evictableSize + cursor.key.len }
  ((cache.updateLeafStatus cursor.node).updateLeafStatus newNode, newNode)

/-- `_insert_helper`. -/
def insertHelper (node : ℕ) (key : RadixKey)
    (value : List ℕ) (priority : Option ℤ) (chunked : Bool) :
    Except IncompatibleKeys (RadixCache × ℕ × ℕ) := do
  let priority := priority.getD 0
  let cache := (cache.touch clock node).raisePriority node priority
  if key.len = 0 then
    return (cache, 0, node)
  let (cache, cursor) ← insertLoop clock priority chunked key.len cache ⟨node, key, value, 0⟩
  if 0 < cursor.key.len then
    let (cache, newNode) := cache.insertLeaf clock cursor priority chunked
    return (cache, cursor.totalPrefixLength, newNode)
  return (cache, cursor.totalPrefixLength, cursor.node)

/-- The key and the indices that `insert` hands to `_insert_helper`: the key in
the mode of the cache, cut to whole pages, and the indices cut to the key. Without
indices the token ids stand in for them. -/
def insertArgs (params : InsertParams) : RadixKey × List ℕ :=
  let (key, value) := params.key.maybeToBigramView cache.isEagle params.value
  let key := key.pageAligned cache.pageSize
  match value with
  | some value => (key, value.take key.len)
  | none => (key, key.tokenIds.take key.len)

/-- `insert`. -/
def insert (params : InsertParams) : Except IncompatibleKeys (RadixCache × InsertResult) := do
  if cache.disable then
    return (cache, ⟨0, none⟩)
  let (key, value) := cache.insertArgs params
  let (cache, prefixLen, lastNode) ←
    cache.insertHelper clock cache.rootNode key value params.priority params.chunked
  return (cache, ⟨prefixLen, some lastNode⟩)

/-! ### Locks -/

/-- The nodes a walk from `id` towards the root visits before the root. -/
def ancestors (id : ℕ) : Option (List ℕ) := cache.links.ancestors cache.rootNode cache.counter id

/-- The key length of a node whose lock count is `count`, and 0 for other nodes. -/
def lenAtLockRef (id : ℕ) (count : ℤ) : ℤ :=
  if (cache.node id).lockRef = count then (cache.node id).key.len else 0

/-- What one round of `inc_lock_ref` does to a node. -/
def lockNode (id : ℕ) : RadixCache :=
  { cache.modifyNode id fun node => { node with lockRef := node.lockRef + 1 } with
    evictableSize := cache.evictableSize - cache.lenAtLockRef id 0
    protectedSize := cache.protectedSize + cache.lenAtLockRef id 0 }.updateLeafStatus id

/-- What one round of `dec_lock_ref` does to a node. -/
def unlockNode (id : ℕ) : RadixCache :=
  { cache.modifyNode id fun node => { node with lockRef := node.lockRef - 1 } with
    evictableSize := cache.evictableSize + cache.lenAtLockRef id 1
    protectedSize := cache.protectedSize - cache.lenAtLockRef id 1 }.updateLeafStatus id

/-- `inc_lock_ref`, with the `delta` it reports; `none` when the walk leaves the
tree. -/
def incLockRef (id : ℕ) : Option (RadixCache × ℤ) :=
  if cache.disable then some (cache, 0)
  else (cache.ancestors id).map fun nodes => nodes.foldl
    (fun (cache, delta) id => (cache.lockNode id, delta - cache.lenAtLockRef id 0)) (cache, 0)

/-- `dec_lock_ref`; its assertion fails when the walk leaves the tree. -/
def decLockRef (id : ℕ) : Option (RadixCache × ℤ) :=
  if cache.disable then some (cache, 0)
  else (cache.ancestors id).map fun nodes => nodes.foldl
    (fun (cache, delta) id => (cache.unlockNode id, delta + cache.lenAtLockRef id 1)) (cache, 0)

/-! ### Eviction -/

/-- The body of `_delete_leaf` after its assertion. -/
def unlinkLeaf (id parent : ℕ) : RadixCache :=
  let node := cache.node id
  { cache.modifyNode parent fun above =>
      { above with children := above.children.erase (node.key.childKey cache.pageSize) } with
    evictableSize := cache.evictableSize - node.key.len
    evictableLeaves := cache.evictableLeaves.erase id }.updateLeafStatus parent

/-- `_delete_leaf`; `none` when its assertion fails. -/
def deleteLeaf (id : ℕ) : Option RadixCache :=
  let node := cache.node id
  match node.parent with
  | none => none
  | some parent =>
    if (cache.node parent).children.lookup (node.key.childKey cache.pageSize) = some id then
      some (cache.unlinkLeaf id parent)
    else none

/-- An entry of the eviction heap. -/
abbrev HeapEntry := List ℚ × ℕ

/-- The heap's entry for a leaf. -/
def heapEntry (id : ℕ) : HeapEntry := (cache.evictionStrategy.getPriority (cache.node id), id)

/-- Comparison of heap entries: by priority, then by `TreeNode.__lt__`. -/
def entryLt (left right : HeapEntry) : Bool :=
  if left.1 = right.1 then
    left.2 ≠ right.2 ∧ (cache.node left.2).lastAccessTime < (cache.node right.2).lastAccessTime
  else tupleLt left.1 right.1

/-- What one `evict` call has done so far: the nodes freed, in order, and the number
of their indices. -/
structure Evicted where
  nodes : List ℕ
  numEvicted : ℕ

/-- The loop of `evict`. -/
def evictLoop (numTokens : ℤ) : ℕ → RadixCache → List HeapEntry → Evicted →
    Option (RadixCache × Evicted)
  | 0, cache, _, evicted => some (cache, evicted)
  | fuel + 1, cache, heap, evicted =>
    if evicted.numEvicted < numTokens then
      match BinaryHeap.heappop cache.entryLt heap with
      | none => some (cache, evicted)
      | some (entry, heap) => do
          let x := entry.2
          let evicted : Evicted := {
            nodes := evicted.nodes ++ [x]
            numEvicted := evicted.numEvicted + (cache.node x).indices.length }
          let cache ← cache.deleteLeaf x
          let parent ← (cache.node x).parent
          if (cache.node parent).children = ∅ ∧ (cache.node parent).lockRef = 0 then
            evictLoop numTokens fuel cache
              (BinaryHeap.heappush cache.entryLt heap (cache.heapEntry parent)) evicted
          else
            evictLoop numTokens fuel cache heap evicted
    else some (cache, evicted)

/-- `evict`; `leaves` lists `evictableLeaves`. -/
def evict (numTokens : ℤ) (leaves : List ℕ) : Option (RadixCache × Evicted) :=
  if cache.disable then some (cache, ⟨[], 0⟩)
  else
    evictLoop numTokens cache.counter cache
      (BinaryHeap.heapify cache.entryLt (leaves.map cache.heapEntry)) ⟨[], 0⟩

end RadixCache

end AvaServe.Radix
