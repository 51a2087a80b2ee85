import AvaServe.Radix.RadixCache

/-!
# The prefix tree in the heap

What the nodes of a `RadixCache` spell. Every node stands for a word, `full`, and
for the indices stored along its path, `vals`; a node's key and value are what it
adds to its parent's. `WellFormed` ties the pointers, keys and values together.
Bookkeeping stamps leave it as it is, a split adds a word between two others, and
a new leaf adds a word below an existing one. No operation changes the word or the
indices of a node that stays in the tree.
-/

namespace AvaServe.Radix.RadixCache

open Foundation List Function Option Nat AList

open Classical in
/-- The nodes of the tree. -/
noncomputable def nodes (cache : RadixCache) : Finset ℕ :=
  (Finset.range cache.counter).filter fun id => cache.links.Reaches cache.rootNode id

/-- The namespace of a node's key. -/
def space (cache : RadixCache) (id : ℕ) : Option String × Option String :=
  (cache.node id).key.namespaceOf

variable {id : ℕ} {cache : RadixCache}

/-- A node of the tree is allotted and reached from the root. -/
theorem mem_nodes_iff :
    id ∈ cache.nodes ↔ id < cache.counter ∧ cache.links.Reaches cache.rootNode id := by
  simp [nodes]

/-- Nodes are below the counter. -/
theorem lt_counter_of_mem (member : id ∈ cache.nodes) : id < cache.counter :=
  (mem_nodes_iff.mp member).1

variable (cache : RadixCache)

/-- The next id is no node yet. -/
theorem counter_notMem_nodes : cache.counter ∉ cache.nodes :=
  fun member => lt_irrefl _ (lt_counter_of_mem member)

/-- There are no more nodes than allotted ids. -/
theorem card_nodes_le : cache.nodes.card ≤ cache.counter := by
  have bounded : cache.nodes ⊆ Finset.range cache.counter :=
    fun id member => Finset.mem_range.mpr (lt_counter_of_mem member)
  simpa using Finset.card_le_card bounded

/-- A set of ids that the pointers describe as a tree is the set of nodes. -/
theorem nodes_eq_of_tree {cache : RadixCache} {dom : Finset ℕ} {rank : ℕ → ℕ}
    (tree : LinkedTree cache.rootNode dom cache.links rank)
    (bounded : ∀ id ∈ dom, id < cache.counter) : cache.nodes = dom := by
  ext id
  rw [mem_nodes_iff, tree.reaches_iff]
  exact ⟨And.right, fun member => ⟨bounded id member, member⟩⟩

/-- A tree on one more node has that node. -/
theorem nodes_eq_insert {after : RadixCache} {rank : ℕ → ℕ} (root : after.rootNode = cache.rootNode)
    (counter : after.counter = cache.counter + 1)
    (tree : LinkedTree cache.rootNode (Insert.insert cache.counter cache.nodes) after.links rank) :
    after.nodes = Insert.insert cache.counter cache.nodes := by
  rw [← root] at tree
  refine nodes_eq_of_tree tree fun id member => ?_
  rw [counter]
  obtain rfl | member := Finset.mem_insert.mp member
  · exact lt_succ_self _
  · exact (lt_counter_of_mem member).trans (lt_succ_self _)

/-- The tree spells the words `full` and stores the indices `vals` along them. -/
structure WellFormed (cache : RadixCache) (full : ℕ → List KeyUnit) (vals : ℕ → List ℕ) : Prop where
  positive : 0 < cache.pageSize
  tree : LinkedTree cache.rootNode cache.nodes cache.links fun id => (full id).length
  full_root : full cache.rootNode = []
  vals_root : vals cache.rootNode = []
  full_eq : ∀ id ∈ cache.nodes, ∀ above, (cache.node id).parent = some above →
    full id = full above ++ (cache.node id).key.units
  vals_eq : ∀ id ∈ cache.nodes, ∀ above, (cache.node id).parent = some above →
    vals id = vals above ++ (cache.node id).indices
  aligned : ∀ id ∈ cache.nodes, cache.pageSize ∣ (cache.node id).key.len
  valued : ∀ id ∈ cache.nodes, (cache.node id).evicted = false
  length_eq : ∀ id ∈ cache.nodes, (cache.node id).indices.length = (cache.node id).key.len
  space_eq : ∀ id ∈ cache.nodes, ∀ above, (cache.node id).parent = some above →
    above ≠ cache.rootNode → cache.space above = cache.space id
  root_lock : (cache.node cache.rootNode).lockRef = 1

namespace WellFormed

variable {cache : RadixCache} {full : ℕ → List KeyUnit} {vals : ℕ → List ℕ}
variable (wf : WellFormed cache full vals)
include wf

/-- The root is a node. -/
theorem root_mem : cache.rootNode ∈ cache.nodes := wf.tree.root_mem

variable (member : id ∈ cache.nodes) (notRoot : id ≠ cache.rootNode)

include member

/-- Words are whole pages. -/
theorem length_full_dvd : cache.pageSize ∣ (full id).length := by
  refine wf.tree.induction_on member ?_ fun id member _ above _ parent _ divides => ?_
  · rw [wf.full_root]
    exact dvd_zero _
  · rw [wf.full_eq id member above parent, length_append, RadixKey.length_units]
    exact divides.add (wf.aligned id member)

/-- A node's values match its word. -/
theorem length_vals : (vals id).length = (full id).length := by
  refine wf.tree.induction_on member ?_ fun id member _ above _ parent _ same => ?_
  · rw [wf.full_root, wf.vals_root]
    rfl
  · rw [wf.full_eq id member above parent, wf.vals_eq id member above parent, length_append,
      length_append, RadixKey.length_units, wf.length_eq id member, same]

/-- Climbing from a node leads to prefixes of its word. -/
theorem full_prefix_of_climbs {above : ℕ} (climbs : cache.links.Climbs id above) :
    full above <+: full id := by
  induction climbs with
  | refl => exact prefix_rfl
  | tail climbs step ih =>
    have inside := wf.tree.mem_of_climbs member climbs
    have word := wf.full_eq _ inside _ step
    exact (word ▸ prefix_append _ _).trans ih

/-- The namespace is that of every node above but the root. -/
theorem space_of_climbs {above : ℕ} (climbs : cache.links.Climbs id above)
    (notRoot : above ≠ cache.rootNode) : cache.space above = cache.space id := by
  induction climbs with
  | refl => rfl
  | tail climbs step ih =>
    have inside := wf.tree.mem_of_climbs member climbs
    have notRoot' := (wf.tree.parent_eq inside step).2.1
    rw [wf.space_eq _ inside _ step notRoot, ih notRoot']

include notRoot

/-- A node other than the root has a parent. -/
theorem exists_parent : ∃ above ∈ cache.nodes, (cache.node id).parent = some above := by
  obtain ⟨above, aboveMem, parent, -⟩ := wf.tree.parent_mem id member notRoot
  exact ⟨above, aboveMem, parent⟩

/-- A key has at least a page. -/
theorem pageSize_le_len : cache.pageSize ≤ (cache.node id).key.len := by
  obtain ⟨above, aboveMem, parent, lower⟩ := wf.tree.parent_mem id member notRoot
  have word := wf.full_eq id member above parent
  rw [word, length_append, RadixKey.length_units] at lower
  exact le_of_dvd (by omega) (wf.aligned id member)

end WellFormed

/-- What well-formedness asks of one node. -/
structure NodeFormed (cache : RadixCache) (full : ℕ → List KeyUnit) (vals : ℕ → List ℕ)
    (id : ℕ) : Prop where
  aligned : cache.pageSize ∣ (cache.node id).key.len
  valued : (cache.node id).evicted = false
  length_eq : (cache.node id).indices.length = (cache.node id).key.len
  below : ∀ above, (cache.node id).parent = some above →
    full id = full above ++ (cache.node id).key.units ∧
      vals id = vals above ++ (cache.node id).indices ∧
      (above ≠ cache.rootNode → cache.space above = cache.space id)

namespace WellFormed

variable {cache after : RadixCache} {full fullAfter : ℕ → List KeyUnit}
  {vals valsAfter : ℕ → List ℕ}

/-- Well-formedness from its parts. -/
theorem of_nodes (positive : 0 < cache.pageSize)
    (tree : LinkedTree cache.rootNode cache.nodes cache.links fun id => (full id).length)
    (full_root : full cache.rootNode = []) (vals_root : vals cache.rootNode = [])
    (formed : ∀ id ∈ cache.nodes, NodeFormed cache full vals id)
    (root_lock : (cache.node cache.rootNode).lockRef = 1) : WellFormed cache full vals :=
  ⟨positive, tree, full_root, vals_root,
    fun id member above parent => ((formed id member).below above parent).1,
    fun id member above parent => ((formed id member).below above parent).2.1,
    fun id member => (formed id member).aligned, fun id member => (formed id member).valued,
    fun id member => (formed id member).length_eq,
    fun id member above parent => ((formed id member).below above parent).2.2, root_lock⟩

/-- A node that keeps its parent, key and value stays well-formed. -/
theorem nodeFormed_of_kept (wf : WellFormed cache full vals)
    (size : after.pageSize = cache.pageSize) (root : after.rootNode = cache.rootNode)
    (member : id ∈ cache.nodes)
    (kept : (after.node id).parent = (cache.node id).parent ∧
      (after.node id).key = (cache.node id).key ∧ (after.node id).value = (cache.node id).value)
    (same : ∀ other ∈ cache.nodes, fullAfter other = full other ∧ valsAfter other = vals other ∧
      after.space other = cache.space other) : NodeFormed after fullAfter valsAfter id := by
  obtain ⟨parent, key, value⟩ := kept
  have indices : (after.node id).indices = (cache.node id).indices := by
    rw [TreeNode.indices, value, TreeNode.indices]
  refine ⟨?_, ?_, ?_, fun above found => ?_⟩
  · rw [size, key]
    exact wf.aligned id member
  · rw [TreeNode.evicted, value]
    exact wf.valued id member
  · rw [indices, key]
    exact wf.length_eq id member
  · rw [parent] at found
    obtain ⟨full, vals, space⟩ := same id member
    obtain ⟨fullAbove, valsAbove, spaceAbove⟩ := same above (wf.tree.parent_eq member found).1
    rw [full, vals, space, fullAbove, valsAbove, spaceAbove, key, indices, root]
    exact ⟨wf.full_eq id member above found, wf.vals_eq id member above found,
      wf.space_eq id member above found⟩

end WellFormed

/-! ### Changes that keep the shape -/

/-- The caches agree on the pointers, keys and values of all nodes. -/
structure SameShape (before after : RadixCache) : Prop where
  pageSize : after.pageSize = before.pageSize
  counter : after.counter = before.counter
  rootNode : after.rootNode = before.rootNode
  children : ∀ id, (after.node id).children = (before.node id).children
  parent : ∀ id, (after.node id).parent = (before.node id).parent
  key : ∀ id, (after.node id).key = (before.node id).key
  value : ∀ id, (after.node id).value = (before.node id).value

namespace SameShape

variable {before after : RadixCache}
variable (same : SameShape before after)
include same

/-- The links stay. -/
theorem links : after.links = before.links := by
  unfold RadixCache.links
  simp [same.parent, same.key, same.children, same.pageSize]

/-- The nodes stay. -/
theorem nodes : after.nodes = before.nodes := by
  ext id
  rw [mem_nodes_iff, mem_nodes_iff, same.links, same.counter, same.rootNode]

/-- The namespaces stay. -/
theorem space (id : ℕ) : after.space id = before.space id := by
  unfold RadixCache.space
  rw [same.key]

/-- Well-formedness reads the shape and the root's lock. -/
theorem wellFormed {full : ℕ → List KeyUnit} {vals : ℕ → List ℕ} (wf : WellFormed before full vals)
    (root_lock : (after.node after.rootNode).lockRef = 1) : WellFormed after full vals := by
  refine .of_nodes (same.pageSize ▸ wf.positive) ?_ (same.rootNode ▸ wf.full_root)
    (same.rootNode ▸ wf.vals_root) (fun id member => ?_) root_lock
  · rw [same.rootNode, same.nodes, same.links]
    exact wf.tree
  · exact wf.nodeFormed_of_kept same.pageSize same.rootNode (same.nodes ▸ member)
      ⟨same.parent id, same.key id, same.value id⟩ fun other _ => ⟨rfl, rfl, same.space other⟩

end SameShape

/-! ### Bookkeeping stamps -/

/-- The caches differ at most in access times, hit counts and priorities. -/
structure Stamped (before after : RadixCache) : Prop where
  frame : after = { before with node := after.node }
  children : ∀ id, (after.node id).children = (before.node id).children
  parent : ∀ id, (after.node id).parent = (before.node id).parent
  key : ∀ id, (after.node id).key = (before.node id).key
  value : ∀ id, (after.node id).value = (before.node id).value
  lockRef : ∀ id, (after.node id).lockRef = (before.node id).lockRef

namespace Stamped

variable {before middle after : RadixCache} (cache : RadixCache)

/-- Nothing is stamped. -/
theorem refl : Stamped cache cache :=
  ⟨rfl, fun _ => rfl, fun _ => rfl, fun _ => rfl, fun _ => rfl, fun _ => rfl⟩

/-- Stamps one after the other. -/
theorem trans (first : Stamped before middle) (second : Stamped middle after) :
    Stamped before after where
  frame := by rw [second.frame, first.frame]
  children id := (second.children id).trans (first.children id)
  parent id := (second.parent id).trans (first.parent id)
  key id := (second.key id).trans (first.key id)
  value id := (second.value id).trans (first.value id)
  lockRef id := (second.lockRef id).trans (first.lockRef id)

/-- A change of stamps in one node. -/
theorem of_modifyNode (cache : RadixCache) (id : ℕ) (change : TreeNode → TreeNode)
    (stamps : ∀ node, ∃ time count priority, change node =
      { node with lastAccessTime := time, hitCount := count, priority := priority }) :
    Stamped cache (cache.modifyNode id change) := by
  have entry (other : ℕ) : ∃ time count priority, (cache.modifyNode id change).node other =
      { cache.node other with
        lastAccessTime := time, hitCount := count, priority := priority } := by
    by_cases same : other = id
    · obtain ⟨time, count, priority, stamped⟩ := stamps (cache.node other)
      exact ⟨time, count, priority, by rw [← stamped, same]; exact update_self ..⟩
    · exact ⟨_, _, _, update_of_ne same ..⟩
  refine ⟨rfl, ?_, ?_, ?_, ?_, ?_⟩ <;> intro other <;>
    obtain ⟨_, _, _, stamped⟩ := entry other <;> rw [stamped]

/-- An access is a stamp. -/
theorem touch (clock : Clock) (id : ℕ) : Stamped cache (cache.touch clock id) :=
  of_modifyNode _ _ _ fun _ => ⟨_, _, _, rfl⟩

/-- So is a higher priority. -/
theorem raisePriority (id : ℕ) (priority : ℤ) : Stamped cache (cache.raisePriority id priority) :=
  of_modifyNode _ _ _ fun _ => ⟨_, _, _, rfl⟩

/-- So is a hit. -/
theorem incHitCount (id : ℕ) (chunked : Bool) : Stamped cache (cache.incHitCount id chunked) := by
  unfold RadixCache.incHitCount
  split
  · exact refl cache
  · exact of_modifyNode _ _ _ fun _ => ⟨_, _, _, rfl⟩

section

variable (stamped : Stamped before after)
include stamped

/-- Stamps keep the shape. -/
theorem sameShape : SameShape before after :=
  { stamped with
    pageSize := by rw [stamped.frame]
    counter := by rw [stamped.frame]
    rootNode := by rw [stamped.frame] }

/-- Stamps keep the page size. -/
theorem pageSize : after.pageSize = before.pageSize := stamped.sameShape.pageSize

/-- Stamps keep the root. -/
theorem rootNode : after.rootNode = before.rootNode := stamped.sameShape.rootNode

/-- Stamps keep the links. -/
theorem links : after.links = before.links := stamped.sameShape.links

/-- Stamps keep the nodes. -/
theorem nodes : after.nodes = before.nodes := stamped.sameShape.nodes

/-- Stamps keep the namespaces. -/
theorem space (id : ℕ) : after.space id = before.space id := stamped.sameShape.space id

/-- Stamps keep the cache well formed. -/
theorem wellFormed {full : ℕ → List KeyUnit}
    {vals : ℕ → List ℕ} (wf : WellFormed before full vals) : WellFormed after full vals := by
  refine stamped.sameShape.wellFormed wf ?_
  rw [stamped.rootNode, stamped.lockRef]
  exact wf.root_lock

end

end Stamped

/-! ### Splits -/

/-- A lookup after an insertion. -/
theorem lookup_insert_eq {α β : Type*} [DecidableEq α] (entries : AList fun _ : α => β)
    (key other : α) (value : β) : (entries.insert key value).lookup other =
      if other = key then some value else entries.lookup other := by
  split
  next same => rw [same, lookup_insert]
  next same => exact lookup_insert_ne same

/-- Where the loops split: inside the key of a node below the root, between two
pages. -/
structure SplitPoint (cache : RadixCache) (child above splitLen : ℕ) : Prop where
  member : child ∈ cache.nodes
  parent : (cache.node child).parent = some above
  positive : 0 < splitLen
  short : splitLen < (cache.node child).key.len
  whole : cache.pageSize ∣ splitLen

namespace SplitPoint

variable {cache : RadixCache} {full : ℕ → List KeyUnit} {vals : ℕ → List ℕ}
variable {child above splitLen : ℕ}
variable (point : SplitPoint cache child above splitLen) (wf : WellFormed cache full vals)
  (clock : Clock)
include point

/-- The cache after the split. -/
abbrev result (_ : SplitPoint cache child above splitLen) (clock : Clock) : RadixCache :=
  (cache.splitNode clock (cache.node child).key child splitLen).1

/-- The child is not the new node. -/
theorem child_ne : child ≠ cache.counter := (lt_counter_of_mem point.member).ne

/-- A split changes the nodes and the counter. -/
theorem frame : point.result clock =
      { cache with node := (point.result clock).node, counter := cache.counter + 1 } := by
  simp only [result, splitNode, point.parent]
  rfl

/-- The other nodes stay. -/
theorem node_other {id : ℕ} (notAbove : id ≠ above) (notChild : id ≠ child)
    (notFresh : id ≠ cache.counter) : (point.result clock).node id = cache.node id := by
  simp [result, splitNode, point.parent, modifyNode, setNode, addNode, notAbove, notChild, notFresh]

/-- The words after the split: the new node spells the first part of the child. -/
def fullAfter (_ : SplitPoint cache child above splitLen) (full : ℕ → List KeyUnit) :
    ℕ → List KeyUnit :=
  update full cache.counter
    (full above ++ (cache.node child).key.units.take splitLen)

/-- The values after the split. -/
def valsAfter (_ : SplitPoint cache child above splitLen) (vals : ℕ → List ℕ) : ℕ → List ℕ :=
  update vals cache.counter
    (vals above ++ (cache.node child).indices.take splitLen)

/-- The word of the new node. -/
theorem fullAfter_fresh : point.fullAfter full cache.counter =
      full above ++ (cache.node child).key.units.take splitLen :=
  update_self ..

/-- The old nodes keep their words. -/
theorem fullAfter_of_mem {id : ℕ} (member : id ∈ cache.nodes) : point.fullAfter full id = full id :=
  update_of_ne (lt_counter_of_mem member).ne ..

/-- The values of the new node. -/
theorem valsAfter_fresh :
    point.valsAfter vals cache.counter = vals above ++ (cache.node child).indices.take splitLen :=
  update_self ..

/-- The old nodes keep their values. -/
theorem valsAfter_of_mem (member : id ∈ cache.nodes) : point.valsAfter vals id = vals id :=
  update_of_ne (lt_counter_of_mem member).ne ..

/-- The new node's word ends at the split. -/
theorem length_fullAfter_fresh :
    (point.fullAfter full cache.counter).length = (full above).length + splitLen := by
  rw [point.fullAfter_fresh, length_append, length_take, RadixKey.length_units,
    min_eq_left point.short.le]

include wf

/-- The parent is a node. -/
theorem above_mem : above ∈ cache.nodes := (wf.tree.parent_eq point.member point.parent).1

/-- The child is not the root. -/
theorem child_notRoot : child ≠ cache.rootNode := (wf.tree.parent_eq point.member point.parent).2.1

/-- The parent is not the new node. -/
theorem above_ne : above ≠ cache.counter := (lt_counter_of_mem (point.above_mem wf)).ne

/-- The parent is not the child. -/
theorem above_ne_child : above ≠ child := by
  rintro rfl
  exact lt_irrefl _ (wf.tree.parent_eq point.member point.parent).2.2

/-- The parent's entry leads to the new node. -/
theorem node_above : (point.result clock).node above = { cache.node above with
      children := (cache.node above).children.insert
        ((cache.node child).key.childKey cache.pageSize) cache.counter } := by
  simp [result, splitNode, point.parent, modifyNode, setNode, addNode, point.above_ne wf,
    point.above_ne_child wf]

/-- The child keeps the rest of its key. -/
theorem node_child : (point.result clock).node child = { cache.node child with
      parent := some cache.counter
      key := (cache.node child).key.dropUnits splitLen
      value := (cache.node child).value.map (·.drop splitLen) } := by
  simp [result, splitNode, point.parent, modifyNode, setNode, (point.above_ne_child wf).symm]

/-- The new node has the front of the key. -/
theorem node_fresh : (point.result clock).node cache.counter = {
      children := singleton
        (((cache.node child).key.dropUnits splitLen).childKey cache.pageSize) child
      parent := some above
      key := (cache.node child).key.takeUnits splitLen
      value := (cache.node child).value.map (·.take splitLen)
      lockRef := (cache.node child).lockRef
      lastAccessTime := clock.nodeAccess cache.counter
      creationTime := clock.nodeCreation cache.counter
      hitCount := (cache.node child).hitCount
      priority := (cache.node child).priority } := by
  simp [result, splitNode, point.parent, modifyNode, setNode, addNode,
    (point.above_ne wf).symm, point.child_ne.symm]

/-- A split splices the links. -/
theorem links : (point.result clock).links = cache.links.splice cache.counter child
        (((cache.node child).key.dropUnits splitLen).childKey cache.pageSize) := by
  have size : (point.result clock).pageSize = cache.pageSize := by rw [point.frame]
  have page : cache.pageSize ≤ splitLen := le_of_dvd point.positive point.whole
  have freshNe := point.child_ne.symm
  have aboveNe := point.above_ne wf
  have aboveNeChild := point.above_ne_child wf
  have label := RadixKey.childKey_takeUnits wf.positive page (page.trans point.short.le)
  ext1
  -- the parents and the labels
  iterate 2
    funext id
    simp only [RadixCache.links, Links.splice, size]
    by_cases isChild : id = child
    · simp [isChild, point.node_child wf]
    · by_cases isFresh : id = cache.counter
      · simp [isFresh, point.node_fresh wf, freshNe, point.parent, label]
      · by_cases isAbove : id = above
        · simp [isAbove, point.node_above wf, aboveNe, aboveNeChild]
        · simp [isChild, isFresh, point.node_other clock isAbove isChild isFresh]
  · funext id key
    simp only [RadixCache.links, Links.splice, point.parent, some.injEq]
    by_cases isFresh : id = cache.counter
    · simp only [isFresh, point.node_fresh wf, ↓reduceIte]
      rw [← insert_empty, lookup_insert_eq, lookup_empty]
    · by_cases isAbove : id = above
      · simp only [isAbove, point.node_above wf, aboveNe, ↓reduceIte, true_and]
        exact lookup_insert_eq ..
      · have notHere : ¬ (above = id ∧ key = (cache.node child).key.childKey cache.pageSize) :=
          fun both => isAbove both.1.symm
        rw [if_neg isFresh, if_neg notHere]
        by_cases isChild : id = child
        · simp [isChild, point.node_child wf]
        · rw [point.node_other clock isAbove isChild isFresh]

/-- They are a tree again. -/
theorem tree :
    LinkedTree cache.rootNode (Insert.insert cache.counter cache.nodes) (point.result clock).links
      fun id => (point.fullAfter full id).length := by
  have kept := wf.tree.congr_rank fun id member =>
    congrArg length (@fullAfter_of_mem _ full _ _ _ point _ member)
  rw [point.links wf clock]
  have positive := point.positive
  have short := point.short
  refine kept.splice cache.counter_notMem_nodes point.member point.parent ?_ ?_
  · rw [point.length_fullAfter_fresh, point.fullAfter_of_mem (point.above_mem wf)]
    omega
  · rw [point.length_fullAfter_fresh, point.fullAfter_of_mem point.member,
      wf.full_eq child point.member above point.parent, length_append, RadixKey.length_units]
    omega

/-- One node more. -/
theorem nodes : (point.result clock).nodes = Insert.insert cache.counter cache.nodes :=
  nodes_eq_insert cache (by rw [point.frame]) (by rw [point.frame]) (point.tree wf clock)

/-- A node after the split is the new one, the child, or an old one that kept its
entry but for the children. -/
theorem node_cases {id : ℕ} (member : id ∈ (point.result clock).nodes) :
    id = cache.counter ∨ id = child ∨ id ∈ cache.nodes ∧ id ≠ child ∧
      ∃ children, (point.result clock).node id = { cache.node id with children := children } := by
  rw [point.nodes wf clock] at member
  obtain isFresh | member := Finset.mem_insert.mp member
  · exact .inl isFresh
  · by_cases isChild : id = child
    · exact .inr (.inl isChild)
    · refine .inr (.inr ⟨member, isChild, ?_⟩)
      by_cases isAbove : id = above
      · rw [isAbove]
        exact ⟨_, point.node_above wf clock⟩
      · exact ⟨_, point.node_other clock isAbove isChild (lt_counter_of_mem member).ne⟩

/-- The new node has the front of the slots. -/
theorem indices_fresh : ((point.result clock).node cache.counter).indices =
      (cache.node child).indices.take splitLen := by
  rw [point.node_fresh wf, TreeNode.indices, TreeNode.indices]
  cases (cache.node child).value <;> simp

/-- The child keeps the rest of them. -/
theorem indices_child :
    ((point.result clock).node child).indices = (cache.node child).indices.drop splitLen := by
  rw [point.node_child wf, TreeNode.indices, TreeNode.indices]
  cases (cache.node child).value <;> simp

/-- The new node is in the child's namespace. -/
theorem space_fresh : (point.result clock).space cache.counter = cache.space child := by
  simp [space, point.node_fresh wf]

/-- The old nodes keep namespace and lock. -/
theorem kept_of_mem (member : id ∈ cache.nodes) : (point.result clock).space id = cache.space id ∧
    ((point.result clock).node id).lockRef = (cache.node id).lockRef := by
  have inside : id ∈ (point.result clock).nodes :=
    point.nodes wf clock ▸ Finset.mem_insert_of_mem member
  obtain isFresh | isChild | ⟨-, -, children, entry⟩ := point.node_cases wf clock inside
  · exact absurd (isFresh ▸ member) cache.counter_notMem_nodes
  · simp [space, isChild, point.node_child wf]
  · simp [space, entry]

/-- The old nodes keep their namespace. -/
theorem space_of_mem (member : id ∈ cache.nodes) :
    (point.result clock).space id = cache.space id := (point.kept_of_mem wf clock member).1

/-- A split keeps the cache well formed. -/
theorem wellFormed :
    WellFormed (point.result clock) (point.fullAfter full) (point.valsAfter vals) := by
  have root : (point.result clock).rootNode = cache.rootNode := by rw [point.frame]
  have size : (point.result clock).pageSize = cache.pageSize := by rw [point.frame]
  have aboveMem := point.above_mem wf
  refine .of_nodes (size ▸ wf.positive) ?_ ?_ ?_ (fun id inside => ?_) ?_
  · rw [root, point.nodes wf clock]
    exact point.tree wf clock
  · rw [root, point.fullAfter_of_mem wf.root_mem, wf.full_root]
  · rw [root, point.valsAfter_of_mem wf.root_mem, wf.vals_root]
  · have total := wf.length_eq child point.member
    have valued := wf.valued child point.member
    obtain isFresh | isChild | ⟨member, -, children, entry⟩ := point.node_cases wf clock inside
    · subst isFresh
      have entry := point.node_fresh wf clock
      have indices := point.indices_fresh wf clock
      refine ⟨?_, ?_, ?_, fun parent found => ?_⟩
      · rw [entry, size, RadixKey.len_takeUnits, min_eq_left point.short.le]
        exact point.whole
      · rw [entry]
        simpa [TreeNode.evicted] using valued
      · rw [indices, entry, RadixKey.len_takeUnits, length_take, total]
      · rw [entry] at found
        cases found
        rw [indices, entry, point.fullAfter_fresh, point.fullAfter_of_mem aboveMem,
          RadixKey.units_takeUnits, point.valsAfter_fresh, point.valsAfter_of_mem aboveMem,
          point.space_fresh wf, point.space_of_mem wf clock aboveMem, root]
        exact ⟨rfl, rfl, wf.space_eq child point.member _ point.parent⟩
    · subst isChild
      have entry := point.node_child wf clock
      have indices := point.indices_child wf clock
      refine ⟨?_, ?_, ?_, fun parent found => ?_⟩
      · rw [entry, size, RadixKey.len_dropUnits]
        exact dvd_sub (wf.aligned id point.member) point.whole
      · rw [entry]
        simpa [TreeNode.evicted] using valued
      · rw [indices, entry, RadixKey.len_dropUnits, length_drop, total]
      · rw [entry] at found
        cases found
        rw [indices, entry, point.fullAfter_fresh, point.fullAfter_of_mem point.member,
          RadixKey.units_dropUnits, wf.full_eq id point.member above point.parent, append_assoc,
          take_append_drop, point.valsAfter_fresh, point.valsAfter_of_mem point.member,
          wf.vals_eq id point.member above point.parent, append_assoc, take_append_drop,
          point.space_fresh wf, point.space_of_mem wf clock point.member]
        exact ⟨rfl, rfl, fun _ => rfl⟩
    · exact wf.nodeFormed_of_kept size root member (entry ▸ ⟨rfl, rfl, rfl⟩) fun other inside =>
        ⟨point.fullAfter_of_mem inside, point.valsAfter_of_mem inside,
          point.space_of_mem wf clock inside⟩
  · rw [root, (point.kept_of_mem wf clock wf.root_mem).2]
    exact wf.root_lock

end SplitPoint

/-! ### New leaves -/

/-- Where `_insert_helper` adds a leaf: at a node of the tree that files nothing
under the key's first page. -/
structure LeafPoint (cache : RadixCache) (cursor : InsertCursor) : Prop where
  member : cursor.node ∈ cache.nodes
  positive : 0 < cursor.key.len
  whole : cache.pageSize ∣ cursor.key.len
  valued : cursor.value.length = cursor.key.len
  vacant : (cache.node cursor.node).children.lookup (cursor.key.childKey cache.pageSize) = none
  space : cursor.node ≠ cache.rootNode → cache.space cursor.node = cursor.key.namespaceOf

namespace LeafPoint

variable {cache : RadixCache} {cursor : InsertCursor}
variable {full : ℕ → List KeyUnit} {vals : ℕ → List ℕ} (point : LeafPoint cache cursor)

/-- The cache with the new leaf. -/
abbrev result (_ : LeafPoint cache cursor) (clock : Clock) (priority : ℤ) (chunked : Bool) :
    RadixCache :=
  (cache.insertLeaf clock cursor priority chunked).1

/-- The words with the new leaf, which spells its parent's word and the key. -/
def fullAfter (_ : LeafPoint cache cursor) (full : ℕ → List KeyUnit) : ℕ → List KeyUnit :=
  update full cache.counter (full cursor.node ++ cursor.key.units)

/-- The values after the insertion. -/
def valsAfter (_ : LeafPoint cache cursor) (vals : ℕ → List ℕ) : ℕ → List ℕ :=
  update vals cache.counter (vals cursor.node ++ cursor.value)

include point

/-- The parent is not the new leaf. -/
theorem node_ne : cursor.node ≠ cache.counter := (lt_counter_of_mem point.member).ne

/-- The word of the new leaf. -/
theorem fullAfter_fresh :
    point.fullAfter full cache.counter = full cursor.node ++ cursor.key.units :=
  update_self ..

/-- The old nodes keep their words. -/
theorem fullAfter_of_mem {id : ℕ} (member : id ∈ cache.nodes) : point.fullAfter full id = full id :=
  update_of_ne (lt_counter_of_mem member).ne ..

/-- The values of the new leaf. -/
theorem valsAfter_fresh : point.valsAfter vals cache.counter = vals cursor.node ++ cursor.value :=
  update_self ..

/-- The old nodes keep their values. -/
theorem valsAfter_of_mem (member : id ∈ cache.nodes) : point.valsAfter vals id = vals id :=
  update_of_ne (lt_counter_of_mem member).ne ..

end LeafPoint

/-- What a new leaf changes. -/
structure Inserted (cache after : RadixCache) (cursor : InsertCursor) : Prop where
  frame : after = { cache with
    node := after.node
    counter := cache.counter + 1
    evictableSize := cache.evictableSize + cursor.key.len
    evictableLeaves := after.evictableLeaves }
  leaves : let aboveDone := if LeafReady after.node cursor.node
      then Insert.insert cursor.node cache.evictableLeaves
      else cache.evictableLeaves.erase cursor.node
    after.evictableLeaves = if LeafReady after.node cache.counter
      then Insert.insert cache.counter aboveDone else aboveDone.erase cache.counter
  node_fresh : let entry := after.node cache.counter
    entry.children = ∅ ∧ entry.parent = some cursor.node ∧ entry.key = cursor.key ∧
      entry.value = some cursor.value ∧ entry.lockRef = 0
  node_above : after.node cursor.node = { cache.node cursor.node with
    children := (cache.node cursor.node).children.insert
      (cursor.key.childKey cache.pageSize) cache.counter }
  node_other : ∀ id, id ≠ cursor.node → id ≠ cache.counter → after.node id = cache.node id

/-- The new leaf is inserted below the cursor. -/
theorem LeafPoint.inserted {cache : RadixCache} {cursor : InsertCursor}
    (point : LeafPoint cache cursor) (clock : Clock) (priority : ℤ) (chunked : Bool) :
    Inserted cache (point.result clock priority chunked) cursor := by
  have different := point.node_ne
  refine ⟨?_, ?_, ?_, ?_, fun id notAbove notFresh => ?_⟩
  · simp only [result, insertLeaf]
    rw [updateLeafStatus_frame, updateLeafStatus_frame]
    unfold incHitCount
    split <;> rfl
  · dsimp only [result, insertLeaf]
    rw [updateLeafStatus_leaves, updateLeafStatus_leaves]
    simp only [updateLeafStatus_node]
    cases chunked <;> rfl
  · cases chunked <;>
      simp [result, insertLeaf, incHitCount, modifyNode, setNode, addNode, different.symm]
  · cases chunked <;>
      simp [result, insertLeaf, incHitCount, modifyNode, setNode, addNode, different]
  · cases chunked <;>
      simp [result, insertLeaf, incHitCount, modifyNode, setNode, addNode, notAbove, notFresh]

namespace Inserted

variable {cache after : RadixCache} {cursor : InsertCursor}
variable {full : ℕ → List KeyUnit} {vals : ℕ → List ℕ}
variable (inserted : Inserted cache after cursor) (point : LeafPoint cache cursor)
  (wf : WellFormed cache full vals)
include inserted

/-- The old nodes change in their children at most. -/
theorem node_of_mem (member : id ∈ cache.nodes) :
    ∃ children, after.node id = { cache.node id with children := children } := by
  by_cases isAbove : id = cursor.node
  · rw [isAbove]
    exact ⟨_, inserted.node_above⟩
  · exact ⟨_, inserted.node_other id isAbove (lt_counter_of_mem member).ne⟩

/-- The leaf is in the key's namespace. -/
theorem space_fresh : after.space cache.counter = cursor.key.namespaceOf := by
  rw [RadixCache.space, inserted.node_fresh.2.2.1]

/-- The old nodes keep their namespace. -/
theorem space_of_mem (member : id ∈ cache.nodes) : after.space id = cache.space id := by
  obtain ⟨children, entry⟩ := inserted.node_of_mem member
  simp [RadixCache.space, entry]

include point

/-- An insertion adds a leaf to the links. -/
theorem links : after.links =
      cache.links.addLeaf cache.counter cursor.node (cursor.key.childKey cache.pageSize) := by
  have size : after.pageSize = cache.pageSize := by rw [inserted.frame]
  obtain ⟨freshChildren, freshParent, freshKey, -, -⟩ := inserted.node_fresh
  have above := inserted.node_above
  have different := point.node_ne
  ext1
  iterate 2
    funext id
    simp only [RadixCache.links, Links.addLeaf, size]
    by_cases isFresh : id = cache.counter
    · simp [isFresh, freshParent, freshKey]
    · by_cases isAbove : id = cursor.node
      · simp [isAbove, above, different]
      · simp [isFresh, inserted.node_other id isAbove isFresh]
  · funext id key
    simp only [RadixCache.links, Links.addLeaf]
    by_cases isFresh : id = cache.counter
    · simp [isFresh, freshChildren]
    · by_cases isAbove : id = cursor.node
      · simp only [isAbove, above, different, ↓reduceIte, true_and]
        exact lookup_insert_eq ..
      · simp [isFresh, isAbove, inserted.node_other id isAbove isFresh]

include wf

/-- They are a tree again. -/
theorem tree : LinkedTree cache.rootNode (Insert.insert cache.counter cache.nodes) after.links
      fun id => (point.fullAfter full id).length := by
  have kept := wf.tree.congr_rank fun id member =>
    congrArg length (@LeafPoint.fullAfter_of_mem _ _ full point _ member)
  have positive := point.positive
  rw [inserted.links point]
  refine kept.addLeaf cache.counter_notMem_nodes point.member point.vacant ?_
  rw [point.fullAfter_fresh, point.fullAfter_of_mem point.member, length_append,
    RadixKey.length_units]
  omega

/-- One node more. -/
theorem nodes : after.nodes = Insert.insert cache.counter cache.nodes :=
  nodes_eq_insert cache (by rw [inserted.frame]) (by rw [inserted.frame]) (inserted.tree point wf)

/-- A node with the new leaf in place is the leaf or an old node that kept its entry
but for the children. -/
theorem node_cases (member : id ∈ after.nodes) : id = cache.counter ∨ id ∈ cache.nodes ∧
    ∃ children, after.node id = { cache.node id with children := children } := by
  rw [inserted.nodes point wf] at member
  exact (Finset.mem_insert.mp member).imp_right fun member => ⟨member, inserted.node_of_mem member⟩

/-- An insertion keeps the cache well formed. -/
theorem wellFormed : WellFormed after (point.fullAfter full) (point.valsAfter vals) := by
  have root : after.rootNode = cache.rootNode := by rw [inserted.frame]
  have size : after.pageSize = cache.pageSize := by rw [inserted.frame]
  obtain ⟨-, freshParent, freshKey, freshValue, -⟩ := inserted.node_fresh
  refine .of_nodes (size ▸ wf.positive) ?_ ?_ ?_ (fun id inside => ?_) ?_
  · rw [root, inserted.nodes point wf]
    exact inserted.tree point wf
  · rw [root, point.fullAfter_of_mem wf.root_mem, wf.full_root]
  · rw [root, point.valsAfter_of_mem wf.root_mem, wf.vals_root]
  · obtain isFresh | ⟨member, children, entry⟩ := inserted.node_cases point wf inside
    · subst isFresh
      have indices : (after.node cache.counter).indices = cursor.value := by
        rw [TreeNode.indices, freshValue, getD_some]
      refine ⟨?_, ?_, ?_, fun parent found => ?_⟩
      · rw [size, freshKey]
        exact point.whole
      · rw [TreeNode.evicted, freshValue]
        rfl
      · rw [indices, freshKey]
        exact point.valued
      · rw [freshParent] at found
        cases found
        rw [freshKey, indices, point.fullAfter_fresh, point.fullAfter_of_mem point.member,
          point.valsAfter_fresh, point.valsAfter_of_mem point.member, inserted.space_fresh,
          inserted.space_of_mem point.member, root]
        exact ⟨rfl, rfl, point.space⟩
    · exact wf.nodeFormed_of_kept size root member (entry ▸ ⟨rfl, rfl, rfl⟩) fun other inside =>
        ⟨point.fullAfter_of_mem inside, point.valsAfter_of_mem inside,
          inserted.space_of_mem inside⟩
  · obtain ⟨children, entry⟩ := inserted.node_of_mem wf.root_mem
    rw [root, entry]
    exact wf.root_lock

end Inserted

/-! ### Removed leaves -/

/-- What `_delete_leaf` does: `leaf` is taken out of the children of `above`. -/
structure Removed (cache after : RadixCache) (leaf above : ℕ) : Prop where
  frame : after = { cache with
    node := after.node
    evictableSize := cache.evictableSize - (cache.node leaf).key.len
    evictableLeaves := after.evictableLeaves }
  node_above : after.node above = { cache.node above with
    children := (cache.node above).children.erase ((cache.node leaf).key.childKey cache.pageSize) }
  node_other : ∀ id, id ≠ above → after.node id = cache.node id
  leaves : after.evictableLeaves =
    if LeafReady after.node above then Insert.insert above (cache.evictableLeaves.erase leaf)
    else (cache.evictableLeaves.erase leaf).erase above

/-- A leaf other than the root can be deleted. -/
theorem exists_removed {cache : RadixCache} {full : ℕ → List KeyUnit} {vals : ℕ → List ℕ}
    (wf : WellFormed cache full vals) {leaf : ℕ} (member : leaf ∈ cache.nodes)
    (notRoot : leaf ≠ cache.rootNode) :
    ∃ above ∈ cache.nodes, (cache.node leaf).parent = some above ∧
      ∃ after, cache.deleteLeaf leaf = some after ∧ Removed cache after leaf above := by
  obtain ⟨above, aboveMem, parent⟩ := wf.exists_parent member notRoot
  have filed : (cache.node above).children.lookup ((cache.node leaf).key.childKey cache.pageSize) =
      some leaf := wf.tree.child_of_parent member parent
  refine ⟨above, aboveMem, parent, cache.unlinkLeaf leaf above,
    by simp only [deleteLeaf, parent, filed, ↓reduceIte], ?_, ?_, fun id different => ?_, ?_⟩
  · rw [unlinkLeaf, updateLeafStatus_frame]
    rfl
  · simp [unlinkLeaf, modifyNode, setNode]
  · simp [unlinkLeaf, modifyNode, setNode, different]
  · rw [unlinkLeaf, updateLeafStatus_leaves, updateLeafStatus_node]

namespace Removed

variable {cache after : RadixCache} {full : ℕ → List KeyUnit} {vals : ℕ → List ℕ}
variable {leaf above : ℕ}
variable (removed : Removed cache after leaf above) (wf : WellFormed cache full vals)
  (member : leaf ∈ cache.nodes) (parent : (cache.node leaf).parent = some above)
  (childless : (cache.node leaf).children = ∅)
include removed

/-- Every node keeps its entry but for the children. -/
theorem node_eq (id : ℕ) :
    ∃ children, after.node id = { cache.node id with children := children } := by
  by_cases isAbove : id = above
  · rw [isAbove]
    exact ⟨_, removed.node_above⟩
  · exact ⟨_, removed.node_other id isAbove⟩

include parent in
/-- A deletion removes the leaf from the links. -/
theorem links : after.links = cache.links.removeLeaf leaf := by
  have size : after.pageSize = cache.pageSize := by rw [removed.frame]
  ext1
  · funext id
    obtain ⟨children, entry⟩ := removed.node_eq id
    simp [RadixCache.links, Links.removeLeaf, entry]
  · funext id
    obtain ⟨children, entry⟩ := removed.node_eq id
    simp [RadixCache.links, Links.removeLeaf, entry, size]
  · funext id key
    simp only [RadixCache.links, Links.removeLeaf, parent, some.injEq]
    by_cases isAbove : id = above
    · subst isAbove
      rw [removed.node_above]
      by_cases here : key = (cache.node leaf).key.childKey cache.pageSize
      · subst here
        rw [if_pos ⟨rfl, rfl⟩, lookup_erase]
      · rw [if_neg fun both => here both.2, lookup_erase_ne here]
    · rw [removed.node_other id isAbove, if_neg fun both => isAbove both.1.symm]

include wf member parent childless

/-- They are a tree again. -/
theorem tree : LinkedTree cache.rootNode (cache.nodes.erase leaf) after.links
      fun id => (full id).length := by
  rw [removed.links parent]
  refine wf.tree.removeLeaf member (wf.tree.parent_eq member parent).2.1 fun key => ?_
  simp [RadixCache.links, childless]

/-- One node less. -/
theorem nodes : after.nodes = cache.nodes.erase leaf := by
  have root : after.rootNode = cache.rootNode := by rw [removed.frame]
  have counter : after.counter = cache.counter := by rw [removed.frame]
  have tree := removed.tree wf member parent childless
  rw [← root] at tree
  refine nodes_eq_of_tree tree fun id inside => ?_
  rw [counter]
  exact lt_counter_of_mem (Finset.mem_of_mem_erase inside)

/-- A deletion keeps the cache well formed. -/
theorem wellFormed : WellFormed after full vals := by
  have root : after.rootNode = cache.rootNode := by rw [removed.frame]
  have size : after.pageSize = cache.pageSize := by rw [removed.frame]
  have nodes := removed.nodes wf member parent childless
  refine .of_nodes (size ▸ wf.positive) ?_ (root ▸ wf.full_root) (root ▸ wf.vals_root)
    (fun id inside => ?_) ?_
  · rw [root, nodes]
    exact removed.tree wf member parent childless
  · rw [nodes] at inside
    obtain ⟨children, entry⟩ := removed.node_eq id
    refine wf.nodeFormed_of_kept size root (Finset.mem_of_mem_erase inside)
      (entry ▸ ⟨rfl, rfl, rfl⟩) fun other _ => ⟨rfl, rfl, ?_⟩
    obtain ⟨children, entry⟩ := removed.node_eq other
    simp [RadixCache.space, entry]
  · obtain ⟨children, entry⟩ := removed.node_eq cache.rootNode
    rw [root, entry]
    exact wf.root_lock

end Removed

/-! ### The empty tree -/

/-- A reset cache is its new root. -/
theorem tree_reset (clock : Clock) (rank : ℕ → ℕ) :
    LinkedTree (cache.reset clock).rootNode {cache.counter} (cache.reset clock).links rank where
  root_mem := Finset.mem_singleton_self _
  root_parent := by simp [links, reset, addNode, setNode]
  parent_mem id member notRoot := absurd (Finset.mem_singleton.mp member) notRoot
  child_iff id member key below := by
    rw [Finset.mem_singleton] at member
    subst member
    simp only [links, reset, addNode, setNode, update_self, lookup_empty,
      reduceCtorEq, Finset.mem_singleton, false_iff, not_and]
    rintro rfl
    simp

/-- It has no other node. -/
theorem nodes_reset (clock : Clock) : (cache.reset clock).nodes = {cache.counter} := by
  refine nodes_eq_of_tree (cache.tree_reset clock fun _ => 0) fun id member => ?_
  rw [Finset.mem_singleton.mp member]
  exact lt_succ_self _

/-- It is well formed. -/
theorem wellFormed_reset (clock : Clock) (positive : 0 < cache.pageSize) :
    WellFormed (cache.reset clock) (fun _ => []) fun _ => [] := by
  have root : (cache.reset clock).node cache.counter = {
      children := ∅
      parent := none
      key := .init [] none false none none
      value := some []
      lockRef := 1
      lastAccessTime := clock.nodeAccess cache.counter
      creationTime := clock.nodeCreation cache.counter
      hitCount := 0
      priority := -maxsize } := by
    simp [reset, addNode, setNode]
  have only {id : ℕ} (member : id ∈ (cache.reset clock).nodes) : id = cache.counter := by
    rwa [nodes_reset, Finset.mem_singleton] at member
  refine .of_nodes positive ?_ rfl rfl (fun id member => ?_) ?_
  · rw [nodes_reset]
    exact cache.tree_reset clock _
  · rw [only member]
    refine ⟨?_, ?_, ?_, fun above found => ?_⟩
    · rw [root]
      exact dvd_zero _
    · rw [root]
      rfl
    · rw [root]
      rfl
    · rw [root] at found
      cases found
  · change ((cache.reset clock).node cache.counter).lockRef = 1
    rw [root]

end AvaServe.Radix.RadixCache
