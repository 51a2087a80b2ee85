import AvaServe.Router.HashTree

/-!
# The shape of the hash tree

Parent and child pointers describe one tree, the reverse index lists every node
under its hash, and no node but the root is without both workers and children. The
three edits of the arena (a new child, a changed record, a pruned leaf) keep the
shape; the calls are folds of these edits.
-/

namespace AvaServe.Router

open Foundation List Function Option

/-- A bare node has no worker and no child. -/
theorem Node.bare_iff {node : Node} :
    node.bare = true ↔ node.workers = ∅ ∧ node.children.entries = [] := by
  simp [Node.bare]

/-- A map without entries finds nothing. -/
theorem entries_eq_nil_iff {β : Type*} (children : AList fun _ : Int64 => β) :
    children.entries = [] ↔ ∀ h, children.lookup h = none := by
  constructor
  · intro empty h
    rw [AList.lookup_eq_none]
    intro member
    have inKeys : h ∈ children.keys := member
    rw [AList.keys, empty] at inKeys
    cases inKeys
  · intro vacant
    rw [eq_nil_iff_forall_not_mem]
    rintro ⟨h, child⟩ member
    have found := AList.mem_lookup_iff.mpr member
    rw [vacant h] at found
    cases found

namespace TreeState

/-- Tree pointers, fresh ids and the reverse index. -/
structure Shaped (state : TreeState) : Prop where
  tree : LinkedTree rootId state.nodes state.links fun id => id
  fresh : ∀ id ∈ state.nodes, id < state.nextId
  index : ∀ h id, id ∈ (state.byHash h).getD ∅ ↔
    id ∈ state.nodes ∧ id ≠ rootId ∧ (state.node id).blockHash = h
  indexNonempty : ∀ h, state.byHash h ≠ some ∅

/-- A node that pruning should have removed. -/
def Bare (state : TreeState) (id : ℕ) : Prop :=
  id ∈ state.nodes ∧ id ≠ rootId ∧ (state.node id).bare = true

/-- A shaped tree without bare nodes. -/
structure WellFormed (state : TreeState) : Prop extends Shaped state where
  occupied : ∀ id, ¬state.Bare id

variable (now : ℕ)

/-- A new tree is well formed. -/
theorem wellFormed_new : WellFormed (new now) where
  tree :=
    { root_mem := Finset.mem_singleton_self _
      root_parent := rfl
      parent_mem := fun node member notRoot => absurd (Finset.mem_singleton.mp member) notRoot
      child_iff := fun node _ key below => by
        constructor
        · intro found
          cases found
        · rintro ⟨-, parent, -⟩
          cases parent }
  fresh := fun id member => by
    rw [Finset.mem_singleton.mp member]
    exact one_pos
  index := fun h id => by
    simp only [new, getD_none, Finset.notMem_empty, Finset.mem_singleton, false_iff]
    rintro ⟨root, notRoot, -⟩
    exact notRoot root
  indexNonempty := fun h => by simp [new]
  occupied := fun id bare => bare.2.1 (Finset.mem_singleton.mp bare.1)

/-- A node is found. -/
theorem get_of_mem {state : TreeState} {id : ℕ} (member : id ∈ state.nodes) :
    state.get id = some (state.node id) :=
  if_pos member

/-- What is found is a node. -/
theorem get_eq_some {state : TreeState} {id : ℕ} {node : Node} :
    state.get id = some node ↔ id ∈ state.nodes ∧ state.node id = node := by
  unfold get
  split
  next member => simp [member]
  next absent => simp [absent]

/-! ### Changing a record -/

section Modify

variable (state : TreeState) (id : ℕ) (f : Node → Node)

/-- A modification keeps the nodes. -/
@[simp] theorem modify_nodes : (state.modify id f).nodes = state.nodes := rfl

/-- It keeps the hash index. -/
@[simp] theorem modify_byHash : (state.modify id f).byHash = state.byHash := rfl

/-- It keeps the next id. -/
@[simp] theorem modify_nextId : (state.modify id f).nextId = state.nextId := rfl

/-- The modified node. -/
@[simp] theorem modify_node_self : (state.modify id f).node id = f (state.node id) := update_self ..

/-- The nodes after a modification. -/
theorem modify_node (other : ℕ) : (state.modify id f).node other =
      if other = id then f (state.node id) else state.node other :=
  update_apply ..

end Modify

/-- The record of a node keeps its pointers and its hash. -/
structure SameLinks (f : Node → Node) : Prop where
  parent : ∀ node, (f node).parent = node.parent
  blockHash : ∀ node, (f node).blockHash = node.blockHash
  children : ∀ node, (f node).children = node.children

variable {state before after : TreeState} {id parentId current other child : ℕ} {f : Node → Node}
  {h : Int64} {worker : KvWorkerId}

/-- What a change of one record keeps in it, it keeps in all of them. -/
theorem modify_field {β : Type*} (field : Node → β) (same : ∀ node, field (f node) = field node)
    (state : TreeState) (id other : ℕ) :
    field ((state.modify id f).node other) = field (state.node other) := by
  rw [modify_node]
  split
  next here => rw [same, here]
  next => rfl

/-- The links stay. -/
theorem SameLinks.links (same : SameLinks f) (state : TreeState) (id : ℕ) :
    (state.modify id f).links = state.links := by
  refine Links.ext (funext fun other => ?_) (funext fun other => ?_)
    (funext fun other => funext fun h => ?_)
  · exact modify_field Node.parent same.parent state id other
  · exact modify_field Node.blockHash same.blockHash state id other
  · exact congrArg (AList.lookup h) (modify_field Node.children same.children state id other)

variable (shaped : Shaped state)

include shaped in
/-- So does the shape. -/
theorem Shaped.modify (same : SameLinks f) (id : ℕ) : Shaped (state.modify id f) :=
  { shaped with
    tree := by
      rw [same.links]
      exact shaped.tree
    index := fun h other => by
      rw [modify_field Node.blockHash same.blockHash]
      exact shaped.index h other }

/-- Adding a worker keeps the links. -/
theorem sameLinks_insertWorker (worker : KvWorkerId) (now : ℕ) : SameLinks fun child =>
      { child with workers := Insert.insert worker child.workers, lastUsed := now } :=
  ⟨fun _ => rfl, fun _ => rfl, fun _ => rfl⟩

/-- So does erasing one. -/
theorem sameLinks_eraseWorker (worker : KvWorkerId) :
    SameLinks fun node => { node with workers := node.workers.erase worker } :=
  ⟨fun _ => rfl, fun _ => rfl, fun _ => rfl⟩

/-- So does erasing all. -/
theorem sameLinks_clearWorkers : SameLinks fun node => { node with workers := ∅ } :=
  ⟨fun _ => rfl, fun _ => rfl, fun _ => rfl⟩

/-- A node without children, in terms of the pointers. -/
theorem childless_iff :
    (state.node id).children.entries = [] ↔ ∀ h, state.links.child id h = none :=
  entries_eq_nil_iff _

/-! ### A new child -/

/-- What `create_child` leaves when the parent is there and has no such child. -/
structure Grown (state grown : TreeState) (parentId : ℕ) (h : Int64) : Prop where
  shaped : Shaped grown
  nodes : grown.nodes = Insert.insert state.nextId state.nodes
  links : grown.links = state.links.addLeaf state.nextId parentId h
  oldWorkers : ∀ id ∈ state.nodes, (grown.node id).workers = (state.node id).workers
  newWorkers : (grown.node state.nextId).workers = ∅

/-- The nodes after a child is created. -/
theorem createChild_node (h : Int64) (parentBlockHash : Option Int64)
    (member : parentId ∈ state.nodes) (different : parentId ≠ state.nextId) (other : ℕ) :
    (state.createChild now parentId h parentBlockHash).2.node other =
      if other = state.nextId then .newChild now h parentBlockHash parentId
      else if other = parentId then
        { state.node parentId with children :=
          (state.node parentId).children.insert h state.nextId }
      else state.node other := by
  simp only [createChild, Finset.mem_insert, member, or_true, if_true, modify_node]
  by_cases isParent : other = parentId
  · subst isParent
    simp [different]
  · simp [isParent, update_apply]

/-- The child is a new leaf of the links. -/
theorem createChild_links (h : Int64) (parentBlockHash : Option Int64)
    (member : parentId ∈ state.nodes) (different : parentId ≠ state.nextId) :
    (state.createChild now parentId h parentBlockHash).2.links =
      state.links.addLeaf state.nextId parentId h := by
  refine Links.ext (funext fun other => ?_) (funext fun other => ?_)
    (funext fun other => funext fun key => ?_)
  all_goals simp only [links, createChild_node now h parentBlockHash member different,
    Links.addLeaf, update_apply]
  iterate 2
    split
    next => rfl
    next => split <;> simp [*]
  · by_cases isFresh : other = state.nextId
    · simp [isFresh, Node.newChild]
    · by_cases isParent : other = parentId
      · subst isParent
        by_cases isKey : key = h
        · subst isKey
          simp [different]
        · simp [different, isKey]
      · simp [isFresh, isParent]

include shaped in
/-- A child is created where there is none. -/
theorem createChild_spec (now : ℕ) (parentBlockHash : Option Int64)
    (member : parentId ∈ state.nodes) (vacant : state.links.child parentId h = none) :
    ∃ grown, state.createChild now parentId h parentBlockHash = (some state.nextId, grown) ∧
      Grown state grown parentId h := by
  have ne_fresh {id : ℕ} (inside : id ∈ state.nodes) : id ≠ state.nextId := fun same =>
    lt_irrefl _ (same ▸ shaped.fresh id inside)
  have absent : state.nextId ∉ state.nodes := fun inside => ne_fresh inside rfl
  have different := ne_fresh member
  have node := createChild_node now h parentBlockHash member different
  have grownLinks := createChild_links now h parentBlockHash member different
  have grownNodes : (state.createChild now parentId h parentBlockHash).2.nodes =
      Insert.insert state.nextId state.nodes := by
    simp [createChild, member]
  have byHash : (state.createChild now parentId h parentBlockHash).2.byHash =
      update state.byHash h (some (Insert.insert state.nextId ((state.byHash h).getD ∅))) := by
    simp [createChild, member]
  have notRoot : state.nextId ≠ rootId := (ne_fresh shaped.tree.root_mem).symm
  refine ⟨(state.createChild now parentId h parentBlockHash).2, ?_, ⟨?_, ?_, ?_, ?_⟩, grownNodes,
    grownLinks, fun id inside => ?_, ?_⟩
  · simp [createChild, member]
  · rw [grownNodes, grownLinks]
    exact shaped.tree.addLeaf absent member vacant (shaped.fresh _ member)
  · intro id inside
    have nextId : (state.createChild now parentId h parentBlockHash).2.nextId =
        state.nextId + 1 := by
      simp [createChild, member]
    rw [nextId]
    rw [grownNodes, Finset.mem_insert] at inside
    rcases inside with rfl | inside
    · exact Nat.lt_succ_self _
    · exact Nat.lt_succ_of_lt (shaped.fresh id inside)
  · intro key id
    rw [byHash, update_apply, grownNodes, node]
    by_cases isKey : key = h
    · subst isKey
      rw [if_pos rfl, getD_some, Finset.mem_insert, shaped.index]
      by_cases isFresh : id = state.nextId
      · simp [isFresh, notRoot, Node.newChild]
      · by_cases isParent : id = parentId <;> simp [isFresh, isParent, different]
    · rw [if_neg isKey, shaped.index]
      by_cases isFresh : id = state.nextId
      · simp [isFresh, absent, Node.newChild, Ne.symm isKey]
      · by_cases isParent : id = parentId <;> simp [isFresh, isParent, different]
  · intro key
    rw [byHash, update_apply]
    split
    · simp
    · exact shaped.indexNonempty key
  · rw [node, if_neg (ne_fresh inside)]
    split
    next isParent => rw [isParent]
    next => rfl
  · rw [node, if_pos rfl]
    rfl

/-! ### Pruning -/

/-- `after` has lost nodes of `before` at most, and each node is to have the given
workers: the nodes that are gone were to have none. -/
structure Keeps (before after : TreeState) (holders : ℕ → Finset KvWorkerId) : Prop where
  nodes : after.nodes ⊆ before.nodes
  parent : ∀ id, (after.node id).parent = (before.node id).parent
  blockHash : ∀ id, (after.node id).blockHash = (before.node id).blockHash
  workers : ∀ id ∈ after.nodes, (after.node id).workers = holders id
  lost : ∀ id ∈ before.nodes, id ∉ after.nodes → holders id = ∅

/-- Nothing is removed. -/
theorem Keeps.refl (state : TreeState) : Keeps state state fun id => (state.node id).workers :=
  ⟨Finset.Subset.refl _, fun _ => rfl, fun _ => rfl, fun _ _ => rfl,
    fun _ inside outside => absurd inside outside⟩

variable {holders : ℕ → Finset KvWorkerId}

/-- Losing more nodes that have no workers. -/
theorem Keeps.trans {middle : TreeState} (left : Keeps before middle holders)
    (right : Keeps middle after fun id => (middle.node id).workers) :
    Keeps before after holders where
  nodes := right.nodes.trans left.nodes
  parent := fun id => (right.parent id).trans (left.parent id)
  blockHash := fun id => (right.blockHash id).trans (left.blockHash id)
  workers := fun id inside => (right.workers id inside).trans (left.workers id (right.nodes inside))
  lost := fun id inside outside => by
    by_cases between : id ∈ middle.nodes
    · rw [← left.workers id between]
      exact right.lost id between outside
    · exact left.lost id inside between

/-- Detaching erases the parent's entry. -/
theorem detach_node (h : Int64) (member : parentId ∈ state.nodes) :
    (state.detach id parentId h).node = (state.modify parentId fun node =>
      { node with children := node.children.erase h }).node := by
  simp [detach, member]

/-- The node is gone. -/
theorem detach_nodes (state : TreeState) (id parentId : ℕ) (h : Int64) :
    (state.detach id parentId h).nodes = state.nodes.erase id := by
  simp only [detach]
  split <;> rfl

/-- The next id stays. -/
theorem detach_nextId (state : TreeState) (id parentId : ℕ) (h : Int64) :
    (state.detach id parentId h).nextId = state.nextId := by
  simp only [detach]
  split <;> rfl

/-- The node leaves the hash index. -/
theorem detach_byHash (state : TreeState) (id parentId : ℕ) (h : Int64) :
    (state.detach id parentId h).byHash = state.unindex id h := by
  simp only [detach]
  split <;> rfl

/-- The index without a node. -/
theorem getD_unindex (state : TreeState) (id : ℕ) (h key : Int64) :
    ((state.unindex id h key).getD ∅) =
      if key = h then ((state.byHash h).getD ∅).erase id else (state.byHash key).getD ∅ := by
  cases present : state.byHash h with
  | none =>
    simp only [unindex, present]
    split
    next same => rw [same, present]; rfl
    next => rfl
  | some ids =>
    simp only [unindex, present, update_apply]
    split
    next =>
      split
      next empty => rw [getD_none, getD_some, empty]
      next => rfl
    next => rfl

/-- No empty set is left in the index. -/
theorem unindex_ne_some_empty (state : TreeState) (nonempty : ∀ h, state.byHash h ≠ some ∅)
    (id : ℕ) (h key : Int64) : state.unindex id h key ≠ some ∅ := by
  cases present : state.byHash h with
  | none =>
    simp only [unindex, present]
    exact nonempty key
  | some ids =>
    simp only [unindex, present, update_apply]
    split
    next =>
      split
      next => simp
      next remaining => simpa using remaining
    next => exact nonempty key

include shaped in
/-- One round of `prune_cascade` on a bare node. -/
theorem Shaped.detach (bare : state.Bare id) (parent : (state.node id).parent = some parentId) :
    Shaped (state.detach id parentId (state.node id).blockHash) ∧
      (state.detach id parentId (state.node id).blockHash).links = state.links.removeLeaf id ∧
      Keeps state (state.detach id parentId (state.node id).blockHash)
        fun other => (state.node other).workers := by
  obtain ⟨member, notRoot, isBare⟩ := bare
  obtain ⟨noWorkers, noChildren⟩ := Node.bare_iff.mp isBare
  obtain ⟨parentMem, -, lower⟩ := shaped.tree.parent_eq member parent
  set h := (state.node id).blockHash with isHash
  have node := @detach_node state id parentId h parentMem
  have hash : ∀ other, ((state.detach id parentId h).node other).blockHash =
      (state.node other).blockHash := by
    rw [node]
    exact modify_field Node.blockHash (fun _ => by rfl) state parentId
  have parents : ∀ other, ((state.detach id parentId h).node other).parent =
      (state.node other).parent := by
    rw [node]
    exact modify_field Node.parent (fun _ => by rfl) state parentId
  have links : (state.detach id parentId h).links = state.links.removeLeaf id := by
    refine Links.ext (funext parents) (funext hash) (funext fun other => funext fun key => ?_)
    simp only [TreeState.links, node, modify_node, Links.removeLeaf, parent]
    by_cases isParent : other = parentId
    · subst isParent
      by_cases isKey : key = h
      · subst isKey
        simp [← isHash]
      · simp [isKey, ← isHash]
    · simp [isParent, Ne.symm isParent]
  refine ⟨⟨?_, ?_, ?_, ?_⟩, links, ⟨?_, parents, hash, ?_, ?_⟩⟩
  · rw [links, detach_nodes]
    exact shaped.tree.removeLeaf member notRoot (childless_iff.mp noChildren)
  · intro other inside
    rw [detach_nodes] at inside
    rw [detach_nextId]
    exact shaped.fresh other (Finset.mem_of_mem_erase inside)
  · intro key other
    rw [detach_byHash, getD_unindex, detach_nodes, hash, Finset.mem_erase]
    split
    next isKey =>
      rw [Finset.mem_erase, shaped.index, isKey]
      tauto
    next isKey =>
      rw [shaped.index]
      constructor
      · rintro ⟨inside, otherNotRoot, otherHash⟩
        refine ⟨⟨?_, inside⟩, otherNotRoot, otherHash⟩
        rintro rfl
        exact isKey otherHash.symm
      · rintro ⟨⟨-, inside⟩, rest⟩
        exact ⟨inside, rest⟩
  · rw [detach_byHash]
    exact unindex_ne_some_empty state shaped.indexNonempty id h
  · rw [detach_nodes]
    exact Finset.erase_subset _ _
  · intro other _
    rw [node]
    exact modify_field Node.workers (fun _ => by rfl) state parentId other
  · intro other inside outside
    rw [detach_nodes, Finset.mem_erase, not_and] at outside
    obtain rfl : other = id := by
      by_contra different
      exact outside different inside
    exact noWorkers

/-- Only the parent of a pruned node can become bare by it. -/
theorem bare_of_detach (parentMem : parentId ∈ state.nodes) (notParent : other ≠ parentId)
    (bare : (state.detach id parentId h).Bare other) : state.Bare other ∧ other ≠ id := by
  obtain ⟨inside, notRoot, isBare⟩ := bare
  rw [detach_nodes, Finset.mem_erase] at inside
  rw [detach_node h parentMem, modify_node, if_neg notParent] at isBare
  exact ⟨⟨inside.2, notRoot, isBare⟩, inside.1⟩

/-- What `prune_cascade` from a bare node leaves. -/
structure Pruned (before after : TreeState) (start : ℕ) : Prop where
  shaped : Shaped after
  keeps : Keeps before after fun id => (before.node id).workers
  gone : start ∉ after.nodes
  bare : ∀ id, after.Bare id → before.Bare id

include shaped in
/-- The loop prunes the bare nodes above the start. -/
theorem pruneLoop_spec {fuel : ℕ} {start : ℕ} (bare : state.Bare start)
    (enough : state.nodes.card ≤ fuel) : Pruned state (pruneLoop fuel state start) start := by
  induction fuel generalizing state start with
  | zero =>
    have empty : state.nodes = ∅ := Finset.card_eq_zero.mp (Nat.le_zero.mp enough)
    have := bare.1
    rw [empty] at this
    cases this
  | succ fuel ih =>
    obtain ⟨member, notRoot, isBare⟩ := bare
    obtain ⟨parentId, parentMem, parent, lower⟩ := shaped.tree.parent_mem start member notRoot
    have parent : (state.node start).parent = some parentId := parent
    obtain ⟨shaped', -, keeps⟩ := shaped.detach ⟨member, notRoot, isBare⟩ parent
    set next := state.detach start parentId (state.node start).blockHash with isNext
    have nextNodes : next.nodes = state.nodes.erase start := detach_nodes ..
    have parentStays : parentId ∈ next.nodes := by
      rw [nextNodes]
      exact Finset.mem_erase.mpr ⟨ne_of_lt lower, parentMem⟩
    have gone : start ∉ next.nodes := by exact Finset.notMem_erase _ _
    have others : ∀ other, other ≠ parentId → next.Bare other → state.Bare other :=
      fun other notParent bareNext => (bare_of_detach parentMem notParent bareNext).1
    rw [pruneLoop, if_neg notRoot, get_of_mem member]
    simp only [parent, isBare, if_true, ← isNext, get_of_mem parentStays]
    split
    next climbs =>
      have bareParent : next.Bare parentId := ⟨parentStays, climbs.1, climbs.2⟩
      have smaller : next.nodes.card ≤ fuel := by
        rw [nextNodes, Finset.card_erase_of_mem member]
        omega
      have pruned := ih shaped' bareParent smaller
      refine ⟨pruned.shaped, keeps.trans pruned.keeps,
        fun still => gone (pruned.keeps.nodes still), ?_⟩
      intro id bareAfter
      refine others id ?_ (pruned.bare id bareAfter)
      rintro rfl
      exact pruned.gone bareAfter.1
    next stays =>
      refine ⟨shaped', keeps, gone, fun id bareNext => others id ?_ bareNext⟩
      rintro rfl
      exact stays ⟨bareNext.2.1, bareNext.2.2⟩

include shaped in
/-- So does the cascade. -/
theorem pruneCascade_spec {start : ℕ} (bare : state.Bare start) :
    Pruned state (state.pruneCascade start) start :=
  pruneLoop_spec shaped bare (le_refl _)

/-! ### Storing a chain -/

/-- What one round of the loop of `insert` leaves. -/
structure Visited (before after : TreeState) (current : ℕ) (h : Int64) (worker : KvWorkerId)
    (child : ℕ) : Prop where
  wellFormed : WellFormed after
  child_mem : child ∈ after.nodes
  child_ne : child ≠ rootId
  links : (before.links.child current h = some child ∧ after.links = before.links ∧
      after.nodes = before.nodes) ∨
    (before.links.child current h = none ∧ child ∉ before.nodes ∧
      after.links = before.links.addLeaf child current h ∧
      after.nodes = Insert.insert child before.nodes)
  workers : ∀ id ∈ after.nodes, (after.node id).workers =
    (if id ∈ before.nodes then (before.node id).workers else ∅) ∪
      if id = child then {worker} else ∅

/-- A visit loses no node. -/
theorem Visited.subset (visited : Visited before after current h worker child) :
    before.nodes ⊆ after.nodes := by
  rcases visited.links with ⟨-, -, same⟩ | ⟨-, -, -, grown⟩
  · rw [same]
  · rw [grown]
    exact Finset.subset_insert _ _

/-- It keeps the hashes, and the child has its own. -/
theorem Visited.blockHash (wf : WellFormed before) (member : current ∈ before.nodes)
    (visited : Visited before after current h worker child) : (after.node child).blockHash = h ∧
      ∀ id ∈ before.nodes, (after.node id).blockHash = (before.node id).blockHash := by
  have label : ∀ id, (after.node id).blockHash = after.links.label id := fun _ => rfl
  rcases visited.links with ⟨found, same, -⟩ | ⟨-, absent, grown, -⟩
  · refine ⟨?_, fun id _ => ?_⟩
    · rw [label, same]
      exact (wf.tree.of_child member found).2.2.1
    · rw [label, same]
      rfl
  · refine ⟨?_, fun id inside => ?_⟩
    · rw [label, grown]
      exact update_self ..
    · rw [label, grown]
      exact update_of_ne (by rintro rfl; exact absent inside) _ _

include shaped in
/-- A record that gains a worker is not bare. -/
theorem WellFormed.of_insertWorker (others : ∀ id, id ≠ child → ¬state.Bare id)
    (worker : KvWorkerId) (now : ℕ) : WellFormed (state.modify child fun node =>
      { node with workers := Insert.insert worker node.workers, lastUsed := now }) where
  toShaped := shaped.modify (sameLinks_insertWorker worker now) child
  occupied := fun id ⟨inside, notRoot, bare⟩ => by
    rw [modify_node] at bare
    by_cases here : id = child
    · subst here
      rw [Node.bare_iff] at bare
      simp at bare
    · rw [if_neg here] at bare
      exact others id here ⟨inside, notRoot, bare⟩

/-- A node is not bare once a child was added. -/
theorem Grown.not_bare {grown : TreeState} (growth : Grown state grown parentId h)
    (wf : WellFormed state) (notFresh : id ≠ state.nextId) : ¬grown.Bare id := by
  rintro ⟨inside, notRoot, bare⟩
  rw [growth.nodes, Finset.mem_insert] at inside
  have old := inside.resolve_left notFresh
  obtain ⟨noWorkers, noChildren⟩ := Node.bare_iff.mp bare
  rw [growth.oldWorkers id old] at noWorkers
  rw [childless_iff, growth.links] at noChildren
  refine wf.occupied id ⟨old, notRoot, Node.bare_iff.mpr ⟨noWorkers, childless_iff.mpr ?_⟩⟩
  intro key
  have vacant := noChildren key
  simp only [Links.addLeaf, if_neg notFresh] at vacant
  split at vacant
  next => cases vacant
  next => exact vacant

variable (wf : WellFormed state)

include wf in
/-- The round of the loop of `insert`, and the rest of the loop. -/
theorem insertLoop_cons (member : current ∈ state.nodes) (now : ℕ)
    (worker : KvWorkerId) (prevHash : Option Int64) (h : Int64) (blockHashes : List Int64) :
    ∃ after child, Visited state after current h worker child ∧
      insertLoop now worker state current prevHash (h :: blockHashes) =
        insertLoop now worker after child (some h) blockHashes := by
  have lookup : ((state.get current).bind fun node => node.children.lookup h) =
      state.links.child current h := by
    rw [get_of_mem member]
    rfl
  cases found : state.links.child current h with
  | some child =>
    obtain ⟨childMem, -, -, childNe, -⟩ := wf.tree.of_child member found
    refine ⟨state.modify child fun node =>
      { node with workers := Insert.insert worker node.workers, lastUsed := now }, child,
      ⟨.of_insertWorker wf.toShaped (fun id _ => wf.occupied id) worker now, childMem, childNe,
        .inl ⟨found, (sameLinks_insertWorker worker now).links state child, rfl⟩, ?_⟩, ?_⟩
    · intro id inside
      rw [modify_nodes] at inside
      rw [modify_node]
      split
      next here => rw [here, Finset.insert_eq, Finset.union_comm]
      next => rw [Finset.union_empty]
    · simp [insertLoop, lookup, found, get_of_mem childMem]
  | none =>
    obtain ⟨grown, created, growth⟩ := createChild_spec wf.toShaped now prevHash member found
    have childMem : state.nextId ∈ grown.nodes := by
      rw [growth.nodes]
      exact Finset.mem_insert_self _ _
    have absent : state.nextId ∉ state.nodes := fun inside => lt_irrefl _ (wf.fresh _ inside)
    refine ⟨grown.modify state.nextId fun node =>
      { node with workers := Insert.insert worker node.workers, lastUsed := now }, state.nextId,
      ⟨.of_insertWorker growth.shaped (fun id notFresh => growth.not_bare wf notFresh) worker now,
        childMem, fun isRoot => absent (isRoot ▸ wf.tree.root_mem),
        .inr ⟨found, absent, ?_, growth.nodes⟩, ?_⟩, ?_⟩
    · rw [(sameLinks_insertWorker worker now).links, growth.links]
    · intro id inside
      rw [modify_nodes, growth.nodes, Finset.mem_insert] at inside
      rw [modify_node]
      by_cases isFresh : id = state.nextId
      · rw [if_pos isFresh, if_pos isFresh, isFresh, if_neg absent, growth.newWorkers]
        rfl
      · have old := inside.resolve_left isFresh
        rw [if_neg isFresh, if_neg isFresh, if_pos old, growth.oldWorkers id old,
          Finset.union_empty]
    · simp [insertLoop, lookup, found, created, get_of_mem childMem]

/-- Some node with the hash lists the worker. -/
def Holds (state : TreeState) (worker : KvWorkerId) (h : Int64) : Prop :=
  ∃ id ∈ state.nodes, id ≠ rootId ∧ (state.node id).blockHash = h ∧ worker ∈ (state.node id).workers

/-- A visit adds the worker's hold on the hash. -/
theorem Visited.holds_iff (wf : WellFormed before) (member : current ∈ before.nodes)
    (visited : Visited before after current h worker child) (w : KvWorkerId) (key : Int64) :
    after.Holds w key ↔ before.Holds w key ∨ (w = worker ∧ key = h) := by
  obtain ⟨childHash, oldHash⟩ := visited.blockHash wf member
  constructor
  · rintro ⟨id, inside, notRoot, hash, lists⟩
    rw [visited.workers id inside, Finset.mem_union] at lists
    rcases lists with old | new
    · split at old
      next wasThere => exact .inl ⟨id, wasThere, notRoot, by rw [← oldHash id wasThere, hash], old⟩
      next => cases old
    · split at new
      next here =>
        rw [here, childHash] at hash
        exact .inr ⟨Finset.mem_singleton.mp new, hash.symm⟩
      next => cases new
  · rintro (⟨id, inside, notRoot, hash, lists⟩ | ⟨rfl, rfl⟩)
    · refine ⟨id, visited.subset inside, notRoot, by rw [oldHash id inside, hash], ?_⟩
      rw [visited.workers id (visited.subset inside), if_pos inside]
      exact Finset.mem_union_left _ lists
    · refine ⟨child, visited.child_mem, visited.child_ne, childHash, ?_⟩
      rw [visited.workers child visited.child_mem, if_pos rfl]
      exact Finset.mem_union_right _ (Finset.mem_singleton_self _)

include wf in
/-- The loop adds the worker's holds on all hashes. -/
theorem insertLoop_spec (member : current ∈ state.nodes) (now : ℕ)
    (worker : KvWorkerId) (prevHash : Option Int64) (blockHashes : List Int64) :
    WellFormed (insertLoop now worker state current prevHash blockHashes) ∧
      ∀ w h, (insertLoop now worker state current prevHash blockHashes).Holds w h ↔
        state.Holds w h ∨ (w = worker ∧ h ∈ blockHashes) := by
  induction blockHashes generalizing state current prevHash with
  | nil => exact ⟨wf, fun w h => by simp [insertLoop]⟩
  | cons key blockHashes ih =>
    obtain ⟨after, child, visited, rest⟩ :=
      insertLoop_cons wf member now worker prevHash key blockHashes
    obtain ⟨wf', holds⟩ := ih visited.wellFormed visited.child_mem (some key)
    rw [rest]
    refine ⟨wf', fun w h => ?_⟩
    rw [holds, visited.holds_iff wf member, mem_cons]
    tauto

include shaped in
/-- The parent that is resolved is a node. -/
theorem resolveParent_mem (order : Order) (worker : KvWorkerId) (parentHash : Option Int64) :
    state.resolveParent order worker parentHash ∈ state.nodes := by
  have root := shaped.tree.root_mem
  cases parentHash with
  | none => exact root
  | some parentHash =>
    cases indexed : state.byHash parentHash with
    | none => simpa [resolveParent, indexed] using root
    | some candidates =>
      have inside : ∀ id ∈ candidates, id ∈ state.nodes := fun id member =>
        ((shaped.index parentHash id).mp (by rw [indexed]; exact member)).1
      simp only [resolveParent, indexed]
      split
      next =>
        cases listed : order.list candidates with
        | nil => exact root
        | cons id rest => exact inside id ((order.mem_iff candidates id).mp (by rw [listed]; simp))
      next =>
        have picked : ∀ choice : Option ℕ, (∀ id, choice = some id → id ∈ order.list candidates) →
            choice.getD rootId ∈ state.nodes := by
          rintro (_ | id) listed
          · exact root
          · exact inside id ((order.mem_iff candidates id).mp (listed id rfl))
        exact picked _ fun _ => mem_of_find?_eq_some

variable (order : Order)

include wf in
/-- **An insert adds exactly the worker's holds on its hashes.** -/
theorem insert_spec (now : ℕ) (worker : KvWorkerId) (parentHash : Option Int64)
    (blockHashes : List Int64) : WellFormed (state.insert order now worker parentHash blockHashes) ∧
      ∀ w h, (state.insert order now worker parentHash blockHashes).Holds w h ↔
        state.Holds w h ∨ (w = worker ∧ h ∈ blockHashes) := by
  unfold insert
  split
  next empty =>
    rw [isEmpty_iff.mp empty]
    exact ⟨wf, fun w h => by simp⟩
  next =>
    exact insertLoop_spec wf (resolveParent_mem wf.toShaped order worker parentHash) now worker
      parentHash blockHashes

/-! ### Removing a worker -/

/-- The holds that are kept. -/
theorem Keeps.holds_iff (keeps : Keeps before after holders) (w : KvWorkerId) (h : Int64) :
    after.Holds w h ↔ ∃ id ∈ before.nodes, id ≠ rootId ∧ (before.node id).blockHash = h ∧
      w ∈ holders id := by
  constructor
  · rintro ⟨id, inside, notRoot, hash, lists⟩
    refine ⟨id, keeps.nodes inside, notRoot, by rw [← keeps.blockHash, hash], ?_⟩
    rwa [← keeps.workers id inside]
  · rintro ⟨id, inside, notRoot, hash, lists⟩
    have stays : id ∈ after.nodes := by
      by_contra gone
      rw [keeps.lost id inside gone] at lists
      cases lists
    refine ⟨id, stays, notRoot, by rw [keeps.blockHash, hash], ?_⟩
    rwa [keeps.workers id stays]

/-- Changing the workers of one node can make only that node bare. -/
theorem bare_of_modify (bare : (state.modify id f).Bare other) (different : other ≠ id) :
    state.Bare other := by
  obtain ⟨inside, notRoot, isBare⟩ := bare
  rw [modify_node, if_neg different] at isBare
  exact ⟨inside, notRoot, isBare⟩

/-- The workers a node is to have once a worker has been taken off some of the nodes. -/
def without (state : TreeState) (worker : KvWorkerId) (ids : List ℕ) (id : ℕ) : Finset KvWorkerId :=
  if id ∈ ids then (state.node id).workers.erase worker else (state.node id).workers

/-- Erasing a worker at a node keeps the tree. -/
theorem keeps_eraseWorker (state : TreeState) (worker : KvWorkerId) (id : ℕ) : Keeps state
      (state.modify id fun node => { node with workers := node.workers.erase worker })
      (state.without worker [id]) where
  nodes := Finset.Subset.refl _
  parent := modify_field Node.parent (fun _ => by rfl) state id
  blockHash := modify_field Node.blockHash (fun _ => by rfl) state id
  workers := fun other _ => by
    simp only [modify_node, without, mem_singleton]
    split
    next here => rw [here]
    next => rfl
  lost := fun other inside outside => absurd inside outside

include wf in
/-- A removal at a node takes the worker there. -/
theorem removeAt_spec (worker : KvWorkerId) (notRoot : id ≠ rootId) :
    WellFormed (removeAt worker state id) ∧
      Keeps state (removeAt worker state id) (state.without worker [id]) := by
  unfold removeAt
  cases present : state.get id with
  | none =>
    refine ⟨wf, Finset.Subset.refl _, fun _ => rfl, fun _ => rfl, fun other inside => ?_,
      fun other inside outside => absurd inside outside⟩
    have different : other ≠ id := by
      rintro rfl
      rw [get_of_mem inside] at present
      cases present
    simp [without, different]
  | some node =>
    have member := (get_eq_some.mp present).1
    have shaped := wf.toShaped.modify (sameLinks_eraseWorker worker) id
    have keeps := keeps_eraseWorker state worker id
    have others : ∀ other, other ≠ id →
        ¬(state.modify id fun node => { node with workers := node.workers.erase worker }).Bare
          other := fun other different bare =>
      wf.occupied other (bare_of_modify bare different)
    simp only
    split
    next bare =>
      have pruned := pruneCascade_spec shaped ⟨member, notRoot, bare⟩
      refine ⟨⟨pruned.shaped, fun other stillBare => ?_⟩, keeps.trans pruned.keeps⟩
      refine others other ?_ (pruned.bare other stillBare)
      rintro rfl
      exact pruned.gone stillBare.1
    next occupied =>
      refine ⟨⟨shaped, fun other bare => ?_⟩, keeps⟩
      by_cases here : other = id
      · subst here
        exact occupied bare.2.2
      · exact others other here bare

/-- Taking a worker off one node and then off others. -/
theorem without_cons {next : TreeState} (rest : List ℕ)
    (workers : (next.node other).workers = state.without worker [id] other) :
    next.without worker rest other = state.without worker (id :: rest) other := by
  simp only [without, workers]
  by_cases here : other = id <;> by_cases later : other ∈ rest <;> simp [here]

/-- What is emptied stays empty. -/
theorem without_cons_eq_empty {rest : List ℕ} (empty : state.without worker [id] other = ∅) :
    state.without worker (id :: rest) other = ∅ := by
  simp only [without, mem_singleton] at empty
  simp only [without, mem_cons]
  by_cases here : other = id
  · rw [if_pos here] at empty
    rw [if_pos (.inl here), empty]
  · rw [if_neg here] at empty
    split <;> simp [empty]

/-- One more removal. -/
theorem Keeps.cons {middle : TreeState} {rest : List ℕ}
    (first : Keeps before middle (before.without worker [id]))
    (later : Keeps middle after (middle.without worker rest)) :
    Keeps before after (before.without worker (id :: rest)) where
  nodes := later.nodes.trans first.nodes
  parent := fun other => (later.parent other).trans (first.parent other)
  blockHash := fun other => (later.blockHash other).trans (first.blockHash other)
  workers := fun other inside => by
    rw [later.workers other inside]
    exact without_cons rest (first.workers other (later.nodes inside))
  lost := fun other inside outside => by
    by_cases between : other ∈ middle.nodes
    · rw [← without_cons rest (first.workers other between)]
      exact later.lost other between outside
    · exact without_cons_eq_empty (first.lost other inside between)

section

include wf

/-- The removals at several nodes. -/
theorem foldl_removeAt_spec (worker : KvWorkerId) (targets : List ℕ)
    (notRoot : ∀ id ∈ targets, id ≠ rootId) : WellFormed (targets.foldl (removeAt worker) state) ∧
      Keeps state (targets.foldl (removeAt worker) state) (state.without worker targets) := by
  induction targets generalizing state with
  | nil => exact ⟨wf, Keeps.refl state⟩
  | cons id targets ih =>
    obtain ⟨head, tail⟩ := forall_mem_cons.mp notRoot
    obtain ⟨wf', keeps⟩ := removeAt_spec wf worker head
    obtain ⟨wf'', keeps'⟩ := ih wf' tail
    exact ⟨wf'', keeps.cons keeps'⟩

/-- The nodes that the index lists under a hash. -/
theorem mem_indexed_iff (h : Int64) (id : ℕ) : (id ∈ match state.byHash h with
      | none => []
      | some ids => order.list ids) ↔
      id ∈ state.nodes ∧ id ≠ rootId ∧ (state.node id).blockHash = h := by
  rw [← wf.index h id]
  cases state.byHash h with
  | none => simp
  | some ids => exact order.mem_iff ids id

/-- A removal takes the worker at the nodes of its hashes. -/
theorem remove_spec (worker : KvWorkerId) (blockHashes : List Int64) :
    WellFormed (state.remove order worker blockHashes) ∧
      Keeps state (state.remove order worker blockHashes) (fun id =>
        if id ∈ state.nodes ∧ id ≠ rootId ∧ (state.node id).blockHash ∈ blockHashes then
          (state.node id).workers.erase worker
        else (state.node id).workers) := by
  unfold remove
  extract_lets targets
  have mem_targets : ∀ id, id ∈ targets ↔
      id ∈ state.nodes ∧ id ≠ rootId ∧ (state.node id).blockHash ∈ blockHashes := by
    intro id
    rw [mem_flatMap]
    constructor
    · rintro ⟨h, member, listed⟩
      obtain ⟨inside, notRoot, rfl⟩ := (mem_indexed_iff wf order h id).mp listed
      exact ⟨inside, notRoot, member⟩
    · rintro ⟨inside, notRoot, member⟩
      exact ⟨_, member, (mem_indexed_iff wf order _ id).mpr ⟨inside, notRoot, rfl⟩⟩
  obtain ⟨wf', keeps⟩ :=
    foldl_removeAt_spec wf worker targets fun id member => ((mem_targets id).mp member).2.1
  refine ⟨wf', ?_⟩
  have same : state.without worker targets = fun id =>
      if id ∈ state.nodes ∧ id ≠ rootId ∧ (state.node id).blockHash ∈ blockHashes then
        (state.node id).workers.erase worker
      else (state.node id).workers := by
    funext id
    simp [without, mem_targets]
  rw [← same]
  exact keeps

/-- **A removal takes exactly the worker's holds on its hashes.** -/
theorem holds_remove_iff (worker : KvWorkerId) (blockHashes : List Int64) (w : KvWorkerId)
    (h : Int64) : (state.remove order worker blockHashes).Holds w h ↔
      state.Holds w h ∧ ¬(w = worker ∧ h ∈ blockHashes) := by
  rw [(remove_spec wf order worker blockHashes).2.holds_iff]
  constructor
  · rintro ⟨id, inside, notRoot, hash, lists⟩
    split at lists
    next target =>
      rw [Finset.mem_erase] at lists
      exact ⟨⟨id, inside, notRoot, hash, lists.2⟩, fun both => lists.1 both.1⟩
    next other =>
      refine ⟨⟨id, inside, notRoot, hash, lists⟩, fun both => other ⟨inside, notRoot, ?_⟩⟩
      rw [hash]
      exact both.2
  · rintro ⟨⟨id, inside, notRoot, hash, lists⟩, other⟩
    refine ⟨id, inside, notRoot, hash, ?_⟩
    split
    next target =>
      refine Finset.mem_erase.mpr ⟨fun same => other ⟨same, ?_⟩, lists⟩
      rw [← hash]
      exact target.2.2
    next => exact lists

end

/-! ### Clearing a worker -/

/-- Nothing is pruned at an occupied node. -/
theorem pruneCascade_of_not_bare (occupied : ¬state.Bare id) : state.pruneCascade id = state := by
  unfold pruneCascade
  cases state.nodes.card with
  | zero => rfl
  | succ fuel =>
    rw [pruneLoop]
    split
    next => rfl
    next notRoot =>
      split
      next => rfl
      next node present =>
        obtain ⟨inside, rfl⟩ := get_eq_some.mp present
        split
        next => rfl
        next parentId _ =>
          rw [if_neg]
          exact fun bare => occupied ⟨inside, notRoot, bare⟩

include shaped in
/-- Pruning leaves no bare node there and makes none. -/
theorem pruneAt_spec (id : ℕ) : Shaped (state.pruneAt id) ∧
      Keeps state (state.pruneAt id) (fun other => (state.node other).workers) ∧
      ∀ other, (state.pruneAt id).Bare other → state.Bare other ∧ other ≠ id := by
  unfold pruneAt
  by_cases bare : state.Bare id
  · rw [if_pos bare.1]
    have pruned := pruneCascade_spec shaped bare
    refine ⟨pruned.shaped, pruned.keeps, fun other bareAfter => ⟨pruned.bare other bareAfter, ?_⟩⟩
    rintro rfl
    exact pruned.gone bareAfter.1
  · have same : (if id ∈ state.nodes then state.pruneCascade id else state) = state := by
      split
      · exact pruneCascade_of_not_bare bare
      · rfl
    rw [same]
    refine ⟨shaped, Keeps.refl state, fun other bareOther => ⟨bareOther, ?_⟩⟩
    rintro rfl
    exact bare bareOther

include shaped in
/-- Pruning all bare nodes leaves the tree well formed. -/
theorem foldl_pruneAt_spec (ids : List ℕ) (all : ∀ id, state.Bare id → id ∈ ids) :
    WellFormed (ids.foldl pruneAt state) ∧
      Keeps state (ids.foldl pruneAt state) fun id => (state.node id).workers := by
  induction ids generalizing state with
  | nil => exact ⟨⟨shaped, fun id bare => by cases all id bare⟩, Keeps.refl state⟩
  | cons id ids ih =>
    obtain ⟨shaped', keeps, bare⟩ := pruneAt_spec shaped id
    obtain ⟨wf, keeps'⟩ := ih shaped' fun other bareAfter =>
      (mem_cons.mp (all other (bare other bareAfter).1)).resolve_left
        (bare other bareAfter).2
    exact ⟨wf, keeps.trans keeps'⟩

/-- The first pass of `clear_worker` on one node. -/
theorem clearAt_spec {walk : TreeState × List ℕ} (shaped : Shaped walk.1)
    (bare : ∀ other, walk.1.Bare other ↔ other ∈ walk.2) (worker : KvWorkerId)
    (notRoot : id ≠ rootId) (member : id ∈ walk.1.nodes) : Shaped (clearAt worker walk id).1 ∧
      (∀ other, (clearAt worker walk id).1.Bare other ↔ other ∈ (clearAt worker walk id).2) ∧
      (clearAt worker walk id).1.nodes = walk.1.nodes ∧
      Keeps walk.1 (clearAt worker walk id).1 (walk.1.without worker [id]) := by
  set next := walk.1.modify id fun node => { node with workers := node.workers.erase worker }
    with isNext
  have shaped' : Shaped next := shaped.modify (sameLinks_eraseWorker worker) id
  have keeps : Keeps walk.1 next (walk.1.without worker [id]) := keeps_eraseWorker walk.1 worker id
  have others : ∀ other, other ≠ id → (next.Bare other ↔ other ∈ walk.2) := by
    intro other different
    rw [← bare]
    simp [Bare, isNext, modify_node, if_neg different]
  have children : (next.node id).children = (walk.1.node id).children :=
    modify_field Node.children (fun _ => by rfl) walk.1 id id
  have workers : (next.node id).workers = (walk.1.node id).workers.erase worker := by simp [isNext]
  have result : clearAt worker walk id =
      if worker ∈ (walk.1.node id).workers ∧ (next.node id).bare then (next, walk.2 ++ [id])
      else (next, walk.2) := by
    simp [clearAt, get_of_mem member, ← isNext]
  have here : next.Bare id ↔ (next.node id).bare = true :=
    ⟨fun isBare => isBare.2.2, fun isBare => ⟨member, notRoot, isBare⟩⟩
  rw [result]
  split
  next candidate =>
    refine ⟨shaped', fun other => ?_, rfl, keeps⟩
    rw [mem_append, mem_singleton]
    by_cases same : other = id
    · rw [same, here]
      exact ⟨fun _ => .inr rfl, fun _ => candidate.2⟩
    · rw [others other same]
      exact ⟨.inl, fun either => either.resolve_right same⟩
  next noCandidate =>
    refine ⟨shaped', fun other => ?_, rfl, keeps⟩
    by_cases same : other = id
    · rw [same, here, ← bare, Node.bare_iff, children, workers]
      by_cases held : worker ∈ (walk.1.node id).workers
      · constructor
        · rintro ⟨noWorkers, noChildren⟩
          refine absurd ⟨held, ?_⟩ noCandidate
          exact Node.bare_iff.mpr ⟨by rw [workers, noWorkers], by rw [children, noChildren]⟩
        · rintro ⟨-, -, isBare⟩
          rw [(Node.bare_iff.mp isBare).1] at held
          cases held
      · rw [Finset.erase_eq_of_notMem held, ← Node.bare_iff]
        exact ⟨fun isBare => ⟨member, notRoot, isBare⟩, fun isBare => isBare.2.2⟩
    · exact others other same

/-- The sweep takes the worker and collects the bare nodes. -/
theorem foldl_clearAt_spec {walk : TreeState × List ℕ} (shaped : Shaped walk.1)
    (bare : ∀ other, walk.1.Bare other ↔ other ∈ walk.2) (worker : KvWorkerId) (ids : List ℕ)
    (notRoot : ∀ id ∈ ids, id ≠ rootId ∧ id ∈ walk.1.nodes) :
    Shaped (ids.foldl (clearAt worker) walk).1 ∧
      (∀ other, (ids.foldl (clearAt worker) walk).1.Bare other ↔
        other ∈ (ids.foldl (clearAt worker) walk).2) ∧
      Keeps walk.1 (ids.foldl (clearAt worker) walk).1 (walk.1.without worker ids) := by
  induction ids generalizing walk with
  | nil => exact ⟨shaped, bare, Keeps.refl walk.1⟩
  | cons id ids ih =>
    obtain ⟨head, tail⟩ := forall_mem_cons.mp notRoot
    obtain ⟨shaped', bare', nodes, keeps⟩ := clearAt_spec shaped bare worker head.1 head.2
    obtain ⟨shaped'', bare'', keeps'⟩ := ih shaped' bare' fun other member => by
      rw [nodes]
      exact tail other member
    exact ⟨shaped'', bare'', keeps.cons keeps'⟩

include wf in
/-- Clearing takes the worker everywhere. -/
theorem clearWorker_spec (worker : KvWorkerId) : WellFormed (state.clearWorker order worker) ∧
      Keeps state (state.clearWorker order worker) (fun id =>
        if id ∈ state.nodes ∧ id ≠ rootId then (state.node id).workers.erase worker
        else (state.node id).workers) := by
  set ids := (order.list state.nodes).filter fun id => id ≠ rootId with isIds
  have mem_ids : ∀ id, id ∈ ids ↔ id ∈ state.nodes ∧ id ≠ rootId := by simp [isIds, order.mem_iff]
  obtain ⟨shaped, bare, keeps⟩ := @foldl_clearAt_spec (state, []) wf.toShaped
    (fun other => ⟨fun isBare => absurd isBare (wf.occupied other), nofun⟩)
    worker ids fun id member => ((mem_ids id).mp member).symm
  obtain ⟨wf', keeps'⟩ := foldl_pruneAt_spec shaped _ fun id isBare => (bare id).mp isBare
  have same : state.without worker ids = fun id =>
      if id ∈ state.nodes ∧ id ≠ rootId then (state.node id).workers.erase worker
      else (state.node id).workers := by
    funext id
    simp [without, mem_ids]
  rw [← same]
  exact ⟨wf', keeps.trans keeps'⟩

include wf in
/-- **Clearing takes exactly the worker's holds.** -/
theorem holds_clearWorker_iff (worker w : KvWorkerId) (h : Int64) :
    (state.clearWorker order worker).Holds w h ↔ state.Holds w h ∧ w ≠ worker := by
  rw [(clearWorker_spec wf order worker).2.holds_iff]
  constructor
  · rintro ⟨id, inside, notRoot, hash, lists⟩
    rw [if_pos ⟨inside, notRoot⟩, Finset.mem_erase] at lists
    exact ⟨⟨id, inside, notRoot, hash, lists.2⟩, lists.1⟩
  · rintro ⟨⟨id, inside, notRoot, hash, lists⟩, different⟩
    refine ⟨id, inside, notRoot, hash, ?_⟩
    rw [if_pos ⟨inside, notRoot⟩]
    exact Finset.mem_erase.mpr ⟨different, lists⟩

end TreeState

end AvaServe.Router
