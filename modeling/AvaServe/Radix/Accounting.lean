import Mathlib
import AvaServe.Foundation.Path
import AvaServe.Radix.PrefixRefinement

/-!
# Lock counts, sizes and evictable leaves

The numbers a radix cache keeps next to its tree. `Accounts` says what the two sizes
and the set of evictable leaves are for the tree as it stands, and `LocksMatch` that
a node counts the outstanding locks at and below it. Each elementary change of the
tree keeps both, and from `LocksMatch` follows that a tree without evictable leaves
has no unlocked node at all, which is why eviction can reclaim every unlocked
token.
-/

namespace AvaServe.Radix.RadixCache

open Foundation List AList

/-- Total key length of the unlocked nodes. -/
noncomputable def unlockedSize (cache : RadixCache) : ℤ :=
  ∑ id ∈ cache.nodes.erase cache.rootNode,
    if (cache.node id).lockRef = 0 then ((cache.node id).key.len : ℤ) else 0

/-- Total key length of the locked nodes. -/
noncomputable def lockedSize (cache : RadixCache) : ℤ :=
  ∑ id ∈ cache.nodes.erase cache.rootNode,
    if (cache.node id).lockRef = 0 then 0 else ((cache.node id).key.len : ℤ)

/-- A total over the nodes below the root, by their lock counts and key lengths. -/
noncomputable def total (cache : RadixCache) (weight : ℤ → ℕ → ℤ) : ℤ :=
  ∑ id ∈ cache.nodes.erase cache.rootNode, weight (cache.node id).lockRef (cache.node id).key.len

/-- The length of an unlocked node. -/
def unlockedLen (lock : ℤ) (length : ℕ) : ℤ := if lock = 0 then length else 0

/-- The length of a locked node. -/
def lockedLen (lock : ℤ) (length : ℕ) : ℤ := if lock = 0 then 0 else length

/-- An unlocked node without children, other than the root. -/
def EvictableLeaf (cache : RadixCache) (id : ℕ) : Prop :=
  id ∈ cache.nodes ∧ id ≠ cache.rootNode ∧ (cache.node id).lockRef = 0 ∧
    (cache.node id).children = ∅

/-- The sizes and the set of leaves are those of the tree. -/
structure Accounts (cache : RadixCache) : Prop where
  nonneg : ∀ id ∈ cache.nodes, 0 ≤ (cache.node id).lockRef
  evictable : cache.evictableSize = cache.unlockedSize
  locked : cache.protectedSize = cache.lockedSize
  leaves : ∀ id, id ∈ cache.evictableLeaves ↔ cache.EvictableLeaf id

open Classical in
/-- Number of outstanding locks held at nodes of the subtree of `id`. -/
noncomputable def locksBelow (cache : RadixCache) (holders : List ℕ) (id : ℕ) : ℕ :=
  holders.countP fun holder => cache.links.Climbs holder id

/-- Locks are held at nodes of the tree, and a node below the root counts the locks
of its subtree. -/
structure LocksMatch (cache : RadixCache) (holders : List ℕ) : Prop where
  member : ∀ holder ∈ holders, holder ∈ cache.nodes
  count : ∀ id ∈ cache.nodes, id ≠ cache.rootNode →
    (cache.node id).lockRef = cache.locksBelow holders id

/-! ### Leaves and sums -/

section Basics

variable {cache : RadixCache} {full : ℕ → List KeyUnit} {vals : ℕ → List ℕ}

/-- In a well-formed tree every child holds a value. -/
theorem leafReady_iff (wf : WellFormed cache full vals) {id : ℕ} (member : id ∈ cache.nodes)
    (nonneg : 0 ≤ (cache.node id).lockRef) :
    LeafReady cache.node id ↔ (cache.node id).lockRef = 0 ∧ (cache.node id).children = ∅ := by
  constructor
  · rintro ⟨-, unlocked, childless⟩
    refine ⟨le_antisymm unlocked nonneg, ?_⟩
    apply ext
    rw [empty_entries, eq_nil_iff_forall_not_mem]
    intro entry inside
    have found : cache.links.child id entry.1 = some entry.2 := mem_lookup_iff.mpr inside
    have valued := wf.valued _ (wf.tree.of_child member found).1
    rw [childless entry inside] at valued
    cases valued
  · rintro ⟨unlocked, childless⟩
    exact ⟨wf.valued id member, unlocked.le, by simp [childless]⟩

/-- No children, no entries. -/
theorem children_eq_empty_iff (node : TreeNode) :
    node.children = ∅ ↔ ∀ key, node.children.lookup key = none := by
  constructor
  · intro empty key
    rw [empty, lookup_empty]
  · intro vacant
    apply ext
    rw [empty_entries, eq_nil_iff_forall_not_mem]
    intro entry inside
    have found := mem_lookup_iff.mpr inside
    rw [vacant] at found
    cases found

/-- A sum whose summand changes at one place changes by the difference there. -/
theorem sum_change {ι : Type*} [DecidableEq ι] {set : Finset ι} {before after : ι → ℤ} {at_ : ι}
    (member : at_ ∈ set) (same : ∀ i ∈ set, i ≠ at_ → after i = before i) :
    ∑ i ∈ set, after i = ∑ i ∈ set, before i - before at_ + after at_ := by
  rw [← Finset.add_sum_erase _ _ member, ← Finset.add_sum_erase _ before member,
    Finset.sum_congr rfl fun i inside =>
      same i (Finset.mem_of_mem_erase inside) (Finset.ne_of_mem_erase inside)]
  ring

end Basics

/-! ### Stamps and splits -/

section Moves

variable {cache after : RadixCache} {full : ℕ → List KeyUnit} {vals : ℕ → List ℕ}
variable {holders : List ℕ}

/-- Stamps keep the totals. -/
theorem Stamped.total_eq (stamped : Stamped cache after) (weight : ℤ → ℕ → ℤ) :
    after.total weight = cache.total weight := by
  rw [total, total, stamped.nodes, stamped.rootNode]
  simp [stamped.lockRef, stamped.key]

/-- They keep the accounts. -/
theorem Accounts.stamped (accounts : Accounts cache) (stamped : Stamped cache after) :
    Accounts after where
  nonneg id member := by
    rw [stamped.lockRef]
    exact accounts.nonneg id (stamped.nodes ▸ member)
  evictable := by
    have size : after.evictableSize = cache.evictableSize := by rw [stamped.frame]
    exact size.trans (accounts.evictable.trans (stamped.total_eq unlockedLen).symm)
  locked := by
    have size : after.protectedSize = cache.protectedSize := by rw [stamped.frame]
    exact size.trans (accounts.locked.trans (stamped.total_eq lockedLen).symm)
  leaves id := by
    have leaves : after.evictableLeaves = cache.evictableLeaves := by rw [stamped.frame]
    rw [leaves, accounts.leaves, EvictableLeaf, EvictableLeaf, stamped.nodes, stamped.rootNode,
      stamped.lockRef, stamped.children]

/-- They keep the locks. -/
theorem LocksMatch.stamped (locks : LocksMatch cache holders) (stamped : Stamped cache after) :
    LocksMatch after holders where
  member holder held := stamped.nodes ▸ locks.member holder held
  count id member notRoot := by
    rw [stamped.lockRef, locksBelow, stamped.links]
    exact locks.count id (stamped.nodes ▸ member) (stamped.rootNode ▸ notRoot)

/-- The total with a new node. -/
theorem total_insert (wf : WellFormed cache full vals) (root : after.rootNode = cache.rootNode)
    (nodes : after.nodes = Insert.insert cache.counter cache.nodes) (weight : ℤ → ℕ → ℤ) :
    after.total weight =
      weight (after.node cache.counter).lockRef (after.node cache.counter).key.len +
        ∑ id ∈ cache.nodes.erase cache.rootNode,
          weight (after.node id).lockRef (after.node id).key.len := by
  rw [total, root, nodes, Finset.erase_insert_of_ne (lt_counter_of_mem wf.root_mem).ne',
    Finset.sum_insert fun inside => cache.counter_notMem_nodes (Finset.mem_of_mem_erase inside)]

variable {child above splitLen : ℕ}

variable (point : SplitPoint cache child above splitLen) (wf : WellFormed cache full vals)
  (clock : Clock)

section

include point wf clock

/-- A quantity that is additive in the lengths has the same total after a split. -/
theorem SplitPoint.total_eq (weight : ℤ → ℕ → ℤ)
    (additive : ∀ lock low high, weight lock (low + high) = weight lock low + weight lock high) :
    (point.result clock).total weight = cache.total weight := by
  have childIn : child ∈ cache.nodes.erase cache.rootNode :=
    Finset.mem_erase.mpr ⟨point.child_notRoot wf, point.member⟩
  have others : ∀ id ∈ (cache.nodes.erase cache.rootNode).erase child,
      weight ((point.result clock).node id).lockRef ((point.result clock).node id).key.len =
        weight (cache.node id).lockRef (cache.node id).key.len := by
    intro id inside
    obtain ⟨notChild, inside⟩ := Finset.mem_erase.mp inside
    have member : id ∈ (point.result clock).nodes := by
      rw [point.nodes wf clock]
      exact Finset.mem_insert_of_mem (Finset.mem_of_mem_erase inside)
    obtain isFresh | isChild | ⟨-, -, children, entry⟩ := point.node_cases wf clock member
    · exact absurd (isFresh ▸ Finset.mem_of_mem_erase inside) cache.counter_notMem_nodes
    · exact absurd isChild notChild
    · rw [entry]
  rw [total_insert wf (by rw [point.frame]) (point.nodes wf clock),
    ← Finset.add_sum_erase _ _ childIn, Finset.sum_congr rfl others, ← add_assoc,
    point.node_fresh wf, point.node_child wf]
  simp only [RadixKey.len_takeUnits, RadixKey.len_dropUnits, min_eq_left point.short.le, ← additive,
    Nat.add_sub_cancel' point.short.le]
  exact Finset.add_sum_erase _ (fun id => weight (cache.node id).lockRef (cache.node id).key.len)
    childIn

end

/-- A split keeps the accounts. -/
theorem Accounts.split (accounts : Accounts cache) (wf : WellFormed cache full vals)
    (point : SplitPoint cache child above splitLen) (clock : Clock) :
    Accounts (point.result clock) := by
  have root : (point.result clock).rootNode = cache.rootNode := by rw [point.frame]
  have freshEntry := point.node_fresh wf clock
  have childEntry := point.node_child wf clock
  refine ⟨fun id member => ?_, ?_, ?_, fun id => ?_⟩
  · obtain isFresh | isChild | ⟨old, -, children, entry⟩ := point.node_cases wf clock member
    · rw [isFresh, freshEntry]
      exact accounts.nonneg child point.member
    · rw [isChild, childEntry]
      exact accounts.nonneg child point.member
    · rw [entry]
      exact accounts.nonneg id old
  · have size : (point.result clock).evictableSize = cache.evictableSize := by rw [point.frame]
    rw [size, accounts.evictable]
    refine (point.total_eq wf clock unlockedLen fun lock low high => ?_).symm
    simp [unlockedLen, ite_add_ite]
  · have size : (point.result clock).protectedSize = cache.protectedSize := by rw [point.frame]
    rw [size, accounts.locked]
    refine (point.total_eq wf clock lockedLen fun lock low high => ?_).symm
    simp [lockedLen, ite_add_ite]
  · have leaves : (point.result clock).evictableLeaves = cache.evictableLeaves := by
      rw [point.frame]
    rw [leaves, accounts.leaves, EvictableLeaf, EvictableLeaf, root, point.nodes wf clock]
    by_cases isFresh : id = cache.counter
    · rw [isFresh, freshEntry]
      refine iff_of_false (fun leaf => cache.counter_notMem_nodes leaf.1) fun leaf => ?_
      have lookup := (children_eq_empty_iff _).mp leaf.2.2.2
      simp [← insert_empty] at lookup
    · rw [Finset.mem_insert, or_iff_right isFresh]
      by_cases isAbove : id = above
      · rw [isAbove, point.node_above wf clock]
        refine iff_of_false (fun leaf => ?_) fun leaf => ?_
        · have lookup := (children_eq_empty_iff _).mp leaf.2.2.2
            ((cache.node child).key.childKey cache.pageSize)
          have filed := wf.tree.child_of_parent point.member point.parent
          exact absurd (filed.symm.trans lookup) (by simp)
        · have lookup := (children_eq_empty_iff _).mp leaf.2.2.2
            ((cache.node child).key.childKey cache.pageSize)
          simp at lookup
      · by_cases isChild : id = child
        · rw [isChild, childEntry]
        · rw [point.node_other clock isAbove isChild isFresh]

/-- It keeps the locks. -/
theorem LocksMatch.split (locks : LocksMatch cache holders) (wf : WellFormed cache full vals)
    (point : SplitPoint cache child above splitLen) (clock : Clock) :
    LocksMatch (point.result clock) holders := by
  have root : (point.result clock).rootNode = cache.rootNode := by rw [point.frame]
  have climbs {holder target : ℕ} (held : holder ∈ holders) :
      (point.result clock).links.Climbs holder target ↔ cache.links.Climbs holder target ∨
        target = cache.counter ∧ cache.links.Climbs holder child := by
    rw [point.links wf clock]
    exact wf.tree.climbs_splice cache.counter_notMem_nodes point.member point.parent
      (locks.member holder held)
  refine ⟨fun holder held => ?_, fun id member notRoot => ?_⟩
  · rw [point.nodes wf clock]
    exact Finset.mem_insert_of_mem (locks.member holder held)
  · rw [root] at notRoot
    rw [point.nodes wf clock] at member
    obtain rfl | member := Finset.mem_insert.mp member
    · have same : (point.result clock).locksBelow holders cache.counter =
          cache.locksBelow holders child := by
        refine countP_congr fun holder held => ?_
        simp only [decide_eq_true_eq, climbs held, true_and, or_iff_right_iff_imp]
        intro reached
        exact absurd (wf.tree.mem_of_climbs (locks.member holder held) reached)
          cache.counter_notMem_nodes
      rw [same, point.node_fresh wf clock]
      exact locks.count child point.member (point.child_notRoot wf)
    · have same : (point.result clock).locksBelow holders id = cache.locksBelow holders id := by
        refine countP_congr fun holder held => ?_
        simp [climbs held, (lt_counter_of_mem member).ne]
      rw [same, (point.kept_of_mem wf clock member).2]
      exact locks.count id member notRoot

end Moves

/-! ### New leaves -/

section Leaves

variable {cache after : RadixCache} {full : ℕ → List KeyUnit} {vals : ℕ → List ℕ}
variable {holders : List ℕ} {cursor : InsertCursor} (inserted : Inserted cache after cursor)
  (point : LeafPoint cache cursor) (wf : WellFormed cache full vals)

include inserted point wf

/-- A total grows by the new leaf's share. -/
theorem Inserted.total_eq (weight : ℤ → ℕ → ℤ) :
    after.total weight = weight 0 cursor.key.len + cache.total weight := by
  obtain ⟨-, -, key, -, lock⟩ := inserted.node_fresh
  rw [total_insert wf (by rw [inserted.frame]) (inserted.nodes point wf), key, lock]
  refine congrArg _ (Finset.sum_congr rfl fun id inside => ?_)
  obtain ⟨children, entry⟩ := inserted.node_of_mem (Finset.mem_of_mem_erase inside)
  rw [entry]

/-- A new leaf keeps the accounts. -/
theorem Accounts.insert (accounts : Accounts cache) : Accounts after := by
  have wf' := inserted.wellFormed point wf
  have nodes := inserted.nodes point wf
  have totals := inserted.total_eq point wf
  obtain ⟨freshChildren, -, -, -, freshLock⟩ := inserted.node_fresh
  have root : after.rootNode = cache.rootNode := by rw [inserted.frame]
  have freshMem : cache.counter ∈ after.nodes := nodes ▸ Finset.mem_insert_self _ _
  have nonneg : ∀ id ∈ after.nodes, 0 ≤ (after.node id).lockRef := by
    intro id member
    obtain isFresh | ⟨old, children, entry⟩ := inserted.node_cases point wf member
    · rw [isFresh, freshLock]
    · rw [entry]
      exact accounts.nonneg id old
  refine ⟨nonneg, ?_, ?_, fun id => ?_⟩
  · have size : after.evictableSize = cache.evictableSize + cursor.key.len := by
      rw [inserted.frame]
    rw [size, accounts.evictable, add_comm]
    exact (totals unlockedLen).symm
  · have size : after.protectedSize = cache.protectedSize := by rw [inserted.frame]
    rw [size, accounts.locked, ← zero_add cache.lockedSize]
    exact (totals lockedLen).symm
  · have ready : LeafReady after.node cache.counter :=
      (leafReady_iff wf' freshMem (nonneg _ freshMem)).mpr ⟨freshLock, freshChildren⟩
    have parent : (after.node cursor.node).children ≠ ∅ := by
      intro empty
      have lookup := (children_eq_empty_iff _).mp empty (cursor.key.childKey cache.pageSize)
      rw [inserted.node_above] at lookup
      simp at lookup
    have busy : ¬ LeafReady after.node cursor.node := by
      have aboveMem : cursor.node ∈ after.nodes := nodes ▸ Finset.mem_insert_of_mem point.member
      rw [leafReady_iff wf' aboveMem (nonneg _ aboveMem)]
      exact fun both => parent both.2
    rw [inserted.leaves, if_pos ready, if_neg busy, Finset.mem_insert, Finset.mem_erase,
      accounts.leaves, EvictableLeaf, EvictableLeaf, root, nodes, Finset.mem_insert]
    by_cases isFresh : id = cache.counter
    · subst isFresh
      exact iff_of_true (.inl rfl)
        ⟨.inl rfl, (lt_counter_of_mem wf.root_mem).ne', freshLock, freshChildren⟩
    · rw [or_iff_right isFresh, or_iff_right isFresh]
      by_cases isAbove : id = cursor.node
      · rw [isAbove]
        exact iff_of_false (fun both => both.1 rfl) fun leaf => parent leaf.2.2.2
      · rw [inserted.node_other id isAbove isFresh, and_iff_right isAbove]

/-- It keeps the locks. -/
theorem LocksMatch.insert (locks : LocksMatch cache holders) : LocksMatch after holders := by
  have root : after.rootNode = cache.rootNode := by rw [inserted.frame]
  have same (id : ℕ) : after.locksBelow holders id = cache.locksBelow holders id := by
    refine countP_congr fun holder held => ?_
    simp only [decide_eq_true_eq, inserted.links point]
    exact wf.tree.climbs_addLeaf cache.counter_notMem_nodes (locks.member holder held)
  refine ⟨fun holder held => ?_, fun id member notRoot => ?_⟩
  · rw [inserted.nodes point wf]
    exact Finset.mem_insert_of_mem (locks.member holder held)
  rw [same]
  obtain isFresh | ⟨old, children, entry⟩ := inserted.node_cases point wf member
  · rw [isFresh, inserted.node_fresh.2.2.2.2, eq_comm, Nat.cast_eq_zero, locksBelow, countP_eq_zero]
    intro holder held
    simp
    intro reached
    exact cache.counter_notMem_nodes (wf.tree.mem_of_climbs (locks.member holder held) reached)
  · rw [entry]
    exact locks.count id old (root ▸ notRoot)

end Leaves

/-! ### Locks -/

section Locks

variable {cache after : RadixCache} {full : ℕ → List KeyUnit} {vals : ℕ → List ℕ}
variable {holders : List ℕ} {id : ℕ}

/-- What a round of a lock walk does at `id`: the lock count becomes `lock`, and the
node's length moves between the two sizes when it enters or leaves zero. -/
structure Relocked (cache after : RadixCache) (id : ℕ) (lock : ℤ) : Prop where
  frame : after = { cache with
    node := after.node
    evictableSize := after.evictableSize
    protectedSize := after.protectedSize
    evictableLeaves := after.evictableLeaves }
  shape : SameShape cache after
  here : (after.node id).lockRef = lock
  other : ∀ other, other ≠ id → (after.node other).lockRef = (cache.node other).lockRef
  evictable : 0 ≤ (cache.node id).lockRef → 0 ≤ lock → after.evictableSize = cache.evictableSize
      - (if (cache.node id).lockRef = 0 then ((cache.node id).key.len : ℤ) else 0)
      + (if lock = 0 then ((cache.node id).key.len : ℤ) else 0)
  locked : 0 ≤ (cache.node id).lockRef → 0 ≤ lock → after.protectedSize = cache.protectedSize
      - (if (cache.node id).lockRef = 0 then 0 else ((cache.node id).key.len : ℤ))
      + (if lock = 0 then 0 else ((cache.node id).key.len : ℤ))
  leaves : after.evictableLeaves =
    if LeafReady after.node id then Insert.insert id cache.evictableLeaves
    else cache.evictableLeaves.erase id

/-- Changing the lock count of one node keeps the shape. -/
theorem sameShape_modifyNode_lockRef (cache : RadixCache) (id : ℕ) (change : ℤ → ℤ) :
    SameShape cache
      (cache.modifyNode id fun node => { node with lockRef := change node.lockRef }) := by
  have entry (other : ℕ) : ∃ lock,
      (cache.modifyNode id fun node => { node with lockRef := change node.lockRef }).node other =
        { cache.node other with lockRef := lock } := by
    by_cases same : other = id
    · subst same
      exact ⟨change (cache.node other).lockRef, by simp [modifyNode, setNode]⟩
    · exact ⟨(cache.node other).lockRef, by simp [modifyNode, setNode, same]⟩
  refine ⟨rfl, rfl, rfl, ?_, ?_, ?_, ?_⟩ <;> intro other <;>
    obtain ⟨lock, entry⟩ := entry other <;> rw [entry]

/-- A lock counts up. -/
theorem relocked_lockNode (cache : RadixCache) (id : ℕ) :
    Relocked cache (cache.lockNode id) id ((cache.node id).lockRef + 1) := by
  have shape := cache.sameShape_modifyNode_lockRef id (· + 1)
  refine ⟨?_, ?_, ?_, fun other different => ?_, fun old new => ?_, fun old new => ?_, ?_⟩
  · rw [lockNode, updateLeafStatus_frame]
    rfl
  · rw [lockNode, updateLeafStatus_frame]
    exact ⟨rfl, rfl, rfl, shape.children, shape.parent, shape.key, shape.value⟩
  · simp [lockNode, modifyNode, setNode]
  · simp [lockNode, modifyNode, setNode, different]
  · rw [lockNode, updateLeafStatus_frame, if_neg (show ¬ (cache.node id).lockRef + 1 = 0 by omega)]
    simp [lenAtLockRef]
  · rw [lockNode, updateLeafStatus_frame, if_neg (show ¬ (cache.node id).lockRef + 1 = 0 by omega)]
    simp only [lenAtLockRef]
    split <;> ring
  · rw [lockNode, updateLeafStatus_leaves, updateLeafStatus_node]
    rfl

/-- A release counts down. -/
theorem relocked_unlockNode (cache : RadixCache) (id : ℕ) :
    Relocked cache (cache.unlockNode id) id ((cache.node id).lockRef + (-1)) := by
  have shape := cache.sameShape_modifyNode_lockRef id (· - 1)
  refine ⟨?_, ?_, ?_, fun other different => ?_, fun old new => ?_, fun old new => ?_, ?_⟩
  · rw [unlockNode, updateLeafStatus_frame]
    rfl
  · rw [unlockNode, updateLeafStatus_frame]
    exact ⟨rfl, rfl, rfl, shape.children, shape.parent, shape.key, shape.value⟩
  · simp [unlockNode, modifyNode, setNode, sub_eq_add_neg]
  · simp [unlockNode, modifyNode, setNode, different]
  · rw [unlockNode, updateLeafStatus_frame, if_neg (show ¬ (cache.node id).lockRef = 0 by omega)]
    simp [lenAtLockRef, add_neg_eq_zero]
  · rw [unlockNode, updateLeafStatus_frame, if_neg (show ¬ (cache.node id).lockRef = 0 by omega)]
    simp only [lenAtLockRef, add_neg_eq_zero]
    split <;> ring
  · rw [unlockNode, updateLeafStatus_leaves, updateLeafStatus_node]
    rfl

/-- A lock keeps the cache well formed. -/
theorem Relocked.wellFormed {lock : ℤ} (step : Relocked cache after id lock)
    (wf : WellFormed cache full vals) (notRoot : id ≠ cache.rootNode) :
    WellFormed after full vals := by
  refine step.shape.wellFormed wf ?_
  rw [step.shape.rootNode, step.other _ notRoot.symm]
  exact wf.root_lock

/-- It keeps the accounts. -/
theorem Accounts.relocked (accounts : Accounts cache) {lock : ℤ}
    (step : Relocked cache after id lock) (wf : WellFormed cache full vals)
    (member : id ∈ cache.nodes) (notRoot : id ≠ cache.rootNode) (nonneg : 0 ≤ lock) :
    Accounts after := by
  have inside : id ∈ cache.nodes.erase cache.rootNode := Finset.mem_erase.mpr ⟨notRoot, member⟩
  have old := accounts.nonneg id member
  have nonneg' : ∀ other ∈ after.nodes, 0 ≤ (after.node other).lockRef := by
    intro other otherMem
    by_cases same : other = id
    · rw [same, step.here]
      exact nonneg
    · rw [step.other other same]
      exact accounts.nonneg other (step.shape.nodes ▸ otherMem)
  have totals (weight : ℤ → ℕ → ℤ) : after.total weight = cache.total weight
        - weight (cache.node id).lockRef (cache.node id).key.len
        + weight lock (cache.node id).key.len := by
    have others : ∀ other ∈ cache.nodes.erase cache.rootNode, other ≠ id →
        weight (after.node other).lockRef (after.node other).key.len =
          weight (cache.node other).lockRef (cache.node other).key.len := by
      intro other _ different
      rw [step.other other different, step.shape.key]
    rw [total, step.shape.nodes, step.shape.rootNode, sum_change inside others, step.here,
      step.shape.key]
    rfl
  refine ⟨nonneg', ?_, ?_, fun other => ?_⟩
  · rw [step.evictable old nonneg, accounts.evictable]
    exact (totals unlockedLen).symm
  · rw [step.locked old nonneg, accounts.locked]
    exact (totals lockedLen).symm
  · have ready := leafReady_iff (step.wellFormed wf notRoot) (step.shape.nodes ▸ member)
      (step.here ▸ nonneg)
    by_cases same : other = id
    · subst same
      rw [step.leaves, EvictableLeaf, step.shape.nodes, step.shape.rootNode, and_iff_right member,
        and_iff_right notRoot, ← ready]
      by_cases isReady : LeafReady after.node other
      · rw [if_pos isReady]
        exact iff_of_true (Finset.mem_insert_self _ _) isReady
      · rw [if_neg isReady]
        exact iff_of_false (Finset.notMem_erase _ _) isReady
    · have unaffected : other ∈ after.evictableLeaves ↔ other ∈ cache.evictableLeaves := by
        rw [step.leaves]
        split <;> simp [same]
      rw [unaffected, accounts.leaves, EvictableLeaf, EvictableLeaf, step.shape.nodes,
        step.shape.rootNode, step.other other same, step.shape.children]

/-- What a whole lock walk does: the lock count of every node in `nodes` changes by
`change`, and nothing else of the tree does. -/
structure Walked (cache after : RadixCache) (nodes : List ℕ) (change : ℤ) : Prop where
  frame : after = { cache with
    node := after.node
    evictableSize := after.evictableSize
    protectedSize := after.protectedSize
    evictableLeaves := after.evictableLeaves }
  shape : SameShape cache after
  lockRef : ∀ id, (after.node id).lockRef =
    (cache.node id).lockRef + if id ∈ nodes then change else 0

variable {step : RadixCache → ℕ → RadixCache} {change : ℤ}
  (spec : ∀ cache id, Relocked cache (step cache id) id ((cache.node id).lockRef + change))
  (wf : WellFormed cache full vals)

include spec wf in
/-- A walk keeps the accounts when it visits each node once and takes no count below
zero. -/
theorem walked_foldl (accounts : Accounts cache) {nodes : List ℕ} (nodup : nodes.Nodup)
    (inside : ∀ id ∈ nodes, id ∈ cache.nodes ∧ id ≠ cache.rootNode ∧ 0 ≤ (cache.node id).lockRef +
      change) : Walked cache (nodes.foldl step cache) nodes change ∧
      WellFormed (nodes.foldl step cache) full vals ∧ Accounts (nodes.foldl step cache) := by
  induction nodes generalizing cache with
  | nil =>
    exact ⟨⟨rfl, ⟨rfl, rfl, rfl, fun _ => rfl, fun _ => rfl, fun _ => rfl, fun _ => rfl⟩,
      fun id => by simp⟩, wf, accounts⟩
  | cons id nodes ih =>
    obtain ⟨member, notRoot, nonneg⟩ := inside id mem_cons_self
    obtain ⟨absent, nodup⟩ := nodup_cons.mp nodup
    have first := spec cache id
    have shape := first.shape
    obtain ⟨walked, wf', accounts'⟩ := ih (first.wellFormed wf notRoot)
      (accounts.relocked first wf member notRoot nonneg) nodup fun other inNodes => by
        have different : other ≠ id := fun same => absent (same ▸ inNodes)
        rw [shape.nodes, shape.rootNode, first.other other different]
        exact inside other (mem_cons_of_mem _ inNodes)
    rw [foldl_cons]
    refine ⟨⟨?_, ?_, fun other => ?_⟩, wf', accounts'⟩
    · rw [walked.frame, first.frame]
    · have rest := walked.shape
      exact ⟨rest.pageSize.trans shape.pageSize, rest.counter.trans shape.counter,
        rest.rootNode.trans shape.rootNode, fun i => (rest.children i).trans (shape.children i),
        fun i => (rest.parent i).trans (shape.parent i), fun i => (rest.key i).trans (shape.key i),
        fun i => (rest.value i).trans (shape.value i)⟩
    · rw [walked.lockRef other]
      by_cases same : other = id
      · rw [same, first.here, if_neg absent, if_pos mem_cons_self, add_zero]
      · rw [first.other other same]
        simp [same]

/-- The cache that a walk with a running sum returns. -/
theorem fst_foldl_pair (step : RadixCache → ℕ → RadixCache) (add : ℤ → RadixCache → ℕ → ℤ)
    (nodes : List ℕ) (cache : RadixCache) (start : ℤ) :
    (nodes.foldl (fun (state : RadixCache × ℤ) id =>
      (step state.1 id, add state.2 state.1 id)) (cache, start)).1 = nodes.foldl step cache := by
  induction nodes generalizing cache start with
  | nil => rfl
  | cons id nodes ih => exact ih _ _

/-- The locks below read the shape. -/
theorem locksBelow_of_shape (shape : SameShape cache after) (holders : List ℕ) (id : ℕ) :
    after.locksBelow holders id = cache.locksBelow holders id := by
  rw [locksBelow, locksBelow, shape.links]

/-- One holder more. -/
theorem locksBelow_cons (cache : RadixCache) (holder : ℕ) (holders : List ℕ) (id : ℕ)
    [Decidable (cache.links.Climbs holder id)] : cache.locksBelow (holder :: holders) id =
      cache.locksBelow holders id + if cache.links.Climbs holder id then 1 else 0 := by
  rw [locksBelow, locksBelow, countP_cons]
  simp

variable {holder : ℕ}

include spec wf in
open Classical in
/-- A lock walk from a node to the root leaves the locks of `held` if these differ from the
former ones by the locks of the walk. -/
theorem lockWalk_spec (accounts : Accounts cache) (locks : LocksMatch cache holders)
    (member : holder ∈ cache.nodes) {held : List ℕ} (inside : ∀ other ∈ held, other ∈ cache.nodes)
    (counted : ∀ id, (cache.locksBelow held id : ℤ) =
      cache.locksBelow holders id + if cache.links.Climbs holder id then change else 0) :
    ∃ nodes, cache.ancestors holder = some nodes ∧
      Walked cache (nodes.foldl step cache) nodes change ∧
      WellFormed (nodes.foldl step cache) full vals ∧ Accounts (nodes.foldl step cache) ∧
      LocksMatch (nodes.foldl step cache) held := by
  obtain ⟨nodes, found, nodup, mem_iff⟩ := wf.tree.ancestors_spec member
  have climbed : ∀ id ∈ nodes, id ∈ cache.nodes ∧ id ≠ cache.rootNode ∧
      0 ≤ (cache.node id).lockRef + change := by
    intro id inNodes
    obtain ⟨notRoot, climbs⟩ := (mem_iff id).mp inNodes
    have idMem := wf.tree.mem_of_climbs member climbs
    have total := counted id
    rw [if_pos climbs, ← locks.count id idMem notRoot] at total
    exact ⟨idMem, notRoot, total ▸ Int.natCast_nonneg _⟩
  obtain ⟨walked, wf', accounts'⟩ := walked_foldl spec wf accounts nodup climbed
  refine ⟨nodes, found _ cache.card_nodes_le, walked, wf', accounts', fun other held => ?_,
    fun id idMem notRoot => ?_⟩
  · rw [walked.shape.nodes]
    exact inside other held
  · rw [walked.shape.nodes] at idMem
    rw [walked.shape.rootNode] at notRoot
    rw [locksBelow_of_shape walked.shape, counted, walked.lockRef, locks.count id idMem notRoot]
    by_cases climbs : cache.links.Climbs holder id <;> simp [mem_iff, notRoot]

variable (wf : WellFormed cache full vals) (accounts : Accounts cache)
  (locks : LocksMatch cache holders)

section

include wf accounts locks

/-- Locking a node of the tree returns and locks it and the nodes above it. -/
theorem incLockRef_spec (enabled : cache.disable = false) (member : holder ∈ cache.nodes) :
    ∃ nodes after delta, cache.incLockRef holder = some (after, delta) ∧
      Walked cache after nodes 1 ∧ WellFormed after full vals ∧ Accounts after ∧
      LocksMatch after (holder :: holders) := by
  classical
  obtain ⟨nodes, found, walked⟩ := lockWalk_spec relocked_lockNode wf accounts locks member
    (forall_mem_cons.mpr ⟨member, locks.member⟩) fun id => by
      rw [locksBelow_cons]
      push_cast
      rfl
  have walk := fst_foldl_pair lockNode (fun delta cache id => delta - cache.lenAtLockRef id 0)
    nodes cache 0
  rw [incLockRef, enabled, found]
  exact ⟨nodes, _, _, congrArg some (Prod.ext walk rfl), walked⟩

/-- Releasing a lock that is held returns and unlocks its node and the nodes above. -/
theorem decLockRef_spec (enabled : cache.disable = false) (held : holder ∈ holders) :
    ∃ nodes after delta, cache.decLockRef holder = some (after, delta) ∧
      Walked cache after nodes (-1) ∧ WellFormed after full vals ∧ Accounts after ∧
      LocksMatch after (holders.erase holder) := by
  classical
  have split (id : ℕ) : cache.locksBelow holders id = cache.locksBelow (holders.erase holder) id +
        if cache.links.Climbs holder id then 1 else 0 := by
    rw [← locksBelow_cons]
    exact (perm_cons_erase held).countP_eq _
  obtain ⟨nodes, found, walked⟩ := lockWalk_spec relocked_unlockNode wf accounts locks
    (locks.member holder held)
    (fun other (member : other ∈ holders.erase holder) =>
      locks.member other (mem_of_mem_erase member)) fun id => by
      rw [split]
      split <;> simp
  have walk := fst_foldl_pair unlockNode (fun delta cache id => delta + cache.lenAtLockRef id 1)
    nodes cache 0
  rw [decLockRef, enabled, found]
  exact ⟨nodes, _, _, congrArg some (Prod.ext walk rfl), walked⟩

end

end Locks

/-! ### Eviction -/

section Eviction

variable {cache after : RadixCache} {full : ℕ → List KeyUnit} {vals : ℕ → List ℕ}
variable {holders : List ℕ} {leaf above : ℕ}

/-- A total shrinks by the removed leaf's share. -/
theorem Removed.total_eq (removed : Removed cache after leaf above)
    (wf : WellFormed cache full vals) (evictable : cache.EvictableLeaf leaf)
    (parent : (cache.node leaf).parent = some above) (weight : ℤ → ℕ → ℤ) :
    after.total weight = cache.total weight - weight 0 (cache.node leaf).key.len := by
  obtain ⟨member, notRoot, unlocked, childless⟩ := evictable
  have root : after.rootNode = cache.rootNode := by rw [removed.frame]
  have inside : leaf ∈ cache.nodes.erase cache.rootNode := Finset.mem_erase.mpr ⟨notRoot, member⟩
  rw [total, total, root, removed.nodes wf member parent childless, Finset.erase_right_comm,
    ← Finset.add_sum_erase _ _ inside, unlocked, add_sub_cancel_left]
  refine Finset.sum_congr rfl fun id _ => ?_
  obtain ⟨children, entry⟩ := removed.node_eq id
  rw [entry]

/-- A deletion keeps the accounts. -/
theorem Accounts.removed (accounts : Accounts cache) (wf : WellFormed cache full vals)
    (removed : Removed cache after leaf above) (evictable : cache.EvictableLeaf leaf)
    (aboveMem : above ∈ cache.nodes) (parent : (cache.node leaf).parent = some above) :
    Accounts after := by
  obtain ⟨member, notRoot, unlocked, childless⟩ := evictable
  have evictable : cache.EvictableLeaf leaf := ⟨member, notRoot, unlocked, childless⟩
  have root : after.rootNode = cache.rootNode := by rw [removed.frame]
  have nodes := removed.nodes wf member parent childless
  have wf' := removed.wellFormed wf member parent childless
  have nonneg : ∀ id ∈ after.nodes, 0 ≤ (after.node id).lockRef := by
    intro id inside
    obtain ⟨children, entry⟩ := removed.node_eq id
    rw [nodes] at inside
    rw [entry]
    exact accounts.nonneg id (Finset.mem_of_mem_erase inside)
  have different : above ≠ leaf := by
    rintro rfl
    exact lt_irrefl _ (wf.tree.parent_eq member parent).2.2
  have aboveMem' : above ∈ after.nodes := nodes ▸ Finset.mem_erase.mpr ⟨different, aboveMem⟩
  refine ⟨nonneg, ?_, ?_, fun id => ?_⟩
  · have size : after.evictableSize = cache.evictableSize - (cache.node leaf).key.len := by
      rw [removed.frame]
    rw [size, accounts.evictable]
    exact (removed.total_eq wf evictable parent unlockedLen).symm
  · have size : after.protectedSize = cache.protectedSize := by rw [removed.frame]
    rw [size, accounts.locked, ← sub_zero cache.lockedSize]
    exact (removed.total_eq wf evictable parent lockedLen).symm
  · by_cases isAbove : id = above
    · subst isAbove
      have ready := leafReady_iff wf' aboveMem' (nonneg id aboveMem')
      rw [removed.leaves, EvictableLeaf, and_iff_right aboveMem', ← ready]
      by_cases isReady : LeafReady after.node id
      · rw [if_pos isReady]
        refine iff_of_true (Finset.mem_insert_self _ _) ⟨?_, isReady⟩
        rintro rfl
        exact absurd (wf'.root_lock.symm.trans (ready.mp isReady).1) (by decide)
      · rw [if_neg isReady]
        exact iff_of_false (Finset.notMem_erase _ _) fun both => isReady both.2
    · have unaffected : id ∈ after.evictableLeaves ↔ id ≠ leaf ∧ id ∈ cache.evictableLeaves := by
        rw [removed.leaves]
        split <;> simp [isAbove]
      rw [unaffected, accounts.leaves, EvictableLeaf, EvictableLeaf, root, nodes,
        removed.node_other id isAbove, Finset.mem_erase, and_assoc]

/-- It keeps the locks. -/
theorem LocksMatch.removed (locks : LocksMatch cache holders) (wf : WellFormed cache full vals)
    (removed : Removed cache after leaf above) (evictable : cache.EvictableLeaf leaf)
    (parent : (cache.node leaf).parent = some above) : LocksMatch after holders := by
  obtain ⟨member, notRoot, unlocked, childless⟩ := evictable
  have nodes := removed.nodes wf member parent childless
  have root : after.rootNode = cache.rootNode := by rw [removed.frame]
  have none : cache.locksBelow holders leaf = 0 := by
    have count := locks.count leaf member notRoot
    rw [unlocked] at count
    exact_mod_cast count.symm
  rw [locksBelow, countP_eq_zero] at none
  refine ⟨fun holder held => ?_, fun id inside notRoot' => ?_⟩
  · rw [nodes]
    refine Finset.mem_erase.mpr ⟨?_, locks.member holder held⟩
    rintro rfl
    refine none holder held ?_
    simp
    exact .refl
  · obtain ⟨children, entry⟩ := removed.node_eq id
    rw [nodes] at inside
    rw [entry, locksBelow, removed.links parent]
    exact locks.count id (Finset.mem_of_mem_erase inside) (root ▸ notRoot')

/-- A child counts no more locks than its parent, so below an unlocked node there is
an evictable leaf. -/
theorem exists_evictableLeaf (wf : WellFormed cache full vals) (locks : LocksMatch cache holders)
    {id : ℕ} (member : id ∈ cache.nodes) (notRoot : id ≠ cache.rootNode)
    (unlocked : (cache.node id).lockRef = 0) : ∃ leaf, cache.EvictableLeaf leaf := by
  let free := cache.nodes.filter fun id => id ≠ cache.rootNode ∧ (cache.node id).lockRef = 0
  obtain ⟨deepest, inFree, deep⟩ := free.exists_max_image (fun id => (full id).length)
    ⟨id, Finset.mem_filter.mpr ⟨member, notRoot, unlocked⟩⟩
  obtain ⟨deepMem, deepNotRoot, deepUnlocked⟩ := Finset.mem_filter.mp inFree
  refine ⟨deepest, deepMem, deepNotRoot, deepUnlocked, ?_⟩
  rw [children_eq_empty_iff]
  intro key
  by_contra filed
  obtain ⟨child, found⟩ := Option.ne_none_iff_exists'.mp filed
  obtain ⟨childMem, parent, -, childNotRoot, longer⟩ := wf.tree.of_child deepMem found
  have fewer : cache.locksBelow holders child ≤ cache.locksBelow holders deepest := by
    refine countP_mono_left fun holder _ climbs => ?_
    simp at climbs ⊢
    exact climbs.tail parent
  have childUnlocked : (cache.node child).lockRef = 0 := by
    have count := locks.count deepest deepMem deepNotRoot
    rw [locks.count child childMem childNotRoot]
    omega
  have bound := deep child (Finset.mem_filter.mpr ⟨childMem, childNotRoot, childUnlocked⟩)
  omega

/-- Without evictable leaves all is locked. -/
theorem unlockedSize_eq_zero (wf : WellFormed cache full vals) (locks : LocksMatch cache holders)
    (none : ∀ leaf, ¬ cache.EvictableLeaf leaf) : cache.unlockedSize = 0 := by
  refine Finset.sum_eq_zero fun id inside => if_neg fun unlocked => ?_
  obtain ⟨notRoot, member⟩ := Finset.mem_erase.mp inside
  obtain ⟨leaf, evictable⟩ := exists_evictableLeaf wf locks member notRoot unlocked
  exact none leaf evictable

/-- What an eviction does: the nodes `freed` leave the tree, all of them unlocked,
and the other nodes keep everything but some children. -/
structure EvictedFrom (cache after : RadixCache) (freed : List ℕ) : Prop where
  frame : after = { cache with
    node := after.node
    evictableSize := after.evictableSize
    evictableLeaves := after.evictableLeaves }
  nodup : freed.Nodup
  free : ∀ id ∈ freed, id ∈ cache.nodes ∧ id ≠ cache.rootNode ∧ (cache.node id).lockRef = 0
  nodes : after.nodes = cache.nodes \ freed.toFinset
  entry : ∀ id, ∃ children, after.node id = { cache.node id with children := children }
  size : after.evictableSize = cache.evictableSize -
    (freed.map fun id => ((cache.node id).key.len : ℤ)).sum

/-- Nothing is evicted. -/
theorem EvictedFrom.nil (cache : RadixCache) : EvictedFrom cache cache [] :=
  ⟨rfl, nodup_nil, forall_mem_nil _, by simp, fun id => ⟨(cache.node id).children, rfl⟩, by simp⟩

/-- One leaf more. -/
theorem EvictedFrom.cons {middle : RadixCache} {freed : List ℕ} (wf : WellFormed cache full vals)
    (removed : Removed cache middle leaf above) (evictable : cache.EvictableLeaf leaf)
    (parent : (cache.node leaf).parent = some above) (rest : EvictedFrom middle after freed) :
    EvictedFrom cache after (leaf :: freed) := by
  obtain ⟨member, notRoot, unlocked, childless⟩ := evictable
  have nodes := removed.nodes wf member parent childless
  have root : middle.rootNode = cache.rootNode := by rw [removed.frame]
  refine ⟨?_, nodup_cons.mpr ⟨fun inside => ?_, rest.nodup⟩, fun id inside => ?_, ?_,
    fun id => ?_, ?_⟩
  · rw [rest.frame, removed.frame]
  · have still := (rest.free leaf inside).1
    rw [nodes] at still
    exact Finset.notMem_erase _ _ still
  · obtain rfl | inside := mem_cons.mp inside
    · exact ⟨member, notRoot, unlocked⟩
    · obtain ⟨still, notRoot', unlocked'⟩ := rest.free id inside
      obtain ⟨children, entry⟩ := removed.node_eq id
      rw [nodes] at still
      rw [entry] at unlocked'
      exact ⟨Finset.mem_of_mem_erase still, root ▸ notRoot', unlocked'⟩
  · rw [rest.nodes, nodes, toFinset_cons]
    ext id
    simp only [Finset.mem_sdiff, Finset.mem_erase, Finset.mem_insert]
    tauto
  · obtain ⟨children, entry⟩ := rest.entry id
    obtain ⟨children', entry'⟩ := removed.node_eq id
    exact ⟨children, by rw [entry, entry']⟩
  · have size : middle.evictableSize = cache.evictableSize - (cache.node leaf).key.len := by
      rw [removed.frame]
    have lengths : (freed.map fun id => ((middle.node id).key.len : ℤ)) =
        freed.map fun id => ((cache.node id).key.len : ℤ) := by
      refine map_congr_left fun id _ => ?_
      obtain ⟨children, entry⟩ := removed.node_eq id
      rw [entry]
    rw [rest.size, size, lengths, map_cons, sum_cons]
    ring

/-- The heap after one round of `evict` lists the evictable leaves again. -/
theorem heap_after_removal (accounts : Accounts cache) (wf : WellFormed cache full vals)
    {rest : List ℕ} (removed : Removed cache after leaf above)
    (evictable : cache.EvictableLeaf leaf) (parent : (cache.node leaf).parent = some above)
    (listed : (leaf :: rest).Perm cache.evictableLeaves.toList) :
    (if LeafReady after.node above then above :: rest else rest).Perm
      after.evictableLeaves.toList := by
  obtain ⟨member, notRoot, unlocked, childless⟩ := evictable
  have absent : above ∉ cache.evictableLeaves := by
    rw [accounts.leaves]
    rintro ⟨-, -, -, empty⟩
    have filed := wf.tree.child_of_parent member parent
    exact absurd (filed.symm.trans ((children_eq_empty_iff _).mp empty _)) (by simp)
  have others : rest.Perm (cache.evictableLeaves.erase leaf).toList := by
    have inside : leaf ∈ cache.evictableLeaves :=
      (accounts.leaves leaf).mpr ⟨member, notRoot, unlocked, childless⟩
    have whole := Finset.toList_insert (Finset.notMem_erase leaf cache.evictableLeaves)
    rw [Finset.insert_erase inside] at whole
    exact (listed.trans whole).cons_inv
  rw [removed.leaves]
  split
  · exact (others.cons above).trans
      (Finset.toList_insert fun inside => absent (Finset.mem_of_mem_erase inside)).symm
  · rwa [Finset.erase_eq_of_notMem fun inside => absent (Finset.mem_of_mem_erase inside)]

variable {heap : List HeapEntry} (numTokens : ℤ)

/-- One round of the loop of `evict` removes an evictable leaf and leaves a heap of
the leaves there are then. -/
theorem evictLoop_succ (fuel : ℕ) (evicted : Evicted) (wf : WellFormed cache full vals)
    (accounts : Accounts cache) (listed : (heap.map Prod.snd).Perm cache.evictableLeaves.toList)
    (more : evicted.numEvicted < numTokens) (nonempty : heap ≠ []) :
    ∃ leaf above middle heap', cache.EvictableLeaf leaf ∧ above ∈ cache.nodes ∧
      (cache.node leaf).parent = some above ∧ Removed cache middle leaf above ∧
      (heap'.map Prod.snd).Perm middle.evictableLeaves.toList ∧
      evictLoop numTokens (fuel + 1) cache heap evicted = evictLoop numTokens fuel middle heap'
          ⟨evicted.nodes ++ [leaf], evicted.numEvicted + (cache.node leaf).indices.length⟩ := by
  obtain ⟨⟨priority, leaf⟩, rest, popped, perm⟩ := BinaryHeap.heappop_perm cache.entryLt nonempty
  have listed' : (leaf :: rest.map Prod.snd).Perm cache.evictableLeaves.toList :=
    (perm.map Prod.snd).symm.trans listed
  have evictable : cache.EvictableLeaf leaf := by
    rw [← accounts.leaves, ← Finset.mem_toList, ← listed'.mem_iff]
    exact mem_cons_self
  obtain ⟨member, notRoot, -, childless⟩ := id evictable
  obtain ⟨above, aboveMem, parent, middle, deleted, removed⟩ := exists_removed wf member notRoot
  have wf' := removed.wellFormed wf member parent childless
  have accounts' := accounts.removed wf removed evictable aboveMem parent
  have aboveMem' : above ∈ middle.nodes := by
    rw [removed.nodes wf member parent childless]
    refine Finset.mem_erase.mpr ⟨?_, aboveMem⟩
    rintro rfl
    exact lt_irrefl _ (wf.tree.parent_eq member parent).2.2
  have ready : (middle.node above).children = ∅ ∧ (middle.node above).lockRef = 0 ↔
      LeafReady middle.node above := by
    rw [leafReady_iff wf' aboveMem' (accounts'.nonneg above aboveMem'), and_comm]
  have parent' : (middle.node leaf).parent = some above := by
    obtain ⟨children, same⟩ := removed.node_eq leaf
    rw [same, parent]
  have relisted := heap_after_removal accounts wf removed evictable parent listed'
  refine ⟨leaf, above, middle, if LeafReady middle.node above then
    BinaryHeap.heappush middle.entryLt rest (middle.heapEntry above) else rest, evictable, aboveMem,
    parent, removed, Perm.trans ?_ relisted, ?_⟩
  · split
    · exact (BinaryHeap.heappush_perm middle.entryLt rest (middle.heapEntry above)).map _
    · exact .refl _
  · rw [evictLoop, if_pos more, popped]
    simp only [bind, deleted, Option.bind_some, parent', ready]
    split <;> rfl

/-- From a heap of the evictable leaves, the loop of `evict` returns, frees unlocked
nodes only, and stops when enough is freed or nothing unlocked is left. -/
theorem evictLoop_spec {fuel : ℕ} (evicted : Evicted) (wf : WellFormed cache full vals)
    (accounts : Accounts cache) (locks : LocksMatch cache holders)
    (listed : (heap.map Prod.snd).Perm cache.evictableLeaves.toList)
    (enough : cache.nodes.card ≤ fuel) :
    ∃ after freed, evictLoop numTokens fuel cache heap evicted =
        some (after, ⟨evicted.nodes ++ freed, evicted.numEvicted +
          (freed.map fun id => (cache.node id).indices.length).sum⟩) ∧
      EvictedFrom cache after freed ∧ WellFormed after full vals ∧ Accounts after ∧
      LocksMatch after holders ∧
      (numTokens ≤ evicted.numEvicted + (freed.map fun id => (cache.node id).indices.length).sum ∨
        after.evictableSize = 0) := by
  induction fuel generalizing cache heap evicted with
  | zero =>
    have empty := Finset.card_eq_zero.mp (Nat.le_zero.mp enough)
    exact absurd (empty ▸ wf.root_mem) (Finset.notMem_empty _)
  | succ fuel ih =>
    by_cases more : (evicted.numEvicted : ℤ) < numTokens
    · by_cases nonempty : heap = []
      · have none : ∀ leaf, ¬ cache.EvictableLeaf leaf := by
          intro leaf evictable
          have inside := Finset.mem_toList.mpr ((accounts.leaves leaf).mpr evictable)
          rw [nonempty] at listed
          rw [← listed.mem_iff] at inside
          exact not_mem_nil inside
        refine ⟨cache, [], ?_, .nil cache, wf, accounts, locks, .inr ?_⟩
        · simp [evictLoop, nonempty, BinaryHeap.heappop]
        · rw [accounts.evictable, unlockedSize_eq_zero wf locks none]
      · obtain ⟨leaf, above, middle, heap', evictable, aboveMem, parent, removed, relisted, ran⟩ :=
          evictLoop_succ numTokens fuel evicted wf accounts listed more nonempty
        obtain ⟨member, -, -, childless⟩ := id evictable
        have shorter : middle.nodes.card ≤ fuel := by
          rw [removed.nodes wf member parent childless, Finset.card_erase_of_mem member]
          omega
        obtain ⟨after, freed, looped, evictedFrom, wf', accounts', locks', reached⟩ :=
          ih ⟨evicted.nodes ++ [leaf], evicted.numEvicted + (cache.node leaf).indices.length⟩
            (removed.wellFormed wf member parent childless)
            (accounts.removed wf removed evictable aboveMem parent)
            (locks.removed wf removed evictable parent) relisted shorter
        have indices (other : ℕ) : (middle.node other).indices = (cache.node other).indices := by
          obtain ⟨children, same⟩ := removed.node_eq other
          rw [same, TreeNode.indices, TreeNode.indices]
        simp only [indices] at looped reached
        refine ⟨after, leaf :: freed, ?_, evictedFrom.cons wf removed evictable parent, wf',
          accounts', locks', ?_⟩
        · rw [ran, looped]
          simp [add_assoc]
        · simpa [add_assoc] using reached
    · refine ⟨cache, [], ?_, .nil cache, wf, accounts, locks, .inl (by simpa using more)⟩
      simp [evictLoop, more]

end Eviction

end AvaServe.Radix.RadixCache
