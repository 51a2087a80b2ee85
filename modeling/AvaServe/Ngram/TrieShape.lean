import AvaServe.Ngram.Trie
import AvaServe.Foundation.LinkedTree

/-!
# The shape of the n-gram trie

The nodes handed out by the pool form a tree in which each node spells the tokens on
the way to it. The child map, the recency list and the sorted list of a node hold the
same children, and in the list of all nodes no parent stands behind its child.
-/

namespace AvaServe.Ngram

open Foundation List

namespace Trie

/-! ### Sorted children -/

/-- What `CompareByFreq` compares. -/
def sortKey (trie : Trie) (id : ℕ) : ℤ ×ₗ ℤ ×ₗ ℕ :=
  toLex (-(trie.node id).freq.toInt, toLex ((trie.node id).token, id))

variable (trie : Trie)

/-- The comparison is that of the keys. -/
theorem compareByFreq_iff (a b : ℕ) :
    trie.compareByFreq a b = true ↔ trie.sortKey a < trie.sortKey b := by
  simp only [compareByFreq, sortKey, Prod.Lex.toLex_lt_toLex, Bool.or_eq_true, Bool.and_eq_true,
    decide_eq_true_eq, Int32.lt_iff_toInt_lt, neg_lt_neg_iff, neg_inj, ← Int32.toInt_inj]
  simp only [eq_comm]

/-- No two nodes have one key. -/
theorem sortKey_injective : Function.Injective trie.sortKey := by
  intro a b same
  have inner := congrArg (fun key => (ofLex (ofLex key).2).2) same
  exact inner

/-- Insertion by a key, before the first element with a greater one. -/
def keyInsert (key : ℕ → ℤ ×ₗ ℤ ×ₗ ℕ) (id : ℕ) (children : List ℕ) : List ℕ :=
  children.takeWhile (fun other => !decide (key id < key other)) ++
    id :: children.dropWhile (fun other => !decide (key id < key other))

/-- Insertion is by key. -/
theorem sortedInsert_eq (id : ℕ) (children : List ℕ) :
    trie.sortedInsert id children = keyInsert trie.sortKey id children := by
  have same : (fun other => !trie.compareByFreq id other) =
      fun other => !decide (trie.sortKey id < trie.sortKey other) := by
    funext other
    rw [← Bool.decide_coe (trie.compareByFreq id other), decide_eq_decide.mpr
      (trie.compareByFreq_iff id other)]
  rw [sortedInsert, keyInsert, same]

/-- It adds the node. -/
theorem keyInsert_perm (key : ℕ → ℤ ×ₗ ℤ ×ₗ ℕ) (id : ℕ) (children : List ℕ) :
    (keyInsert key id children).Perm (id :: children) := by
  refine perm_middle.trans ?_
  rw [takeWhile_append_dropWhile]

variable {id : ℕ}

/-- Only the order of the keys of the elements matters. -/
theorem keyInsert_sorted {key : ℕ → ℤ ×ₗ ℤ ×ₗ ℕ} {children : List ℕ}
    (injective : Function.Injective key) (absent : id ∉ children)
    (sorted : children.Pairwise fun a b => key a < key b) :
    (keyInsert key id children).Pairwise fun a b => key a < key b := by
  set small := children.takeWhile fun other => !decide (key id < key other) with smallEq
  set large := children.dropWhile fun other => !decide (key id < key other) with largeEq
  have whole : small ++ large = children := takeWhile_append_dropWhile
  rw [← whole] at sorted absent
  obtain ⟨smallSorted, largeSorted, across⟩ := pairwise_append.mp sorted
  have below : ∀ other ∈ small, key other < key id := by
    intro other member
    have kept := mem_takeWhile_imp member
    simp only [Bool.not_eq_true', decide_eq_false_iff_not, not_lt] at kept
    refine lt_of_le_of_ne kept fun same => absent ?_
    rw [← injective same]
    exact mem_append_left _ member
  have above : ∀ other ∈ large, key id < key other := by
    intro other member
    cases parts : large with
    | nil =>
      rw [parts] at member
      exact absurd member not_mem_nil
    | cons first rest =>
      have stopped := head?_dropWhile_not
        (fun other => !decide (key id < key other)) children
      rw [← largeEq, parts] at stopped
      have passed : key id < key first := by simpa using stopped
      rw [parts] at member largeSorted
      obtain rfl | later := mem_cons.mp member
      · exact passed
      · exact passed.trans (rel_of_pairwise_cons largeSorted later)
  refine pairwise_append.mpr ⟨smallSorted, pairwise_cons.mpr ⟨above, largeSorted⟩, ?_⟩
  intro other member next inside
  obtain rfl | inside := mem_cons.mp inside
  · exact below other member
  · exact across other member next inside

/-- Only the node itself compares equal to it. -/
theorem sortedErase_eq (id : ℕ) (children : List ℕ) :
    trie.sortedErase id children = children.filter fun other => decide (other ≠ id) := by
  refine filter_congr fun other _ => ?_
  rw [Bool.eq_iff_iff, Bool.or_eq_true, compareByFreq_iff, compareByFreq_iff, decide_eq_true_eq]
  rw [← ne_iff_lt_or_gt]
  exact ⟨fun differs same => differs (by rw [same]),
    fun differs same => differs (trie.sortKey_injective same).symm⟩

/-! ### Well-formed tries -/

/-- The nodes in use. -/
def dom (trie : Trie) : Finset ℕ := (trie.root :: trie.globalLru).toFinset

/-- The pointers of the trie. -/
def links (trie : Trie) : Links ℕ ℤ where
  parent := fun id => (trie.node id).parent
  label := fun id => (trie.node id).token
  child := fun id token => (trie.node id).child.lookup token

/-- The three indexes of the children of a node agree. -/
structure Indexed (trie : Trie) (id : ℕ) : Prop where
  nodup : (trie.node id).lru.Nodup
  mem_lru : ∀ below, below ∈ (trie.node id).lru ↔
    ∃ token, (trie.node id).child.lookup token = some below
  perm : (trie.node id).sortedChildren.Perm (trie.node id).lru
  sorted : (trie.node id).sortedChildren.Pairwise fun a b => trie.sortKey a < trie.sortKey b

/-- Node `id` of the trie spells `word id`. -/
structure Formed (trie : Trie) (word : ℕ → List ℤ) : Prop where
  linked : LinkedTree trie.root trie.dom trie.links fun id => (word id).length
  word_root : word trie.root = []
  word_eq : ∀ id ∈ trie.dom, ∀ above, (trie.node id).parent = some above →
    word id = word above ++ [(trie.node id).token]
  partition : (trie.pool ++ trie.root :: trie.globalLru).Perm (range trie.capacity)
  indexed : ∀ id ∈ trie.dom, trie.Indexed id
  parentFirst : trie.globalLru.Pairwise fun a b => (trie.node a).parent ≠ some b

variable {trie : Trie} {word : ℕ → List ℤ}

/-- A node is the root or in use. -/
theorem mem_dom : id ∈ trie.dom ↔ id = trie.root ∨ id ∈ trie.globalLru := by simp [dom]

/-- The root is a node. -/
theorem root_mem_dom (trie : Trie) : trie.root ∈ trie.dom := mem_dom.mpr (.inl rfl)

/-- Filtering the sorted children takes one out. -/
theorem Indexed.filter_ne (indexed : trie.Indexed id) (gone : ℕ) :
    ((trie.node id).sortedChildren.filter fun below => decide (below ≠ gone)) =
      (trie.node id).sortedChildren.erase gone := by
  rw [(indexed.perm.nodup_iff.mpr indexed.nodup).erase_eq_filter]
  refine filter_congr fun below _ => ?_
  rw [Bool.eq_iff_iff, decide_eq_true_eq, bne_iff_ne]

/-- Order reads the keys of the children. -/
theorem Indexed.sorted_of_keys {after : Trie} (indexed : trie.Indexed id)
    (keys : ∀ below ∈ (trie.node id).lru, after.sortKey below = trie.sortKey below) :
    (trie.node id).sortedChildren.Pairwise fun a b => after.sortKey a < after.sortKey b := by
  refine indexed.sorted.imp_of_mem fun {a b} first second less => ?_
  rw [keys a (indexed.perm.mem_iff.mp first), keys b (indexed.perm.mem_iff.mp second)]
  exact less

/-- A change that leaves the children of a node and their keys alone. -/
theorem Indexed.congr {after : Trie} (indexed : trie.Indexed id)
    (child : (after.node id).child = (trie.node id).child)
    (lru : (after.node id).lru = (trie.node id).lru)
    (sortedChildren : (after.node id).sortedChildren = (trie.node id).sortedChildren)
    (keys : ∀ below ∈ (trie.node id).lru, after.sortKey below = trie.sortKey below) :
    after.Indexed id where
  nodup := by rw [lru]; exact indexed.nodup
  mem_lru := by rw [lru, child]; exact indexed.mem_lru
  perm := by rw [lru, sortedChildren]; exact indexed.perm
  sorted := by
    rw [sortedChildren]
    exact indexed.sorted_of_keys keys

namespace Formed

section

variable (formed : trie.Formed word)
include formed

/-- No id is used twice. -/
theorem nodup : (trie.pool ++ trie.root :: trie.globalLru).Nodup :=
  formed.partition.nodup_iff.mpr nodup_range

/-- The nodes in use are distinct. -/
theorem lru_nodup : trie.globalLru.Nodup := (nodup_cons.mp (nodup_append.mp formed.nodup).2.1).2

/-- The root is not among them. -/
theorem root_not_mem : trie.root ∉ trie.globalLru :=
  (nodup_cons.mp (nodup_append.mp formed.nodup).2.1).1

/-- Pooled ids are no nodes. -/
theorem not_mem_dom_of_pool (member : id ∈ trie.pool) : id ∉ trie.dom := by
  intro inside
  rw [dom, mem_toFinset] at inside
  exact (nodup_append.mp formed.nodup).2.2 id member id inside rfl

/-- Pool and nodes are the capacity. -/
theorem length_eq : trie.pool.length + (trie.globalLru.length + 1) = trie.capacity := by
  have lengths := formed.partition.length_eq
  rw [length_append, length_range] at lengths
  exact lengths

/-- A child stands in the recency list of its parent and of no other node. -/
theorem mem_lru_iff {below : ℕ} (member : id ∈ trie.dom) :
    below ∈ (trie.node id).lru ↔ below ∈ trie.dom ∧ (trie.node below).parent = some id := by
  rw [(formed.indexed id member).mem_lru below]
  constructor
  · rintro ⟨token, found⟩
    obtain ⟨inside, parent, -⟩ := formed.linked.of_child member found
    exact ⟨inside, parent⟩
  · rintro ⟨inside, parent⟩
    exact ⟨_, formed.linked.child_of_parent inside parent⟩

end

/-! ### Paths -/

/-- A path in two parts. -/
theorem find_append (trie : Trie) (cursor : ℕ) (first second : List ℤ) :
    trie.find cursor (first ++ second) =
      (trie.find cursor first).bind fun middle => trie.find middle second := by
  induction first generalizing cursor with
  | nil => rfl
  | cons token rest ih =>
    rw [cons_append, find, find, Option.bind_assoc]
    exact congrArg _ (funext fun next => ih next)

section

variable (formed : trie.Formed word)
include formed

/-- What is found spells the path. -/
theorem word_of_find {cursor : ℕ} {tokens : List ℤ} (member : cursor ∈ trie.dom)
    (found : trie.find cursor tokens = some id) :
    id ∈ trie.dom ∧ word id = word cursor ++ tokens := by
  induction tokens generalizing cursor with
  | nil =>
    cases found
    exact ⟨member, (append_nil _).symm⟩
  | cons token rest ih =>
    rw [find, Option.bind_eq_some_iff] at found
    obtain ⟨next, child, found⟩ := found
    obtain ⟨inside, parent, label, -⟩ := formed.linked.of_child member child
    obtain ⟨reached, spelled⟩ := ih inside found
    refine ⟨reached, ?_⟩
    rw [spelled, formed.word_eq next inside cursor parent, append_assoc]
    rw [show (trie.node next).token = token from label]
    rfl

/-- Every node is found by its word. -/
theorem find_word (member : id ∈ trie.dom) : trie.find trie.root (word id) = some id := by
  refine formed.linked.induction_on member ?_ fun id member _ above _ parent _ found => ?_
  · rw [formed.word_root]
    rfl
  · have child := formed.linked.child_of_parent member parent
    rw [formed.word_eq id member above parent, find_append, found, Option.bind_some, find]
    rw [show (trie.node above).child.lookup (trie.node id).token = some id from child]
    rfl

/-- Paths and words are the same. -/
theorem find_iff {tokens : List ℤ} :
    trie.find trie.root tokens = some id ↔ id ∈ trie.dom ∧ word id = tokens := by
  constructor
  · intro found
    obtain ⟨inside, spelled⟩ := formed.word_of_find trie.root_mem_dom found
    rw [formed.word_root] at spelled
    exact ⟨inside, spelled⟩
  · rintro ⟨inside, rfl⟩
    exact formed.find_word inside

/-- Two nodes have two words. -/
theorem word_injective {one other : ℕ} (oneMem : one ∈ trie.dom)
    (otherMem : other ∈ trie.dom) (same : word one = word other) : one = other := by
  have first := formed.find_word oneMem
  rw [same, formed.find_word otherMem] at first
  exact (Option.some.inj first).symm

/-- Only the root's word is empty. -/
theorem word_eq_nil_iff (member : id ∈ trie.dom) : word id = [] ↔ id = trie.root := by
  constructor
  · intro empty
    exact formed.word_injective member trie.root_mem_dom (empty.trans formed.word_root.symm)
  · rintro rfl
    exact formed.word_root

/-- The parent of a node in the list of all nodes is the root or stands before it. -/
theorem parent_before (member : id ∈ trie.globalLru) : ∃ above, (trie.node id).parent = some above ∧
      (above = trie.root ∨ ∃ front back, trie.globalLru = front ++ id :: back ∧ above ∈ front) := by
  have notRoot : id ≠ trie.root := fun same => formed.root_not_mem (same ▸ member)
  obtain ⟨above, aboveMem, parent, lower⟩ :=
    formed.linked.parent_mem id (mem_dom.mpr (.inr member)) notRoot
  refine ⟨above, parent, (mem_dom.mp aboveMem).imp_right fun inside => ?_⟩
  obtain ⟨front, back, split⟩ := append_of_mem member
  refine ⟨front, back, split, ?_⟩
  have order := formed.parentFirst
  rw [split] at inside order
  obtain before | same | after := by simpa using inside
  · exact before
  · subst same
    exact absurd lower (lt_irrefl _)
  · have behind := (pairwise_append.mp order).2.1
    exact absurd parent (rel_of_pairwise_cons behind after)

end

end Formed

end Trie

end AvaServe.Ngram
