import AvaServe.Ngram.TrieShape

/-!
# The mutations of the n-gram trie

A node filed under a new token, a visit of a child, the removal of the node behind all
others, and a visited path moved to the front of the list of all nodes. Each keeps the
shape of the trie.
-/

namespace AvaServe.Ngram

open Foundation List Function Option

namespace Trie

variable {trie : Trie} {word : ℕ → List ℤ}

/-- The nodes after a modification. -/
theorem node_modifyNode (trie : Trie) (id other : ℕ) (change : TrieNode → TrieNode) :
    (trie.modifyNode id change).node other =
      if other = id then change (trie.node id) else trie.node other :=
  update_apply ..

/-- A change that keeps the frequency and the token keeps the order of children. -/
theorem sortKey_modifyNode (trie : Trie) (id : ℕ) {change : TrieNode → TrieNode}
    (freq : (change (trie.node id)).freq = (trie.node id).freq)
    (token : (change (trie.node id)).token = (trie.node id).token) :
    (trie.modifyNode id change).sortKey = trie.sortKey := by
  funext other
  unfold sortKey
  rw [node_modifyNode]
  split
  next same => rw [same, freq, token]
  · rfl

/-! ### A new node -/

/-- The trie with its pool shortened and the node at its top cleared. -/
def taken (trie : Trie) (id : ℕ) (rest : List ℕ) : Trie :=
  { trie with pool := rest }.modifyNode id fun node => { version := node.version }

/-- A node is taken from the pool. -/
theorem getNode_eq {id : ℕ} {rest : List ℕ} (top : trie.pool = id :: rest) :
    trie.getNode = .ok (id, trie.taken id rest) := by
  rw [getNode, top]
  rfl

/-- It is blank but for its version. -/
theorem node_taken (trie : Trie) (id : ℕ) (rest : List ℕ) (other : ℕ) :
    (trie.taken id rest).node other =
      if other = id then { version := (trie.node id).version } else trie.node other :=
  node_modifyNode _ id other _

/-- Filing enters a child below the cursor. -/
theorem node_file {cursor id : ℕ} (differs : cursor ≠ id) (token : ℤ) (other : ℕ) :
    (trie.file cursor id token).node other = if other = id then
        { trie.node id with token := token, parent := some cursor, freq := 1 }
      else if other = cursor then
        { trie.node cursor with
          child := (trie.node cursor).child.insert token id
          lru := id :: (trie.node cursor).lru }
      else
        trie.node other := by
  have queued : ∀ (before : Trie) (place : ℕ), (before.enqueue id).node place = before.node place :=
    fun _ _ => rfl
  unfold file
  simp [node_modifyNode, queued, if_neg differs.symm]

/-- The nodes after a cleared node was filed under a token. -/
theorem node_link {cursor id : ℕ} (differs : cursor ≠ id) (token : ℤ) (other : ℕ) :
    (trie.link cursor id token).node other = if other = id then
        { trie.node id with token := token, parent := some cursor, freq := 1 }
      else if other = cursor then
        { trie.node cursor with
          child := (trie.node cursor).child.insert token id
          lru := id :: (trie.node cursor).lru
          sortedChildren := keyInsert (trie.link cursor id token).sortKey id
            (trie.node cursor).sortedChildren }
      else
        trie.node other := by
  unfold link
  rw [sortKey_modifyNode _ cursor rfl rfl, ← sortedInsert_eq, node_modifyNode, node_file differs,
    node_file differs]
  by_cases isCursor : other = cursor
  · subst isCursor
    rw [if_pos rfl, if_neg differs, if_pos rfl, if_neg differs, if_pos rfl]
  · simp [if_neg isCursor]

/-- The branch of `insert` for a token that is not there. -/
def attach (trie : Trie) (id : ℕ) (rest : List ℕ) (cursor : ℕ) (token : ℤ) : Trie :=
  (trie.taken id rest).link cursor id token

/-- The nodes after a child is attached. -/
theorem node_attach {cursor id : ℕ} (differs : cursor ≠ id) (rest : List ℕ) (token : ℤ)
    (other : ℕ) :
    (trie.attach id rest cursor token).node other = if other = id then
        { version := (trie.node id).version, token := token, parent := some cursor, freq := 1 }
      else if other = cursor then
        { trie.node cursor with
          child := (trie.node cursor).child.insert token id
          lru := id :: (trie.node cursor).lru
          sortedChildren := keyInsert (trie.attach id rest cursor token).sortKey id
            (trie.node cursor).sortedChildren }
      else
        trie.node other := by
  unfold attach
  rw [node_link differs, node_taken, node_taken, node_taken, if_pos rfl, if_neg differs]
  by_cases isNew : other = id
  · rw [if_pos isNew, if_pos isNew]
  · rw [if_neg isNew, if_neg isNew, if_neg isNew]

section Attach

variable {cursor id : ℕ} (differs : cursor ≠ id) (rest : List ℕ) (token : ℤ) (other : ℕ)
include differs

/-- Its parent is the cursor. -/
theorem parent_attach : ((trie.attach id rest cursor token).node other).parent =
      if other = id then some cursor else (trie.node other).parent := by
  rw [node_attach differs]
  split_ifs with same same <;> simp [same]

/-- It has the token. -/
theorem token_attach : ((trie.attach id rest cursor token).node other).token =
      if other = id then token else (trie.node other).token := by
  rw [node_attach differs]
  split_ifs with same same <;> simp [same]

/-- It is seen once. -/
theorem freq_attach : ((trie.attach id rest cursor token).node other).freq =
      if other = id then 1 else (trie.node other).freq := by
  rw [node_attach differs]
  split_ifs with same same <;> simp [same]

/-- The cursor finds it. -/
theorem child_attach (key : ℤ) : ((trie.attach id rest cursor token).node other).child.lookup key =
      if other = id then none
      else if other = cursor ∧ key = token then some id
      else (trie.node other).child.lookup key := by
  rw [node_attach differs]
  by_cases isNew : other = id
  · rw [if_pos isNew, if_pos isNew]
    exact Finmap.lookup_empty _
  · rw [if_neg isNew, if_neg isNew]
    by_cases isCursor : other = cursor
    · rw [if_pos isCursor, isCursor]
      by_cases isToken : key = token
      · subst isToken
        rw [if_pos ⟨rfl, rfl⟩]
        exact Finmap.lookup_insert _
      · rw [if_neg fun both => isToken both.2]
        exact Finmap.lookup_insert_of_ne _ isToken
    · rw [if_neg isCursor, if_neg fun both => isCursor both.1]

/-- It is a new leaf of the links. -/
theorem links_attach :
    (trie.attach id rest cursor token).links = trie.links.addLeaf id cursor token := by
  refine Links.ext (funext fun other => ?_) (funext fun other => ?_)
    (funext fun other => funext fun key => child_attach differs rest token other key)
  · exact (parent_attach differs rest token other).trans
      (update_apply trie.links.parent id (some cursor) other).symm
  · exact (token_attach differs rest token other).trans
      (update_apply trie.links.label id token other).symm

/-- The other sort keys stay. -/
theorem sortKey_attach {below : ℕ} (old : below ≠ id) :
    (trie.attach id rest cursor token).sortKey below = trie.sortKey below := by
  unfold sortKey
  rw [freq_attach differs, token_attach differs, if_neg old, if_neg old]

end Attach

/-- There is one node more. -/
theorem dom_attach (trie : Trie) (id : ℕ) (rest : List ℕ) (cursor : ℕ) (token : ℤ) :
    (trie.attach id rest cursor token).dom = Insert.insert id trie.dom := by
  ext other
  rw [mem_dom, Finset.mem_insert, mem_dom]
  change other = trie.root ∨ other ∈ trie.globalLru ++ [id] ↔ _
  rw [mem_append, mem_singleton]
  tauto

/-- Attaching keeps the trie formed. -/
theorem Formed.attach (formed : trie.Formed word) {id cursor : ℕ} {rest : List ℕ} {token : ℤ}
    (top : trie.pool = id :: rest) (member : cursor ∈ trie.dom)
    (vacant : (trie.node cursor).child.lookup token = none) :
    (trie.attach id rest cursor token).Formed
      (update word id (word cursor ++ [token])) := by
  have unused : id ∉ trie.dom := formed.not_mem_dom_of_pool (by rw [top]; exact mem_cons_self)
  have old : ∀ {other}, other ∈ trie.dom → other ≠ id :=
    fun inside same => unused (same ▸ inside)
  have differs : cursor ≠ id := old member
  have kept : ∀ {other}, other ∈ trie.dom →
      update word id (word cursor ++ [token]) other = word other :=
    fun inside => update_of_ne (old inside) _ _
  have childless : ∀ other ∈ trie.dom, (trie.node other).parent ≠ some id :=
    fun other inside parent => unused (formed.linked.parent_eq inside parent).1
  exact
    { linked := by
        rw [dom_attach, links_attach differs]
        refine LinkedTree.addLeaf (formed.linked.congr_rank fun other inside => ?_) unused member
          vacant ?_
        · rw [kept inside]
        · rw [kept member, update_self, length_append]
          exact Nat.lt_succ_self _
      word_root := (kept trie.root_mem_dom).trans formed.word_root
      word_eq other inside above parent := by
        rw [dom_attach, Finset.mem_insert] at inside
        rw [parent_attach differs] at parent
        rw [token_attach differs]
        obtain rfl | inside := inside
        · rw [if_pos rfl] at parent ⊢
          cases parent
          rw [update_self, kept member]
        · rw [if_neg (old inside)] at parent ⊢
          rw [kept inside, kept (formed.linked.parent_eq inside parent).1]
          exact formed.word_eq other inside above parent
      partition := by
        have before := formed.partition
        rw [top] at before
        refine Perm.trans ?_ before
        change (rest ++ trie.root :: (trie.globalLru ++ [id])).Perm _
        rw [← cons_append, ← append_assoc]
        exact perm_append_singleton _ _
      indexed other inside := by
        rw [dom_attach, Finset.mem_insert] at inside
        have key {below : ℕ} (inside : below ∈ trie.dom) :=
          @sortKey_attach trie cursor id differs rest token below (old inside)
        obtain rfl | inside := inside
        · have node := @node_attach trie cursor _ differs rest token other
          rw [if_pos rfl] at node
          exact
            { nodup := by rw [node]; exact nodup_nil
              mem_lru below := by
                rw [node]
                refine ⟨fun member => absurd member not_mem_nil, ?_⟩
                rintro ⟨label, found⟩
                cases (Finmap.lookup_empty label).symm.trans found
              perm := by rw [node]
              sorted := by rw [node]; exact Pairwise.nil }
        · have indexed := formed.indexed other inside
          have lruKeys : ∀ below ∈ (trie.node other).lru,
              (trie.attach id rest cursor token).sortKey below = trie.sortKey below :=
            fun below listed => key ((formed.mem_lru_iff inside).mp listed).1
          have node := @node_attach trie cursor _ differs rest token other
          rw [if_neg (old inside)] at node
          by_cases isCursor : other = cursor
          · subst isCursor
            rw [if_pos rfl] at node
            have absent : id ∉ (trie.node other).lru :=
              fun listed => unused ((formed.mem_lru_iff inside).mp listed).1
            exact
              { nodup := by rw [node]; exact nodup_cons.mpr ⟨absent, indexed.nodup⟩
                mem_lru below := by
                  rw [node]
                  rw [mem_cons, indexed.mem_lru below]
                  constructor
                  · rintro (rfl | ⟨label, found⟩)
                    · exact ⟨token, Finmap.lookup_insert _⟩
                    · refine ⟨label, ?_⟩
                      rw [Finmap.lookup_insert_of_ne _ ?_, found]
                      rintro rfl
                      rw [vacant] at found
                      cases found
                  · rintro ⟨label, found⟩
                    by_cases same : label = token
                    · subst same
                      rw [Finmap.lookup_insert] at found
                      exact .inl (some.inj found).symm
                    · rw [Finmap.lookup_insert_of_ne _ same] at found
                      exact .inr ⟨label, found⟩
                perm := by
                  rw [node]
                  exact (keyInsert_perm ..).trans (indexed.perm.cons id)
                sorted := by
                  rw [node]
                  exact keyInsert_sorted (sortKey_injective _)
                    (fun listed => absent (indexed.perm.mem_iff.mp listed))
                    (indexed.sorted_of_keys lruKeys) }
          · rw [if_neg isCursor] at node
            exact indexed.congr (by rw [node]) (by rw [node]) (by rw [node]) lruKeys
      parentFirst := by
        have parent : ∀ other ∈ trie.globalLru,
            ((trie.attach id rest cursor token).node other).parent = (trie.node other).parent := by
          intro other inside
          rw [parent_attach differs, if_neg (old (mem_dom.mpr (.inr inside)))]
        refine pairwise_append.mpr ⟨?_, pairwise_singleton _ _, ?_⟩
        · exact formed.parentFirst.imp_of_mem fun {a b} first _ differs => by
            rw [parent a first]
            exact differs
        · intro other inside last isLast
          rw [mem_singleton.mp isLast, parent other inside]
          exact childless other (mem_dom.mpr (.inr inside)) }

/-! ### A visit -/

/-- The nodes after a recount. -/
theorem node_recount {cursor id : ℕ} (differs : cursor ≠ id) (other : ℕ) :
    (trie.recount cursor id).node other =
      if other = id then { trie.node id with freq := (trie.node id).freq + 1 }
      else if other = cursor then
        { trie.node cursor with
          sortedChildren := (trie.node cursor).sortedChildren.filter fun below =>
            decide (below ≠ id) }
      else
        trie.node other := by
  unfold recount
  simp [node_modifyNode, if_neg differs.symm, sortedErase_eq]

/-- The nodes after a touch. -/
theorem node_touch {cursor id : ℕ} (differs : cursor ≠ id) (other : ℕ) :
    (trie.touch cursor id).node other =
      if other = id then { trie.node id with freq := (trie.node id).freq + 1 }
      else if other = cursor then
        { trie.node cursor with
          lru := moveToFront id (trie.node cursor).lru
          sortedChildren := keyInsert (trie.touch cursor id).sortKey id
            ((trie.node cursor).sortedChildren.filter fun below => decide (below ≠ id)) }
      else
        trie.node other := by
  unfold touch
  rw [sortKey_modifyNode _ cursor rfl rfl, ← sortedInsert_eq, node_modifyNode,
    node_recount differs, node_recount differs]
  by_cases isCursor : other = cursor
  · subst isCursor
    rw [if_pos rfl, if_neg differs, if_pos rfl, if_neg differs, if_pos rfl]
  · simp [if_neg isCursor]

section Touch

variable {cursor id : ℕ} (differs : cursor ≠ id)
include differs

/-- The touched node is seen once more. -/
theorem freq_touch (other : ℕ) : ((trie.touch cursor id).node other).freq =
      if other = id then (trie.node other).freq + 1 else (trie.node other).freq := by
  rw [node_touch differs]
  split_ifs with same same <;> simp [same]

/-- A visit changes no pointer. -/
theorem pointers_touch (other : ℕ) :
    ((trie.touch cursor id).node other).parent = (trie.node other).parent ∧
      ((trie.touch cursor id).node other).token = (trie.node other).token ∧
      ((trie.touch cursor id).node other).child = (trie.node other).child := by
  rw [node_touch differs]
  split_ifs with same same <;> simp [same]

/-- The links stay. -/
theorem links_touch : (trie.touch cursor id).links = trie.links := by
  refine Links.ext (funext fun other => (pointers_touch differs other).1)
    (funext fun other => (pointers_touch differs other).2.1)
    (funext fun other => funext fun key => ?_)
  change ((trie.touch cursor id).node other).child.lookup key = _
  rw [(pointers_touch differs other).2.2]
  rfl

/-- The other sort keys stay. -/
theorem sortKey_touch {below : ℕ} (other : below ≠ id) :
    (trie.touch cursor id).sortKey below = trie.sortKey below := by
  unfold sortKey
  rw [freq_touch differs, (pointers_touch differs below).2.1, if_neg other]

end Touch

/-- A touch keeps the trie formed. -/
theorem Formed.touch (formed : trie.Formed word) {cursor id : ℕ} {token : ℤ}
    (member : cursor ∈ trie.dom) (found : (trie.node cursor).child.lookup token = some id) :
    (trie.touch cursor id).Formed word := by
  obtain ⟨inside, parent, label, notRoot, lower⟩ := formed.linked.of_child member found
  have differs : cursor ≠ id := by
    rintro rfl
    exact lt_irrefl _ lower
  have pointers := @pointers_touch trie cursor id differs
  exact
    { formed with
      linked := by
        rw [links_touch differs]
        exact formed.linked
      word_eq other otherMem above step := by
        rw [(pointers other).1] at step
        rw [(pointers other).2.1]
        exact formed.word_eq other otherMem above step
      indexed other otherMem := by
        have indexed := formed.indexed other otherMem
        have node := @node_touch trie cursor id differs other
        by_cases isId : other = id
        · subst isId
          rw [if_pos rfl] at node
          refine indexed.congr (by rw [node]) (by rw [node]) (by rw [node]) fun below listed => ?_
          refine sortKey_touch differs ?_
          rintro rfl
          have climbs := (formed.mem_lru_iff otherMem).mp listed
          exact absurd (formed.linked.parent_eq otherMem climbs.2).2.2 (lt_irrefl _)
        rw [if_neg isId] at node
        by_cases isCursor : other = cursor
        swap
        · rw [if_neg isCursor] at node
          refine indexed.congr (by rw [node]) (by rw [node]) (by rw [node]) fun below listed => ?_
          refine sortKey_touch differs ?_
          rintro rfl
          have step := ((formed.mem_lru_iff otherMem).mp listed).2
          exact isCursor (some.inj (step.symm.trans parent))
        subst isCursor
        rw [if_pos rfl] at node
        have listed : id ∈ (trie.node other).lru :=
          (formed.mem_lru_iff otherMem).mpr ⟨inside, parent⟩
        have moved := moveToFront_perm listed
        exact
          { nodup := by
              rw [node]
              exact moved.nodup_iff.mpr indexed.nodup
            mem_lru below := by
              rw [node]
              exact (moved.mem_iff).trans (indexed.mem_lru below)
            perm := by
              rw [node]
              rw [indexed.filter_ne]
              exact ((keyInsert_perm ..).trans
                (perm_cons_erase (indexed.perm.mem_iff.mpr listed)).symm).trans
                  (indexed.perm.trans moved.symm)
            sorted := by
              rw [node]
              refine keyInsert_sorted (sortKey_injective _) ?_ ?_
              · intro member
                exact absurd rfl (of_decide_eq_true (mem_filter.mp member).2)
              · refine (indexed.sorted.filter _).imp_of_mem fun {a b} first second less => ?_
                rw [sortKey_touch differs (of_decide_eq_true (mem_filter.mp first).2),
                  sortKey_touch differs (of_decide_eq_true (mem_filter.mp second).2)]
                exact less }
      parentFirst := formed.parentFirst.imp fun {a b} differs => by
        rw [(pointers a).1]
        exact differs }

/-! ### The removal of the last node -/

/-- The trie without the node `last`, which `above` is the parent of. -/
def released (trie : Trie) (last above : ℕ) : Trie :=
  { (trie.modifyNode above fun node =>
      { node with
        lru := node.lru.erase last
        sortedChildren := trie.sortedErase last node.sortedChildren
        child := node.child.erase (trie.node last).token }).retireNode last with
    pool := last :: trie.pool
    evicted := trie.evicted + 1 }

/-- The nodes after a release. -/
theorem node_released {last above : ℕ} (differs : above ≠ last) (other : ℕ) :
    (trie.released last above).node other = if other = last then
        { trie.node last with version := (trie.node last).version + 1 }
      else if other = above then
        { trie.node above with
          lru := (trie.node above).lru.erase last
          sortedChildren := (trie.node above).sortedChildren.filter fun below =>
            decide (below ≠ last)
          child := (trie.node above).child.erase (trie.node last).token }
      else
        trie.node other := by
  change ((trie.modifyNode above _).retireNode last).node other = _
  unfold retireNode
  simp [node_modifyNode, if_neg differs.symm, sortedErase_eq]

section Released

variable {last above : ℕ} (differs : above ≠ last)
include differs

/-- The labels and counts stay. -/
theorem labels_released (other : ℕ) :
    ((trie.released last above).node other).parent = (trie.node other).parent ∧
      ((trie.released last above).node other).token = (trie.node other).token ∧
      ((trie.released last above).node other).freq = (trie.node other).freq := by
  rw [node_released differs]
  split_ifs with same same <;> simp [same]

/-- So do the sort keys. -/
theorem sortKey_released : (trie.released last above).sortKey = trie.sortKey := by
  funext other
  unfold sortKey
  rw [(labels_released differs other).2.1, (labels_released differs other).2.2]

/-- The leaf is gone from the links. -/
theorem links_released (parent : (trie.node last).parent = some above) :
    (trie.released last above).links = trie.links.removeLeaf last := by
  refine Links.ext (funext fun other => (labels_released differs other).1)
    (funext fun other => (labels_released differs other).2.1)
    (funext fun other => funext fun key => ?_)
  change ((trie.released last above).node other).child.lookup key =
    if (trie.node last).parent = some other ∧ key = (trie.node last).token then none
    else (trie.node other).child.lookup key
  rw [node_released differs, parent]
  by_cases isLast : other = last
  · subst isLast
    rw [if_pos rfl, if_neg fun both => differs (some.inj both.1)]
  · rw [if_neg isLast]
    by_cases isAbove : other = above
    · subst isAbove
      rw [if_pos rfl]
      by_cases isToken : key = (trie.node last).token
      · subst isToken
        rw [if_pos ⟨rfl, rfl⟩]
        exact Finmap.lookup_erase _ _
      · rw [if_neg fun both => isToken both.2]
        exact Finmap.lookup_erase_ne isToken
    · rw [if_neg isAbove, if_neg fun both => isAbove (some.inj both.1).symm]

end Released

/-- The node behind all others has no children. -/
theorem Formed.last_childless (formed : trie.Formed word) {front : List ℕ} {last : ℕ}
    (split : trie.globalLru = front ++ [last]) : (trie.node last).child = ∅ := by
  have inside : last ∈ trie.dom := mem_dom.mpr (.inr (by rw [split]; simp))
  refine Finmap.ext_lookup fun token => ?_
  cases found : (trie.node last).child.lookup token with
  | none => rw [Finmap.lookup_empty]
  | some below =>
    obtain ⟨belowMem, parent, -, notRoot, lower⟩ := formed.linked.of_child inside found
    have listed := (mem_dom.mp belowMem).resolve_left notRoot
    have order := formed.parentFirst
    rw [split] at listed order
    obtain before | same := mem_append.mp listed
    · exact absurd parent
        ((pairwise_append.mp order).2.2 below before last (mem_singleton_self last))
    · rw [mem_singleton.mp same] at lower
      exact absurd lower (lt_irrefl _)

/-- The least recent node can be released. -/
theorem Formed.release (formed : trie.Formed word) {front : List ℕ} {last : ℕ}
    (split : trie.globalLru = front ++ [last]) :
    ∃ above, (trie.node last).parent = some above ∧ { trie with globalLru := front }.release last =
        .ok ({ trie with globalLru := front }.released last above) ∧
      ({ trie with globalLru := front }.released last above).Formed word ∧
      ({ trie with globalLru := front }.released last above).dom = trie.dom.erase last := by
  have nodup := formed.lru_nodup
  have rootNot := formed.root_not_mem
  have childless := formed.last_childless split
  have listed : last ∈ trie.globalLru := by rw [split]; simp
  have inside : last ∈ trie.dom := mem_dom.mpr (.inr listed)
  have notRoot : last ≠ trie.root := fun same => rootNot (same ▸ listed)
  obtain ⟨above, aboveMem, parent, lower⟩ := formed.linked.parent_mem last inside notRoot
  have differs : above ≠ last := by
    rintro rfl
    exact lt_irrefl _ lower
  set base : Trie := { trie with globalLru := front } with baseEq
  have absent : last ∉ front := by
    rw [split] at nodup
    exact fun member => (nodup_append.mp nodup).2.2 last member last (mem_singleton_self last) rfl
  have domEq : (base.released last above).dom = trie.dom.erase last := by
    ext other
    rw [mem_dom, Finset.mem_erase, mem_dom]
    rw [split, mem_append, mem_singleton]
    constructor
    · rintro (rfl | member)
      · exact ⟨notRoot.symm, .inl rfl⟩
      · exact ⟨fun same => absent (same ▸ member), .inr (.inl member)⟩
    · rintro ⟨other, same | member | same⟩
      · exact .inl same
      · exact .inr member
      · exact absurd same other
  have kept : ∀ {other}, other ∈ (base.released last above).dom →
      other ≠ last ∧ other ∈ trie.dom := by
    intro other member
    rw [domEq] at member
    exact Finset.mem_erase.mp member
  have labels := @labels_released base last above differs
  refine ⟨above, parent, ?_, ?_, domEq⟩
  · rw [Trie.release, if_pos childless, show (base.node last).parent = _ from parent]
    rfl
  exact
    { linked := by
        rw [domEq, @links_released base last above differs parent]
        refine formed.linked.removeLeaf inside notRoot fun key => ?_
        change (trie.node last).child.lookup key = none
        rw [childless, Finmap.lookup_empty]
      word_root := formed.word_root
      word_eq other member up step := by
        rw [(labels other).1] at step
        rw [(labels other).2.1]
        exact formed.word_eq other (kept member).2 up step
      partition := by
        refine Perm.trans ?_ formed.partition
        rw [split]
        have moved := perm_append_singleton last (trie.pool ++ trie.root :: front)
        rw [append_assoc] at moved
        exact moved.symm
      indexed other member := by
        obtain ⟨notLast, otherMem⟩ := kept member
        have indexed := formed.indexed other otherMem
        have node := @node_released base last above differs other
        rw [if_neg notLast] at node
        have keys : (base.released last above).sortKey = trie.sortKey := sortKey_released differs
        by_cases isAbove : other = above
        swap
        · rw [if_neg isAbove] at node
          exact indexed.congr (by rw [node]) (by rw [node]) (by rw [node])
            fun below _ => congrFun keys below
        subst isAbove
        rw [if_pos rfl] at node
        exact
          { nodup := by
              rw [node]
              exact indexed.nodup.erase last
            mem_lru below := by
              rw [node]
              rw [indexed.nodup.mem_erase_iff, indexed.mem_lru below]
              have filed : (trie.node other).child.lookup (trie.node last).token = some last :=
                formed.linked.child_of_parent inside parent
              constructor
              · rintro ⟨notLast, token, found⟩
                refine ⟨token, ?_⟩
                rw [Finmap.lookup_erase_ne, found]
                rintro rfl
                exact notLast (some.inj (found.symm.trans filed))
              · rintro ⟨token, found⟩
                by_cases same : token = (trie.node last).token
                · subst same
                  rw [Finmap.lookup_erase] at found
                  cases found
                · rw [Finmap.lookup_erase_ne same] at found
                  refine ⟨?_, token, found⟩
                  rintro rfl
                  have label := (formed.linked.of_child otherMem found).2.2.1
                  exact same label.symm
            perm := by
              rw [node]
              rw [indexed.filter_ne]
              exact indexed.perm.erase last
            sorted := by
              rw [node, keys]
              exact indexed.sorted.filter _ }
      parentFirst := by
        have order := formed.parentFirst
        rw [split] at order
        refine (pairwise_append.mp order).1.imp fun {a b} differs => ?_
        rw [(labels a).1]
        exact differs }

/-! ### Moving the path to the front -/

/-- A promotion keeps the nodes. -/
theorem dom_promote {path : List ℕ} (inside : path ⊆ trie.globalLru) :
    (trie.promote path).dom = trie.dom := by
  ext other
  rw [mem_dom, mem_dom]
  exact or_congr_right (foldr_moveToFront_perm inside).mem_iff

/-- It keeps the trie formed. -/
theorem Formed.promote (formed : trie.Formed word) {path : List ℕ} (inside : path ⊆ trie.globalLru)
    (deeper : path.Pairwise fun a b => (word a).length < (word b).length)
    (chained : ∀ id ∈ path, ∃ above ∈ trie.root :: path, (trie.node id).parent = some above) :
    (trie.promote path).Formed word := by
  have moved := foldr_moveToFront_perm inside
  have distinct : path.Nodup := deeper.imp fun less same => by
    rw [same] at less
    exact lt_irrefl _ less
  have domEq := dom_promote inside
  exact
    { linked := by
        rw [domEq]
        exact formed.linked
      word_root := formed.word_root
      word_eq := by
        rw [domEq]
        exact formed.word_eq
      partition := ((moved.cons _).append_left _).trans formed.partition
      indexed := by
        rw [domEq]
        exact fun id member => (formed.indexed id member).congr rfl rfl rfl fun _ _ => rfl
      parentFirst := by
        rw [Trie.promote, foldr_moveToFront distinct formed.lru_nodup]
        refine pairwise_append.mpr ⟨?_, formed.parentFirst.filter _, ?_⟩
        · refine deeper.imp_of_mem fun {a b} first second less parent => ?_
          have member := mem_dom.mpr (.inr (inside first))
          have lower := (formed.linked.parent_eq member parent).2.2
          exact lt_asymm less lower
        · intro a first b second parent
          obtain ⟨listed, outside⟩ := mem_filter.mp second
          obtain ⟨above, near, step⟩ := chained a first
          obtain rfl := some.inj (step.symm.trans parent)
          obtain rfl | onPath := mem_cons.mp near
          · exact formed.root_not_mem listed
          · exact of_decide_eq_true outside onPath }

end Trie

end AvaServe.Ngram
