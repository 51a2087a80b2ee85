import AvaServe.Radix.RadixTree

/-!
# Descending the tree

`_match_prefix_helper` and `_insert_helper` walk down from the root along a query,
page by page, and split the last node they enter when its key goes another way.
`At` is the invariant of both loops: the current node spells a prefix of the query,
and every node that shares more pages with the query lies below it. At the end of
either loop no node of the namespace shares more pages with the query than the
node reached (`Farthest`). All the loops do to the heap is stamp and split.
-/

namespace AvaServe.Radix.RadixCache

open Foundation List Relation

/-! ### Moves that keep the words -/

/-- What the loops do to the heap, one change at a time. -/
inductive Move : RadixCache → RadixCache → Prop
  | stamp {before after : RadixCache} (stamped : Stamped before after) : Move before after
  | split {cache : RadixCache} {child above splitLen : ℕ}
      (point : SplitPoint cache child above splitLen) (clock : Clock) :
      Move cache (point.result clock)

/-- `after` holds the tree of `before`, possibly with some nodes split: the nodes of
`before` are still there and stand for the same words and indices, and every node
stands for a prefix of what some node of `before` stands for. -/
structure Extended (before : RadixCache) (full : ℕ → List KeyUnit) (vals : ℕ → List ℕ)
    (after : RadixCache) (full' : ℕ → List KeyUnit) (vals' : ℕ → List ℕ) : Prop where
  moves : ReflTransGen Move before after
  wellFormed : WellFormed after full' vals'
  kept : before.nodes ⊆ after.nodes
  full_eq : ∀ id ∈ before.nodes, full' id = full id
  vals_eq : ∀ id ∈ before.nodes, vals' id = vals id
  space_eq : ∀ id ∈ before.nodes, after.space id = before.space id
  origin : ∀ id ∈ after.nodes, id ≠ after.rootNode → ∃ old ∈ before.nodes,
    old ≠ before.rootNode ∧ after.space id = before.space old ∧ full' id <+: full old ∧
      vals' id <+: vals old

namespace Extended

variable {before middle after : RadixCache} {full full' full'' : ℕ → List KeyUnit}
variable {vals vals' vals'' : ℕ → List ℕ} (wf : WellFormed before full vals)

include wf in
/-- Nothing changes. -/
theorem refl : Extended before full vals before full vals :=
  ⟨.refl, wf, Finset.Subset.refl _, fun _ _ => rfl, fun _ _ => rfl, fun _ _ => rfl,
    fun id member notRoot => ⟨id, member, notRoot, rfl, prefix_rfl, prefix_rfl⟩⟩

/-- Extensions one after the other. -/
theorem trans (first : Extended before full vals middle full' vals')
    (second : Extended middle full' vals' after full'' vals'') :
    Extended before full vals after full'' vals'' where
  moves := first.moves.trans second.moves
  wellFormed := second.wellFormed
  kept := first.kept.trans second.kept
  full_eq id member := (second.full_eq id (first.kept member)).trans (first.full_eq id member)
  vals_eq id member := (second.vals_eq id (first.kept member)).trans (first.vals_eq id member)
  space_eq id member := (second.space_eq id (first.kept member)).trans (first.space_eq id member)
  origin id member notRoot := by
    obtain ⟨old, oldMem, oldNotRoot, space, word, stored⟩ := second.origin id member notRoot
    obtain ⟨older, olderMem, olderNotRoot, space', word', stored'⟩ :=
      first.origin old oldMem oldNotRoot
    exact ⟨older, olderMem, olderNotRoot, space.trans space', word.trans word',
      stored.trans stored'⟩

include wf in
/-- Stamps extend. -/
theorem of_stamped (stamped : Stamped before after) : Extended before full vals after full vals :=
  ⟨.single (.stamp stamped), stamped.wellFormed wf, stamped.nodes.symm.subset, fun _ _ => rfl,
    fun _ _ => rfl, fun id _ => stamped.space id, fun id member notRoot =>
      ⟨id, stamped.nodes ▸ member, stamped.rootNode ▸ notRoot, stamped.space id, prefix_rfl,
        prefix_rfl⟩⟩

include wf in
/-- So does a split. -/
theorem of_split {child above splitLen : ℕ} (point : SplitPoint before child above splitLen)
    (clock : Clock) : Extended before full vals (point.result clock) (point.fullAfter full)
      (point.valsAfter vals) where
  moves := .single (.split point clock)
  wellFormed := point.wellFormed wf clock
  kept _ member := point.nodes wf clock ▸ Finset.mem_insert_of_mem member
  full_eq _ member := point.fullAfter_of_mem member
  vals_eq _ member := point.valsAfter_of_mem member
  space_eq _ member := point.space_of_mem wf clock member
  origin id member notRoot := by
    have root : (point.result clock).rootNode = before.rootNode := by rw [point.frame]
    rw [point.nodes wf clock] at member
    obtain rfl | member := Finset.mem_insert.mp member
    · refine ⟨child, point.member, point.child_notRoot wf, point.space_fresh wf clock, ?_, ?_⟩
      · rw [point.fullAfter_fresh, wf.full_eq child point.member above point.parent]
        exact (prefix_append_right_inj _).mpr <| take_prefix _ _
      · rw [point.valsAfter_fresh, wf.vals_eq child point.member above point.parent]
        exact (prefix_append_right_inj _).mpr <| take_prefix _ _
    · exact ⟨id, member, root ▸ notRoot, point.space_of_mem wf clock member,
        point.fullAfter_of_mem member ▸ prefix_rfl,
        point.valsAfter_of_mem member ▸ prefix_rfl⟩

end Extended

/-- A property kept by stamps and by splits of well-formed trees is kept by the
loops. -/
theorem move_induction {motive : RadixCache → Prop} {before after : RadixCache}
    {full : ℕ → List KeyUnit} {vals : ℕ → List ℕ} (moves : ReflTransGen Move before after)
    (wf : WellFormed before full vals)
    (stamp : ∀ {b a : RadixCache} {f : ℕ → List KeyUnit} {v : ℕ → List ℕ}, WellFormed b f v →
      Stamped b a → motive b → motive a)
    (split : ∀ {b : RadixCache} {child above splitLen : ℕ} {f : ℕ → List KeyUnit} {v : ℕ → List ℕ}
      (point : SplitPoint b child above splitLen) (clock : Clock), WellFormed b f v → motive b →
      motive (point.result clock)) (start : motive before) : motive after := by
  suffices motive after ∧ ∃ f v, WellFormed after f v from this.1
  induction moves with
  | refl => exact ⟨start, full, vals, wf⟩
  | tail _ move ih =>
    obtain ⟨held, f, v, wf⟩ := ih
    cases move with
    | stamp stamped => exact ⟨stamp wf stamped held, f, v, stamped.wellFormed wf⟩
    | split point clock => exact ⟨split point clock wf held, _, _, point.wellFormed wf clock⟩

/-- The loops change the heap and the id counter only. -/
theorem frame_of_moves {before after : RadixCache} (moves : ReflTransGen Move before after) :
    after = { before with node := after.node, counter := after.counter } := by
  induction moves with
  | refl => rfl
  | tail _ move ih =>
    cases move with
    | stamp stamped => rw [stamped.frame, ih]
    | split point clock =>
      have framed := point.frame clock
      generalize point.result clock = result at framed
      rw [framed, ih]

/-! ### The loop invariant -/

section Invariant

variable {cache : RadixCache} {full : ℕ → List KeyUnit} {vals : ℕ → List ℕ}
variable {query : List KeyUnit} {node child : ℕ} {key : RadixKey}

/-- No node of the namespace shares more pages with the query than `node`. -/
def Farthest (cache : RadixCache) (full : ℕ → List KeyUnit) (query : List KeyUnit)
    (space : Option String × Option String) (node : ℕ) : Prop :=
  ∀ id ∈ cache.nodes, id ≠ cache.rootNode → cache.space id = space →
    alignedPrefix cache.pageSize (full id) query ≤ (full node).length

/-- The walk for `query` is at `node` with `key` left. -/
structure At (cache : RadixCache) (full : ℕ → List KeyUnit) (query : List KeyUnit) (node : ℕ)
    (key : RadixKey) : Prop where
  member : node ∈ cache.nodes
  spells : full node ++ key.units = query
  whole : cache.pageSize ∣ key.len
  space : node ≠ cache.rootNode → cache.space node = key.namespaceOf
  leads : ∀ id ∈ cache.nodes, id ≠ cache.rootNode → cache.space id = key.namespaceOf →
    cache.links.Climbs id node ∨ alignedPrefix cache.pageSize (full id) query ≤ (full node).length

variable (wf : WellFormed cache full vals)

include wf in
/-- The walk starts at the root. -/
theorem at_root (whole : cache.pageSize ∣ key.len) :
    At cache full key.units cache.rootNode key where
  member := wf.root_mem
  spells := by rw [wf.full_root, nil_append]
  whole := whole
  space notRoot := absurd rfl notRoot
  leads _ member _ _ := .inl (wf.tree.climbs_root member)

/-- A key that is left has a page. -/
theorem At.pageSize_le (here : At cache full query node key) (nonempty : 0 < key.len) :
    cache.pageSize ≤ key.len :=
  Nat.le_of_dvd nonempty here.whole

/-- Stamps keep the place. -/
theorem At.of_stamped (here : At cache full query node key) {after : RadixCache}
    (stamped : Stamped cache after) : At after full query node key where
  member := stamped.nodes ▸ here.member
  spells := here.spells
  whole := stamped.pageSize ▸ here.whole
  space := by
    rw [stamped.rootNode, stamped.space]
    exact here.space
  leads := by
    simp only [stamped.nodes, stamped.rootNode, stamped.space, stamped.links, stamped.pageSize]
    exact here.leads

/-- Two page-aligned lengths that differ differ by a page. -/
theorem add_pageSize_le {pageSize low high : ℕ} (wholeLow : pageSize ∣ low)
    (wholeHigh : pageSize ∣ high) (less : low < high) : low + pageSize ≤ high := by
  have gap := Nat.le_of_dvd (Nat.sub_pos_of_lt less) (Nat.dvd_sub wholeHigh wholeLow)
  omega

section

variable (here : At cache full query node key)
include here

include wf in
/-- A node below the current one that shares more pages with the query is below the
child that is filed under the next page of the query. -/
theorem At.toward {id : ℕ} (member : id ∈ cache.nodes) (climbs : cache.links.Climbs id node)
    (space : cache.space id = key.namespaceOf)
    (further : (full node).length < alignedPrefix cache.pageSize (full id) query) :
    ∃ below, cache.links.child node (key.childKey cache.pageSize) = some below ∧
      cache.links.Climbs id below := by
  have shared : (full node).length + cache.pageSize ≤ commonPrefix (full id) query :=
    (add_pageSize_le (wf.length_full_dvd here.member) (dvd_alignedPrefix _ _) further).trans
      (alignedPrefix_le _ _)
  have different : id ≠ node := by
    rintro rfl
    have short := commonPrefix_le_left (full id) query
    have := wf.positive
    omega
  obtain ⟨below, climbs, parent⟩ := LinkedTree.exists_child_of_climbs climbs different
  have belowMem := wf.tree.mem_of_climbs member climbs
  have belowNotRoot := (wf.tree.parent_eq belowMem parent).2.1
  refine ⟨below, ?_, climbs⟩
  obtain ⟨rest, word⟩ := wf.full_prefix_of_climbs member climbs
  rw [wf.full_eq below belowMem node parent] at word
  rw [← word, ← here.spells, append_assoc, commonPrefix_append, add_le_add_iff_left] at shared
  have inBelow := wf.pageSize_le_len belowMem belowNotRoot
  obtain ⟨-, inKey, same⟩ := le_commonPrefix_iff.mp shared
  rw [take_append_of_le_length (by rwa [RadixKey.length_units])] at same
  rw [RadixKey.length_units] at inKey
  have label : cache.links.label below = key.childKey cache.pageSize :=
    (RadixKey.childKey_eq_iff wf.positive inBelow inKey).mpr
      ⟨(wf.space_of_climbs member climbs belowNotRoot).trans space, same⟩
  rw [← label]
  exact wf.tree.child_of_parent belowMem parent

include wf in
/-- When no child is filed under the next page, the walk is as far as it gets. -/
theorem At.farthest_of_vacant
    (vacant : cache.links.child node (key.childKey cache.pageSize) = none) :
    Farthest cache full query key.namespaceOf node := by
  intro id member notRoot space
  obtain climbs | short := here.leads id member notRoot space
  · by_contra further
    obtain ⟨below, found, -⟩ := here.toward wf member climbs space (not_le.mp further)
    rw [vacant] at found
    cases found
  · exact short

/-- When the query is used up, the walk is as far as it gets. -/
theorem At.farthest_of_empty (empty : key.len = 0) :
    Farthest cache full query key.namespaceOf node := by
  intro id _ _ _
  have all : query = full node := by
    rw [← here.spells, append_right_eq_self]
    exact eq_nil_of_length_eq_zero (key.length_units.trans empty)
  exact (alignedPrefix_le _ _).trans (all ▸ commonPrefix_le_right _ _)

section

variable (wf : WellFormed cache full vals)
include wf

variable (nonempty : 0 < key.len)
  (found : cache.links.child node (key.childKey cache.pageSize) = some child)

section

include nonempty found

/-- What `match` reports for the child under the next page: at least that page, and
at most either key. -/
theorem At.matchKey_child :
    let shared := alignedPrefix cache.pageSize (cache.node child).key.units key.units
    (cache.node child).key.matchKey key cache.pageSize = .ok shared ∧ 0 < shared ∧
      shared ≤ (cache.node child).key.len ∧ shared ≤ key.len ∧
      (cache.node child).key.units.take shared = key.units.take shared ∧
      cache.space child = key.namespaceOf := by
  obtain ⟨childMem, parent, label, childNotRoot, -⟩ := wf.tree.of_child here.member found
  have inChild := wf.pageSize_le_len childMem childNotRoot
  have inKey := here.pageSize_le nonempty
  obtain ⟨space, page⟩ := (RadixKey.childKey_eq_iff wf.positive inChild inKey).mp label
  have mode := RadixKey.isBigram_eq_of_take_units wf.positive inChild page
  have reach : cache.pageSize ≤
      alignedPrefix cache.pageSize (cache.node child).key.units key.units := by
    rw [le_alignedPrefix_iff wf.positive dvd_rfl, le_commonPrefix_iff]
    exact ⟨by rwa [RadixKey.length_units], by rwa [RadixKey.length_units], page⟩
  have bound : alignedPrefix cache.pageSize (cache.node child).key.units key.units ≤
      commonPrefix (cache.node child).key.units key.units := alignedPrefix_le _ _
  obtain ⟨short, short', same⟩ := le_commonPrefix_iff.mp bound
  rw [RadixKey.length_units] at short short'
  exact ⟨RadixKey.matchKey_eq wf.positive space mode, wf.positive.trans_le reach, short, short',
    same, space⟩

/-- Walking into a child whose whole key agrees with the query. -/
theorem At.enter
    (whole : alignedPrefix cache.pageSize (cache.node child).key.units key.units =
      (cache.node child).key.len) :
    At cache full query child (key.dropUnits (cache.node child).key.len) := by
  obtain ⟨childMem, parent, -, -, -⟩ := wf.tree.of_child here.member found
  obtain ⟨-, -, -, -, same, space⟩ := here.matchKey_child wf nonempty found
  have word := wf.full_eq child childMem node parent
  rw [whole, ← RadixKey.length_units, take_length, RadixKey.length_units] at same
  refine ⟨childMem, ?_, ?_, fun _ => by simpa using space, fun id member notRoot space' => ?_⟩
  · rw [word, RadixKey.units_dropUnits, append_assoc, same, take_append_drop, here.spells]
  · rw [RadixKey.len_dropUnits]
    exact Nat.dvd_sub here.whole (wf.aligned child childMem)
  · rw [RadixKey.namespaceOf_dropUnits] at space'
    rw [word, length_append]
    obtain climbs | short := here.leads id member notRoot space'
    · by_cases further : (full node).length < alignedPrefix cache.pageSize (full id) query
      · obtain ⟨below, found', climbs⟩ := here.toward wf member climbs space' further
        rw [found] at found'
        cases found'
        exact .inl climbs
      · exact .inr (by omega)
    · exact .inr (by omega)

/-- A partial match is a place to split. -/
theorem At.splitPoint
    (partly : alignedPrefix cache.pageSize (cache.node child).key.units key.units <
      (cache.node child).key.len) : SplitPoint cache child node
      (alignedPrefix cache.pageSize (cache.node child).key.units key.units) := by
  obtain ⟨childMem, parent, -, -, -⟩ := wf.tree.of_child here.member found
  obtain ⟨-, positive, -, -, -, -⟩ := here.matchKey_child wf nonempty found
  exact ⟨childMem, parent, positive, partly, dvd_alignedPrefix _ _⟩

end

/-- After splitting a child that agrees with the query in part, the new node is as
far as the walk gets. -/
theorem At.farthest_split
    (found : cache.links.child node (key.childKey cache.pageSize) = some child)
    (point : SplitPoint cache child node
      (alignedPrefix cache.pageSize (cache.node child).key.units key.units)) (clock : Clock) :
    Farthest (point.result clock) (point.fullAfter full) query key.namespaceOf cache.counter := by
  intro id inside notRoot space
  have size : (point.result clock).pageSize = cache.pageSize := by rw [point.frame]
  have root : (point.result clock).rootNode = cache.rootNode := by rw [point.frame]
  rw [point.nodes wf clock] at inside
  rw [size]
  obtain rfl | member := Finset.mem_insert.mp inside
  · exact (alignedPrefix_le _ _).trans (commonPrefix_le_left _ _)
  rw [root] at notRoot
  rw [point.space_of_mem wf clock member] at space
  rw [point.length_fullAfter_fresh, point.fullAfter_of_mem member]
  obtain climbs | short := here.leads id member notRoot space
  · by_contra beyond
    obtain ⟨below, found', climbs⟩ := here.toward wf member climbs space (by omega)
    rw [found] at found'
    cases found'
    obtain ⟨rest, word⟩ := wf.full_prefix_of_climbs member climbs
    rw [wf.full_eq child point.member node point.parent] at word
    have shared := (add_pageSize_le ((wf.length_full_dvd here.member).add point.whole)
      (dvd_alignedPrefix _ _) (not_le.mp beyond)).trans (alignedPrefix_le _ _)
    have room := add_pageSize_le point.whole (wf.aligned child point.member) point.short
    rw [← word, ← here.spells, append_assoc, commonPrefix_append, add_assoc,
      add_le_add_iff_left] at shared
    obtain ⟨-, inKey, same⟩ := le_commonPrefix_iff.mp shared
    rw [take_append_of_le_length (by rwa [RadixKey.length_units])] at same
    have more := (le_alignedPrefix_iff wf.positive (point.whole.add dvd_rfl)).mpr
      (le_commonPrefix_iff.mpr ⟨by rwa [RadixKey.length_units], inKey, same⟩)
    have := wf.positive
    omega
  · omega

include nonempty found in
/-- The walk after the split stands at the new node. -/
theorem At.split
    (point : SplitPoint cache child node
      (alignedPrefix cache.pageSize (cache.node child).key.units key.units)) (clock : Clock) :
    At (point.result clock) (point.fullAfter full) query cache.counter
      (key.dropUnits (alignedPrefix cache.pageSize (cache.node child).key.units key.units)) := by
  obtain ⟨-, -, -, -, same, space⟩ := here.matchKey_child wf nonempty found
  have size : (point.result clock).pageSize = cache.pageSize := by rw [point.frame]
  refine ⟨point.nodes wf clock ▸ Finset.mem_insert_self _ _, ?_, ?_, fun _ => ?_,
    fun id inside notRoot space' => .inr ?_⟩
  · rw [point.fullAfter_fresh, same, RadixKey.units_dropUnits, append_assoc,
      take_append_drop, here.spells]
  · rw [size, RadixKey.len_dropUnits]
    exact Nat.dvd_sub here.whole point.whole
  · rw [point.space_fresh wf, space, RadixKey.namespaceOf_dropUnits]
  · rw [RadixKey.namespaceOf_dropUnits] at space'
    exact here.farthest_split wf found point clock id inside notRoot space'

end

end

end Invariant

/-! ### The two loops -/

section Loops

variable {cache : RadixCache} {full : ℕ → List KeyUnit} {vals : ℕ → List ℕ}
variable {query : List KeyUnit} {node : ℕ} {key : RadixKey}

/-- What the walk of a match ends with: the node reached, and the indices collected
on the way. -/
structure Matched (before : RadixCache) (full : ℕ → List KeyUnit) (vals : ℕ → List ℕ)
    (query : List KeyUnit) (space : Option String × Option String) (after : RadixCache)
    (last : ℕ) (full' : ℕ → List KeyUnit) (vals' : ℕ → List ℕ) : Prop where
  extended : Extended before full vals after full' vals'
  member : last ∈ after.nodes
  spells : full' last <+: query
  farthest : Farthest after full' query space last
  lastSpace : last ≠ after.rootNode → after.space last = space

/-- Where the walk ends is the match. -/
theorem At.matched (here : At cache full query node key) (wf : WellFormed cache full vals)
    (farthest : Farthest cache full query key.namespaceOf node) :
    Matched cache full vals query key.namespaceOf cache node full vals :=
  ⟨.refl wf, here.member, ⟨_, here.spells⟩, farthest, here.space⟩

/-- The loop finds the longest stored prefix. -/
theorem matchLoop_spec (clock : Clock) {fuel : ℕ} (wf : WellFormed cache full vals)
    (here : At cache full query node key) (enough : key.len ≤ fuel) (value : List ℕ) :
    ∃ after last rest full' vals',
      matchLoop clock fuel cache node key value = .ok (after, value ++ rest, last) ∧
      vals' last = vals node ++ rest ∧
      Matched cache full vals query key.namespaceOf after last full' vals' := by
  induction fuel generalizing cache full vals node key value with
  | zero =>
    refine ⟨cache, node, [], full, vals, by simp [matchLoop], by simp, here.matched wf ?_⟩
    exact here.farthest_of_empty (by omega)
  | succ fuel ih =>
    unfold matchLoop
    by_cases nonempty : 0 < key.len
    · rw [if_pos nonempty]
      cases found : (cache.node node).children.lookup (key.childKey cache.pageSize) with
      | none =>
        exact ⟨cache, node, [], full, vals, by simp, by simp,
          here.matched wf (here.farthest_of_vacant wf found)⟩
      | some child =>
        dsimp only
        have stamped := Stamped.touch cache clock child
        have touched := Extended.of_stamped wf stamped
        generalize cache.touch clock child = cache' at stamped touched
        have here' := here.of_stamped stamped
        have wf' := touched.wellFormed
        have found' : cache'.links.child node (key.childKey cache'.pageSize) = some child := by
          rw [stamped.links, stamped.pageSize]
          exact found
        obtain ⟨matched, positive, short, short', -, -⟩ := here'.matchKey_child wf' nonempty found'
        rw [matched]
        simp only [bind, Except.bind]
        by_cases partly : alignedPrefix cache'.pageSize (cache'.node child).key.units key.units <
            (cache'.node child).key.len
        · have point := here'.splitPoint wf' nonempty found' partly
          rw [if_pos partly]
          refine ⟨point.result clock, cache'.counter, _, point.fullAfter full,
            point.valsAfter vals, ?_, point.valsAfter_fresh, ?_⟩
          · rw [← point.indices_fresh wf' clock]
            rfl
          · have there := here'.split wf' nonempty found' point clock
            refine ⟨touched.trans (.of_split wf' point clock), there.member,
              ⟨_, there.spells⟩, here'.farthest_split wf' found' point clock, ?_⟩
            simpa using there.space
        · have whole : alignedPrefix cache'.pageSize (cache'.node child).key.units key.units =
              (cache'.node child).key.len := le_antisymm short (not_lt.mp partly)
          rw [if_neg partly, whole]
          have there := here'.enter wf' nonempty found' whole
          obtain ⟨after, last, rest, full', vals', ran, collected, result⟩ :=
            ih wf' there (by rw [RadixKey.len_dropUnits]; omega)
              (value ++ (cache'.node child).indices)
          obtain ⟨childMem, parent, -, -, -⟩ := wf'.tree.of_child here'.member found'
          refine ⟨after, last, (cache'.node child).indices ++ rest, full', vals', ?_, ?_, ?_⟩
          · rw [ran, append_assoc]
          · rw [collected, wf'.vals_eq child childMem node parent, append_assoc]
          · rw [RadixKey.namespaceOf_dropUnits] at result
            exact { result with extended := touched.trans result.extended }
    · rw [if_neg nonempty]
      refine ⟨cache, node, [], full, vals, by simp, by simp, here.matched wf ?_⟩
      exact here.farthest_of_empty (by omega)

/-- What the loop of an insert ends with: the walk as far as it gets, with nothing
filed under the rest of the key. -/
structure Placed (before : RadixCache) (full : ℕ → List KeyUnit) (vals : ℕ → List ℕ)
    (query : List KeyUnit) (start : InsertCursor) (after : RadixCache) (cursor : InsertCursor)
    (full' : ℕ → List KeyUnit) (vals' : ℕ → List ℕ) : Prop where
  extended : Extended before full vals after full' vals'
  here : At after full' query cursor.node cursor.key
  farthest : Farthest after full' query start.key.namespaceOf cursor.node
  space : cursor.key.namespaceOf = start.key.namespaceOf
  vacant : 0 < cursor.key.len →
    (after.node cursor.node).children.lookup (cursor.key.childKey after.pageSize) = none
  consumed : ∃ count, start.key.len = count + cursor.key.len ∧
    cursor.totalPrefixLength = start.totalPrefixLength + count ∧
    cursor.value = start.value.drop count

/-- A walk that advanced past the first `count` units and then was placed. -/
theorem Placed.of_advance {middle after : RadixCache} {full' full'' : ℕ → List KeyUnit}
    {vals' vals'' : ℕ → List ℕ} {start cursor : InsertCursor} {count : ℕ}
    (placed : Placed middle full' vals' query (start.advance node count) after cursor full'' vals'')
    (step : Extended cache full vals middle full' vals') (short : count ≤ start.key.len) :
    Placed cache full vals query start after cursor full'' vals'' := by
  have space : (start.advance node count).key.namespaceOf = start.key.namespaceOf :=
    start.key.namespaceOf_dropUnits count
  obtain ⟨more, lengths, totals, values⟩ := placed.consumed
  simp only [InsertCursor.advance, RadixKey.len_dropUnits] at lengths totals values
  refine ⟨step.trans placed.extended, placed.here, space ▸ placed.farthest,
    placed.space.trans space, placed.vacant, count + more, ?_, ?_, ?_⟩
  · omega
  · omega
  · rw [values, drop_drop]

/-- The loop finds the place of the key. -/
theorem insertLoop_spec (clock : Clock) (priority : ℤ) (chunked : Bool) {fuel : ℕ}
    {cursor : InsertCursor} (wf : WellFormed cache full vals)
    (here : At cache full query cursor.node cursor.key) (enough : cursor.key.len ≤ fuel) :
    ∃ after cursor' full' vals',
      insertLoop clock priority chunked fuel cache cursor = .ok (after, cursor') ∧
      Placed cache full vals query cursor after cursor' full' vals' := by
  induction fuel generalizing cache full vals cursor with
  | zero =>
    have empty : cursor.key.len = 0 := by omega
    exact ⟨cache, cursor, full, vals, rfl, .refl wf, here, here.farthest_of_empty empty, rfl,
      fun nonempty => by omega, 0, by omega, rfl, rfl⟩
  | succ fuel ih =>
    unfold insertLoop
    by_cases nonempty : 0 < cursor.key.len
    · rw [if_pos nonempty]
      cases found :
          (cache.node cursor.node).children.lookup (cursor.key.childKey cache.pageSize) with
      | none =>
        exact ⟨cache, cursor, full, vals, rfl, .refl wf, here,
          here.farthest_of_vacant wf found, rfl, fun _ => found, 0, by omega, rfl, rfl⟩
      | some child =>
        dsimp only
        have stamped := Stamped.touch cache clock child
        have touched := Extended.of_stamped wf stamped
        generalize cache.touch clock child = cache' at stamped touched
        have here' := here.of_stamped stamped
        have wf' := touched.wellFormed
        have found' : cache'.links.child cursor.node (cursor.key.childKey cache'.pageSize) =
            some child := by
          rw [stamped.links, stamped.pageSize]
          exact found
        obtain ⟨matched, positive, short, short', -, -⟩ := here'.matchKey_child wf' nonempty found'
        rw [matched]
        simp only [bind, Except.bind]
        generalize sharing : alignedPrefix cache'.pageSize (cache'.node child).key.units
          cursor.key.units = shared at positive short short'
        by_cases partly : shared < (cache'.node child).key.len
        · rw [if_pos partly]
          subst sharing
          have point := here'.splitPoint wf' nonempty found' partly
          have split := Extended.of_split wf' point clock
          have marked := (Stamped.raisePriority (point.result clock) cache'.counter
            priority).trans (.incHitCount _ cache'.counter chunked)
          have step := (touched.trans split).trans (.of_stamped split.wellFormed marked)
          generalize moved : cursor.advance cache'.counter (alignedPrefix cache'.pageSize
            (cache'.node child).key.units cursor.key.units) = next
          have there := (here'.split wf' nonempty found' point clock).of_stamped marked
          have shorter : next.key.len ≤ fuel := by
            rw [← moved, InsertCursor.advance, RadixKey.len_dropUnits]
            omega
          obtain ⟨after, cursor', full', vals', ran, placed⟩ :=
            @ih _ _ _ next step.wellFormed (by rw [← moved]; exact there) shorter
          rw [← moved] at ran placed
          exact ⟨after, cursor', full', vals', ran, placed.of_advance step short'⟩
        · rw [if_neg partly]
          have whole : alignedPrefix cache'.pageSize (cache'.node child).key.units
              cursor.key.units = (cache'.node child).key.len :=
            sharing.trans (le_antisymm short (not_lt.mp partly))
          have marked := (Stamped.raisePriority cache' child priority).trans
            (.incHitCount _ child chunked)
          have step := touched.trans (.of_stamped wf' marked)
          have entered := here'.enter wf' nonempty found' whole
          rw [← whole, sharing] at entered
          have there := entered.of_stamped marked
          have shorter : (cursor.advance child shared).key.len ≤ fuel := by
            rw [InsertCursor.advance, RadixKey.len_dropUnits]
            omega
          obtain ⟨after, cursor', full', vals', ran, placed⟩ :=
            @ih _ _ _ (cursor.advance child shared) step.wellFormed there shorter
          exact ⟨after, cursor', full', vals', ran, placed.of_advance step short'⟩
    · rw [if_neg nonempty]
      have empty : cursor.key.len = 0 := by omega
      exact ⟨cache, cursor, full, vals, rfl, .refl wf, here, here.farthest_of_empty empty, rfl,
        fun nonempty => by omega, 0, by omega, rfl, rfl⟩

end Loops

/-! ### The two calls -/

section Calls

variable {cache : RadixCache} {full : ℕ → List KeyUnit} {vals : ℕ → List ℕ}

/-- The key that `match_prefix` looks up: in the mode of the cache and cut to whole
pages. -/
def lookupKey (cache : RadixCache) (key : RadixKey) : RadixKey :=
  (key.maybeToBigramView cache.isEagle none).1.pageAligned cache.pageSize

/-- A match returns the indices along the path to the farthest node. -/
theorem matchPrefix_spec (wf : WellFormed cache full vals) (enabled : cache.disable = false)
    (clock : Clock) (key : RadixKey) :
    ∃ after result full' vals', cache.matchPrefix clock key = .ok (after, result) ∧
      result.deviceIndices = vals' result.lastDeviceNode ∧
      Matched cache full vals (cache.lookupKey key).units key.namespaceOf after
        result.lastDeviceNode full' vals' := by
  have start : At cache full (cache.lookupKey key).units cache.rootNode (cache.lookupKey key) :=
    at_root wf (by simp [lookupKey, RadixKey.len_pageAligned])
  have space : (cache.lookupKey key).namespaceOf = key.namespaceOf := by simp [lookupKey]
  by_cases empty : (cache.lookupKey key).len = 0
  · refine ⟨cache, ⟨[], cache.rootNode⟩, full, vals, ?_, wf.vals_root.symm,
      space ▸ start.matched wf (start.farthest_of_empty empty)⟩
    unfold lookupKey at empty
    simp [matchPrefix, empty, pure, Except.pure]
  · have stamped := Stamped.touch cache clock cache.rootNode
    have touched := Extended.of_stamped wf stamped
    obtain ⟨after, last, rest, full', vals', ran, collected, matched⟩ :=
      matchLoop_spec clock touched.wellFormed (start.of_stamped stamped) le_rfl []
    refine ⟨after, ⟨rest, last⟩, full', vals', ?_, ?_,
      { space ▸ matched with extended := touched.trans matched.extended }⟩
    · have nonempty : (key.maybeToBigramView cache.isEagle none).1.len ≠ 0 := by
        intro none
        exact empty (by simp [lookupKey, RadixKey.len_pageAligned, none])
      unfold lookupKey at empty ran
      simp [matchPrefix, matchPrefixHelper, enabled, empty, nonempty, ran, bind, Except.bind, pure,
        Except.pure]
    · rw [collected, wf.vals_root, nil_append]

/-- An insert walks as far as it gets and adds a leaf for the rest of the key, if
there is one. -/
theorem insert_spec (wf : WellFormed cache full vals) (enabled : cache.disable = false)
    (clock : Clock) (params : InsertParams)
    (covered : (cache.insertArgs params).2.length = (cache.insertArgs params).1.len) :
    ∃ middle cursor full' vals', Placed cache full vals (cache.insertArgs params).1.units
        ⟨cache.rootNode, (cache.insertArgs params).1, (cache.insertArgs params).2, 0⟩
        middle cursor full' vals' ∧
      (cursor.key.len = 0 ∧ cache.insert clock params =
          .ok (middle, ⟨cursor.totalPrefixLength, some cursor.node⟩) ∨
        ∃ point : LeafPoint middle cursor, cache.insert clock params =
          .ok (point.result clock (params.priority.getD 0) params.chunked,
            ⟨cursor.totalPrefixLength, some middle.counter⟩)) := by
  have whole : cache.pageSize ∣ (cache.insertArgs params).1.len := by
    unfold insertArgs
    dsimp only
    split <;> simp [RadixKey.len_pageAligned]
  generalize args : cache.insertArgs params = pair at *
  obtain ⟨key, value⟩ := pair
  dsimp only at covered whole
  have start : At cache full key.units cache.rootNode key := at_root wf whole
  have stamped := (Stamped.touch cache clock cache.rootNode).trans
    (.raisePriority _ cache.rootNode (params.priority.getD 0))
  have touched := Extended.of_stamped wf stamped
  by_cases empty : key.len = 0
  · have start' := start.of_stamped stamped
    refine ⟨_, ⟨cache.rootNode, key, value, 0⟩, full, vals, ⟨touched, start',
      start'.farthest_of_empty empty, rfl, fun nonempty => absurd empty nonempty.ne', 0,
      (zero_add _).symm, rfl, rfl⟩,
      .inl ⟨empty, ?_⟩⟩
    simp [insert, enabled, args, insertHelper, empty, bind, Except.bind, pure, Except.pure]
  · obtain ⟨after, cursor, full', vals', ran, placed⟩ :=
      @insertLoop_spec _ full vals key.units clock (params.priority.getD 0) params.chunked key.len
        ⟨cache.rootNode, key, value, 0⟩ touched.wellFormed (start.of_stamped stamped) le_rfl
    refine ⟨after, cursor, full', vals',
      { placed with extended := touched.trans placed.extended }, ?_⟩
    by_cases rest : 0 < cursor.key.len
    · obtain ⟨count, lengths, -, values⟩ := placed.consumed
      dsimp only at lengths values
      have point : LeafPoint after cursor :=
        ⟨placed.here.member, rest, placed.here.whole,
          by rw [values, length_drop]; omega, placed.vacant rest, placed.here.space⟩
      refine .inr ⟨point, ?_⟩
      simp [insert, enabled, args, insertHelper, empty, ran, rest, bind, Except.bind]
      rfl
    · refine .inl ⟨by omega, ?_⟩
      simp [insert, enabled, args, insertHelper, empty, ran, rest, bind, Except.bind, pure,
        Except.pure]

end Calls

end AvaServe.Radix.RadixCache
