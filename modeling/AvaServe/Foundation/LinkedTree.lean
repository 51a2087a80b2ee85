import Mathlib

/-!
# Trees of linked nodes

A tree kept in a heap of nodes by parent pointers and labelled child
dictionaries. `LinkedTree` says that the two kinds of pointers describe the same
tree, and a rank that falls along every parent pointer excludes cycles. The three
mutations of such a tree are a new leaf, a new node spliced in above an existing
one, and the removal of a leaf; each keeps the tree, and the section on climbing
says what each does to the nodes above a given node.
-/

namespace AvaServe.Foundation

open List Function Option Relation

/-- The pointers of a heap of nodes: the parent of a node, the label under which
its parent files it, and the child filed under a label. -/
@[ext]
structure Links (ι κ : Type*) where
  parent : ι → Option ι
  label : ι → κ
  child : ι → κ → Option ι

namespace Links

variable {ι κ : Type*} [DecidableEq ι] [DecidableEq κ]

/-- File a fresh childless node under `key` at `above`. -/
def addLeaf (links : Links ι κ) (fresh above : ι) (key : κ) : Links ι κ where
  parent := update links.parent fresh (some above)
  label := update links.label fresh key
  child node k :=
    if node = fresh then none
    else if node = above ∧ k = key then some fresh
    else links.child node k

/-- Put a fresh node in the place of `below`, which becomes its only child and is
filed there under `key`. -/
def splice (links : Links ι κ) (fresh below : ι) (key : κ) : Links ι κ where
  parent := update (update links.parent fresh (links.parent below)) below
    (some fresh)
  label := update (update links.label fresh (links.label below)) below key
  child node k :=
    if node = fresh then (if k = key then some below else none)
    else if links.parent below = some node ∧ k = links.label below then some fresh
    else links.child node k

/-- Take a node out of its parent's dictionary. -/
def removeLeaf (links : Links ι κ) (leaf : ι) : Links ι κ where
  parent := links.parent
  label := links.label
  child node k :=
    if links.parent leaf = some node ∧ k = links.label leaf then none else links.child node k

/-- `links.Climbs node above`: following parent pointers from `node` reaches
`above`. -/
def Climbs {ι κ : Type*} (links : Links ι κ) : ι → ι → Prop :=
  ReflTransGen fun node above => links.parent node = some above

/-- `links.Reaches root node`: child dictionaries lead from `root` to `node`. -/
def Reaches {ι κ : Type*} (links : Links ι κ) : ι → ι → Prop :=
  ReflTransGen fun node below => ∃ key, links.child node key = some below

/-- The nodes from `node` up to the root, which is left out; `none` when a node
without a parent is met before the root. -/
def ancestors (links : Links ι κ) (root : ι) : ℕ → ι → Option (List ι)
  | 0, node => if node = root then some [] else none
  | fuel + 1, node =>
    if node = root then some []
    else
      match links.parent node with
      | none => none
      | some above => (ancestors links root fuel above).map (node :: ·)

end Links

/-- Parent pointers and child dictionaries of the nodes in `dom` describe one
tree with root `root`, and `rank` falls along every parent pointer. -/
structure LinkedTree {ι κ : Type*} (root : ι) (dom : Finset ι) (links : Links ι κ)
    (rank : ι → ℕ) : Prop where
  root_mem : root ∈ dom
  root_parent : links.parent root = none
  parent_mem : ∀ node ∈ dom, node ≠ root →
    ∃ above ∈ dom, links.parent node = some above ∧ rank above < rank node
  child_iff : ∀ node ∈ dom, ∀ key below, links.child node key = some below ↔
    below ∈ dom ∧ links.parent below = some node ∧ links.label below = key

namespace LinkedTree

variable {ι κ : Type*} {root : ι} {dom : Finset ι} {links : Links ι κ} {rank : ι → ℕ}

variable {node above below fresh : ι} {key : κ}

/-- A node above another one but not equal to it has a child on the way. -/
theorem exists_child_of_climbs (climbs : links.Climbs node above) (different : node ≠ above) :
    ∃ below, links.Climbs node below ∧ links.parent below = some above := by
  obtain same | ⟨below, climbs, parent⟩ := ReflTransGen.cases_tail climbs
  · exact absurd same.symm different
  · exact ⟨below, climbs, parent⟩

/-- Climbing goes through the parent unless it stops at once. -/
theorem climbs_iff_of_parent {parent : ι} (step : links.parent node = some parent) :
    links.Climbs node above ↔ above = node ∨ links.Climbs parent above := by
  constructor
  · intro climbs
    obtain same | ⟨next, step', climbs⟩ := ReflTransGen.cases_head climbs
    · exact .inl same.symm
    · rw [step] at step'
      cases step'
      exact .inr climbs
  · rintro (rfl | climbs)
    · exact .refl
    · exact .head step climbs

variable (tree : LinkedTree root dom links rank)
include tree

variable (member : node ∈ dom)

section

include member

/-- A parent is a node of lower rank. -/
theorem parent_eq (parent : links.parent node = some above) :
    above ∈ dom ∧ node ≠ root ∧ rank above < rank node := by
  have notRoot : node ≠ root := by
    rintro rfl
    rw [tree.root_parent] at parent
    cases parent
  obtain ⟨above', aboveMem, parent', lower⟩ := tree.parent_mem node member notRoot
  rw [parent] at parent'
  cases parent'
  exact ⟨aboveMem, notRoot, lower⟩

/-- A child points back. -/
theorem of_child (found : links.child node key = some below) :
    below ∈ dom ∧ links.parent below = some node ∧ links.label below = key ∧
      below ≠ root ∧ rank node < rank below := by
  obtain ⟨belowMem, parent, label⟩ := (tree.child_iff node member key below).mp found
  obtain ⟨-, notRoot, lower⟩ := tree.parent_eq belowMem parent
  exact ⟨belowMem, parent, label, notRoot, lower⟩

end

/-- A parent finds its child. -/
theorem child_of_parent (belowMem : below ∈ dom) (parent : links.parent below = some node) :
    links.child node (links.label below) = some below :=
  (tree.child_iff node (tree.parent_eq belowMem parent).1 _ _).mpr ⟨belowMem, parent, rfl⟩

/-- Only the rank of nodes in the tree matters. -/
theorem congr_rank {rank' : ι → ℕ} (same : ∀ node ∈ dom, rank' node = rank node) :
    LinkedTree root dom links rank' :=
  { tree with
    parent_mem node member notRoot := by
      obtain ⟨above, aboveMem, parent, lower⟩ := tree.parent_mem node member notRoot
      exact ⟨above, aboveMem, parent, by rwa [same above aboveMem, same node member]⟩ }

section

include member

/-- What holds of the root and passes from nodes to their children holds of all nodes. -/
@[elab_as_elim]
theorem induction_on {motive : ι → Prop} (atRoot : motive root)
    (step : ∀ node ∈ dom, node ≠ root → ∀ above ∈ dom, links.parent node = some above →
      rank above < rank node → motive above → motive node) : motive node := by
  induction height : rank node using Nat.strong_induction_on generalizing node with
  | _ height ih =>
    by_cases isRoot : node = root
    · rw [isRoot]
      exact atRoot
    · obtain ⟨above, aboveMem, parent, lower⟩ := tree.parent_mem node member isRoot
      exact step node member isRoot above aboveMem parent lower
        (ih _ (height ▸ lower) aboveMem rfl)

/-! ### Climbing -/

/-- What is climbed to is a node. -/
theorem mem_of_climbs (climbs : links.Climbs node above) : above ∈ dom := by
  induction climbs with
  | refl => exact member
  | tail _ parent ih => exact (tree.parent_eq ih parent).1

/-- Climbing lowers the rank. -/
theorem rank_lt_of_climbs (climbs : links.Climbs node above) :
    node = above ∨ rank above < rank node := by
  induction climbs with
  | refl => exact .inl rfl
  | tail climbs parent ih =>
    have lower := (tree.parent_eq (tree.mem_of_climbs member climbs) parent).2.2
    obtain rfl | lower' := ih
    · exact .inr lower
    · exact .inr (lower.trans lower')

/-- Every node climbs to the root. -/
theorem climbs_root : links.Climbs node root :=
  tree.induction_on member .refl fun _ _ _ _ _ parent _ climbs => .head parent climbs

end

/-- The root climbs no further. -/
theorem eq_root_of_climbs (climbs : links.Climbs root above) : above = root := by
  induction climbs with
  | refl => rfl
  | tail _ parent ih =>
    rw [ih, tree.root_parent] at parent
    cases parent

/-- The nodes of the tree are the nodes that the child dictionaries lead to. -/
theorem reaches_iff : links.Reaches root node ↔ node ∈ dom := by
  constructor
  · intro reaches
    induction reaches with
    | refl => exact tree.root_mem
    | tail _ step ih =>
      obtain ⟨key, found⟩ := step
      exact (tree.of_child ih found).1
  · intro member
    refine tree.induction_on member .refl fun node member _ above _ parent _ reaches => ?_
    exact reaches.tail ⟨_, tree.child_of_parent member parent⟩

variable [DecidableEq ι]

section

include member

/-- The walk to the root ends. -/
theorem ancestors_eq_some : ∃ nodes : List ι, nodes.Nodup ∧ nodes ⊆ (dom.erase root).toList ∧
      (∀ above, above ∈ nodes ↔ above ≠ root ∧ links.Climbs node above) ∧
      ∀ fuel, nodes.length ≤ fuel → links.ancestors root fuel node = some nodes := by
  refine tree.induction_on member ?_ ?_
  · refine ⟨[], nodup_nil, nil_subset _, fun above => ?_, fun fuel _ => ?_⟩
    · simp only [not_mem_nil, false_iff, not_and]
      intro notRoot climbs
      exact notRoot (tree.eq_root_of_climbs climbs)
    · cases fuel <;> simp [Links.ancestors]
  · rintro node member isRoot parent parentMem step lower ⟨nodes, nodup, inDom, mem_iff, runs⟩
    have absent : node ∉ nodes := by
      intro inside
      have climbs := ((mem_iff node).mp inside).2
      obtain same | higher := tree.rank_lt_of_climbs parentMem climbs
      · rw [same] at lower
        exact lt_irrefl _ lower
      · exact lt_asymm lower higher
    refine ⟨node :: nodes, nodup_cons.mpr ⟨absent, nodup⟩, ?_, fun above => ?_,
      fun fuel enough => ?_⟩
    · refine cons_subset.mpr ⟨?_, inDom⟩
      simp [member, isRoot]
    · rw [mem_cons, mem_iff, climbs_iff_of_parent step]
      constructor
      · rintro (rfl | ⟨notRoot, climbs⟩)
        · exact ⟨isRoot, .inl rfl⟩
        · exact ⟨notRoot, .inr climbs⟩
      · rintro ⟨notRoot, same | climbs⟩
        · exact .inl same
        · exact .inr ⟨notRoot, climbs⟩
    · obtain ⟨fuel, rfl⟩ : ∃ less, fuel = less + 1 :=
        ⟨fuel - 1, by rw [length_cons] at enough; omega⟩
      rw [length_cons, add_le_add_iff_right] at enough
      simp [Links.ancestors, isRoot, step, runs fuel enough]

/-- With at least as much fuel as the tree has nodes, the ancestors are the nodes
other than the root that climbing reaches, each once. -/
theorem ancestors_spec :
    ∃ nodes : List ι, (∀ fuel, dom.card ≤ fuel → links.ancestors root fuel node = some nodes) ∧
      nodes.Nodup ∧ ∀ above, above ∈ nodes ↔ above ≠ root ∧ links.Climbs node above := by
  obtain ⟨nodes, nodup, inDom, mem_iff, runs⟩ := tree.ancestors_eq_some member
  refine ⟨nodes, fun fuel enough => runs fuel ?_, nodup, mem_iff⟩
  calc nodes.length ≤ (dom.erase root).toList.length := (nodup.subperm inDom).length_le
    _ = (dom.erase root).card := Finset.length_toList _
    _ ≤ dom.card := Finset.card_erase_le
    _ ≤ fuel := enough

end

/-! ### A new leaf -/

variable [DecidableEq κ]

/-- A new leaf keeps the tree. -/
theorem addLeaf (unused : fresh ∉ dom) (member : above ∈ dom)
    (vacant : links.child above key = none) (lower : rank above < rank fresh) :
    LinkedTree root (insert fresh dom) (links.addLeaf fresh above key) rank := by
  have ne_fresh {node : ι} (inside : node ∈ dom) : node ≠ fresh :=
    fun same => unused (same ▸ inside)
  refine ⟨Finset.mem_insert_of_mem tree.root_mem, ?_, ?_, ?_⟩
  · simpa [Links.addLeaf, ne_fresh tree.root_mem] using tree.root_parent
  · intro node inside notRoot
    obtain rfl | inside := Finset.mem_insert.mp inside
    · exact ⟨above, Finset.mem_insert_of_mem member, by simp [Links.addLeaf], lower⟩
    · obtain ⟨parent, parentMem, step, lower'⟩ := tree.parent_mem node inside notRoot
      exact ⟨parent, Finset.mem_insert_of_mem parentMem,
        by simpa [Links.addLeaf, ne_fresh inside] using step, lower'⟩
  · intro node inside k below
    obtain rfl | inside := Finset.mem_insert.mp inside
    · simp only [Links.addLeaf, ↓reduceIte, reduceCtorEq, false_iff, not_and, Finset.mem_insert]
      rintro (rfl | belowMem) step -
      · rw [update_self] at step
        exact unused (some.inj step ▸ member)
      · rw [update_of_ne (ne_fresh belowMem)] at step
        exact unused (tree.parent_eq belowMem step).1
    · simp only [Links.addLeaf, if_neg (ne_fresh inside), Finset.mem_insert]
      by_cases here : node = above ∧ k = key
      · obtain ⟨rfl, rfl⟩ := here
        simp only [and_self, ↓reduceIte, some.injEq]
        constructor
        · rintro rfl
          simp
        · rintro ⟨rfl | belowMem, step, label⟩
          · rfl
          · rw [update_of_ne (ne_fresh belowMem)] at step label
            have filed := tree.child_of_parent belowMem step
            rw [label, vacant] at filed
            cases filed
      · rw [if_neg here, tree.child_iff node inside]
        constructor
        · rintro ⟨belowMem, step, label⟩
          simp [ne_fresh belowMem, belowMem, step, label]
        · rintro ⟨rfl | belowMem, step, label⟩
          · rw [update_self] at step label
            exact absurd ⟨(some.inj step).symm, label.symm⟩ here
          · rw [update_of_ne (ne_fresh belowMem)] at step label
            exact ⟨belowMem, step, label⟩

/-- The old nodes climb as before. -/
theorem climbs_addLeaf (unused : fresh ∉ dom) {target : ι} (member : node ∈ dom) :
    (links.addLeaf fresh above key).Climbs node target ↔ links.Climbs node target := by
  have same {x : ι} (inside : x ∈ dom) : (links.addLeaf fresh above key).parent x =
      links.parent x :=
    update_of_ne (by rintro rfl; exact unused inside) _ _
  constructor
  · intro climbs
    suffices links.Climbs node target ∧ target ∈ dom from this.1
    induction climbs with
    | refl => exact ⟨.refl, member⟩
    | tail _ step ih =>
      rw [same ih.2] at step
      exact ⟨ih.1.tail step, (tree.parent_eq ih.2 step).1⟩
  · intro climbs
    induction climbs with
    | refl => exact .refl
    | tail climbs step ih => exact ih.tail ((same (tree.mem_of_climbs member climbs)).trans step)

/-! ### Splicing a node in -/

/-- A spliced node keeps the tree. -/
theorem splice (unused : fresh ∉ dom) (member : below ∈ dom)
    (parent : links.parent below = some above) (lower : rank above < rank fresh)
    (higher : rank fresh < rank below) :
    LinkedTree root (insert fresh dom) (links.splice fresh below key) rank := by
  have ne_fresh {node : ι} (inside : node ∈ dom) : node ≠ fresh :=
    fun same => unused (same ▸ inside)
  obtain ⟨aboveMem, belowNotRoot, -⟩ := tree.parent_eq member parent
  have belowNe : below ≠ fresh := ne_fresh member
  have freshNe : fresh ≠ below := belowNe.symm
  refine ⟨Finset.mem_insert_of_mem tree.root_mem, ?_, ?_, ?_⟩
  · simpa [Links.splice, ne_fresh tree.root_mem, belowNotRoot.symm] using tree.root_parent
  · intro node inside notRoot
    obtain rfl | inside := Finset.mem_insert.mp inside
    · exact ⟨above, Finset.mem_insert_of_mem aboveMem,
        by simpa [Links.splice, freshNe] using parent, lower⟩
    · by_cases isBelow : node = below
      · exact ⟨fresh, Finset.mem_insert_self _ _, by simp [Links.splice, isBelow], isBelow ▸ higher⟩
      · obtain ⟨parent', parentMem, step, lower'⟩ := tree.parent_mem node inside notRoot
        exact ⟨parent', Finset.mem_insert_of_mem parentMem,
          by simpa [Links.splice, ne_fresh inside, isBelow] using step, lower'⟩
  · intro node inside k target
    obtain rfl | inside := Finset.mem_insert.mp inside
    · have only : (links.splice node below key).parent target = some node →
          target ∈ insert node dom → target = below := by
        intro step targetMem
        by_contra different
        obtain rfl | targetMem := Finset.mem_insert.mp targetMem
        · simp only [Links.splice, update_of_ne different, update_self, parent] at step
          exact unused (some.inj step ▸ aboveMem)
        · simp only [Links.splice, update_of_ne different,
            update_of_ne (ne_fresh targetMem)] at step
          exact unused (tree.parent_eq targetMem step).1
      constructor
      · intro found
        simp only [Links.splice, ↓reduceIte] at found
        split at found
        next same =>
          cases found
          simp [Links.splice, member, same]
        · cases found
      · rintro ⟨targetMem, step, label⟩
        have same := only step targetMem
        subst same
        simp only [Links.splice, update_self] at label
        simp [Links.splice, label]
    · simp only [Links.splice, if_neg (ne_fresh inside), parent, some.injEq,
        Finset.mem_insert]
      by_cases here : above = node ∧ k = links.label below
      · obtain ⟨rfl, rfl⟩ := here
        simp only [and_self, ↓reduceIte, some.injEq]
        constructor
        · rintro rfl
          simp [freshNe]
        · rintro ⟨rfl | targetMem, step, label⟩
          · rfl
          · by_cases isBelow : target = below
            · subst isBelow
              rw [update_self] at step
              exact absurd (some.inj step).symm (ne_fresh inside)
            · rw [update_of_ne isBelow, update_of_ne (ne_fresh targetMem)]
                at step label
              have filed := tree.child_of_parent targetMem step
              rw [label, tree.child_of_parent member parent] at filed
              exact absurd (some.inj filed).symm isBelow
      · rw [if_neg here, tree.child_iff node inside]
        constructor
        · rintro ⟨targetMem, step, label⟩
          have isBelow : target ≠ below := by
            rintro rfl
            rw [parent] at step
            exact here ⟨some.inj step, label.symm⟩
          simp [ne_fresh targetMem, targetMem, step, label, isBelow]
        · rintro ⟨rfl | targetMem, step, label⟩
          · rw [update_of_ne freshNe, update_self] at step label
            exact absurd ⟨some.inj step, label.symm⟩ here
          · by_cases isBelow : target = below
            · subst isBelow
              rw [update_self] at step
              exact absurd (some.inj step).symm (ne_fresh inside)
            · rw [update_of_ne isBelow, update_of_ne (ne_fresh targetMem)]
                at step label
              exact ⟨targetMem, step, label⟩

/-- The spliced node is above exactly the nodes that `below` is above. -/
theorem climbs_splice (unused : fresh ∉ dom) (member : below ∈ dom)
    (parent : links.parent below = some above) {target : ι} (inside : node ∈ dom) :
    (links.splice fresh below key).Climbs node target ↔
      links.Climbs node target ∨ target = fresh ∧ links.Climbs node below := by
  have ne_fresh {x : ι} (inside : x ∈ dom) : x ≠ fresh := fun same => unused (same ▸ inside)
  have atBelow : (links.splice fresh below key).parent below = some fresh := by simp [Links.splice]
  have atFresh : (links.splice fresh below key).parent fresh = some above := by
    simpa [Links.splice, (ne_fresh member).symm] using parent
  have elsewhere {x : ι} (inside : x ∈ dom) (different : x ≠ below) :
      (links.splice fresh below key).parent x = links.parent x := by
    simp [Links.splice, different, ne_fresh inside]
  have keep {x : ι} (climbs : links.Climbs node x) :
      (links.splice fresh below key).Climbs node x := by
    induction climbs with
    | refl => exact .refl
    | @tail x y climbs step ih =>
      by_cases isBelow : x = below
      · subst isBelow
        rw [parent] at step
        cases step
        exact (ih.tail atBelow).tail atFresh
      · exact ih.tail ((elsewhere (tree.mem_of_climbs inside climbs) isBelow).trans step)
  constructor
  · intro climbs
    induction climbs with
    | refl => exact .inl .refl
    | @tail x y _ step ih =>
      obtain climbs | ⟨rfl, climbs⟩ := ih
      · by_cases isBelow : x = below
        · subst isBelow
          rw [atBelow] at step
          exact .inr ⟨(some.inj step).symm, climbs⟩
        · rw [elsewhere (tree.mem_of_climbs inside climbs) isBelow] at step
          exact .inl (climbs.tail step)
      · rw [atFresh] at step
        exact .inl (climbs.tail (parent.trans step))
  · rintro (climbs | ⟨rfl, climbs⟩)
    · exact keep climbs
    · exact (keep climbs).tail atBelow

/-! ### Removing a leaf -/

/-- Removing a leaf keeps the tree. -/
theorem removeLeaf {leaf : ι} (member : leaf ∈ dom) (notRoot : leaf ≠ root)
    (childless : ∀ key, links.child leaf key = none) :
    LinkedTree root (dom.erase leaf) (links.removeLeaf leaf) rank := by
  have notParent {node : ι} (inside : node ∈ dom) : links.parent node ≠ some leaf := by
    intro step
    have filed := tree.child_of_parent inside step
    rw [childless] at filed
    cases filed
  refine ⟨Finset.mem_erase.mpr ⟨notRoot.symm, tree.root_mem⟩, tree.root_parent, ?_, ?_⟩
  · intro node kept nodeNotRoot
    have inside := Finset.mem_of_mem_erase kept
    obtain ⟨above, aboveMem, step, lower⟩ := tree.parent_mem node inside nodeNotRoot
    refine ⟨above, Finset.mem_erase.mpr ⟨?_, aboveMem⟩, step, lower⟩
    rintro rfl
    exact notParent inside step
  · intro node inside key below
    obtain ⟨-, inside⟩ := Finset.mem_erase.mp inside
    simp only [Links.removeLeaf, Finset.mem_erase]
    by_cases here : links.parent leaf = some node ∧ key = links.label leaf
    · obtain ⟨step, rfl⟩ := here
      simp only [step, and_self, ↓reduceIte, reduceCtorEq, false_iff, not_and]
      rintro ⟨different, belowMem⟩ step' label
      have filed := tree.child_of_parent belowMem step'
      rw [label, tree.child_of_parent member step] at filed
      exact different (some.inj filed).symm
    · rw [if_neg here, tree.child_iff node inside]
      constructor
      · rintro ⟨belowMem, step, label⟩
        refine ⟨⟨?_, belowMem⟩, step, label⟩
        rintro rfl
        exact here ⟨step, label.symm⟩
      · rintro ⟨⟨-, belowMem⟩, step, label⟩
        exact ⟨belowMem, step, label⟩

end LinkedTree

end AvaServe.Foundation
