import Mathlib

/-!
# The best elements of a list

`best key count items` lists the `count` elements with the largest keys, the
largest first. When no two keys coincide, an element is among the best exactly
when fewer than `count` elements have a larger key. A list cut into groups
therefore keeps its best elements when each group is first cut down to its own
best ones.
-/

namespace AvaServe.Foundation

open List

variable {α β Score : Type*} [LinearOrder Score]

/-- The elements by descending key. -/
def ranked (key : α → Score) (items : List α) : List α :=
  items.insertionSort fun left right => key right ≤ key left

/-- The `count` elements with the largest keys, the largest first. -/
def best (key : α → Score) (count : ℕ) (items : List α) : List α := (ranked key items).take count

variable {key : α → Score} {count : ℕ} {items : List α}

/-- Ranking permutes. -/
theorem ranked_perm (key : α → Score) (items : List α) : (ranked key items).Perm items :=
  perm_insertionSort _ _

/-- It is by falling key. -/
theorem ranked_pairwise (key : α → Score) (items : List α) :
    (ranked key items).Pairwise fun left right => key right ≤ key left := by
  exact pairwise_insertionSort _ items

/-- It commutes with a monotone map. -/
theorem ranked_map {other : β → Score} (convert : α → β)
    (monotone : ∀ left ∈ items, ∀ right ∈ items,
      other (convert left) ≤ other (convert right) ↔ key left ≤ key right) :
    ranked other (items.map convert) = (ranked key items).map convert := by
  refine (map_insertionSort _ _ _ _ fun left leftMem right rightMem => ?_).symm
  exact (monotone right rightMem left leftMem).symm

/-- So does the choice of the best. -/
theorem best_map {other : β → Score} (convert : α → β)
    (monotone : ∀ left ∈ items, ∀ right ∈ items,
      other (convert left) ≤ other (convert right) ↔ key left ≤ key right) :
    best other count (items.map convert) = (best key count items).map convert := by
  rw [best, ranked_map convert monotone, best, map_take]

/-- The best are items. -/
theorem best_subset : best key count items ⊆ items := fun _ member =>
  (ranked_perm key items).mem_iff.mp (mem_of_mem_take member)

/-- There are as many as asked for. -/
theorem length_best : (best key count items).length = min count items.length := by
  rw [best, length_take, (ranked_perm key items).length_eq]

section Distinct

variable (distinct : (items.map key).Nodup)

include distinct in
/-- Distinct keys fall strictly. -/
theorem ranked_strict : (ranked key items).Pairwise fun left right => key right < key left := by
  have apart : ((ranked key items).map key).Nodup :=
    ((ranked_perm key items).map key).nodup_iff.mpr distinct
  refine ((ranked_pairwise key items).and (pairwise_map.mp apart)).imp ?_
  rintro left right ⟨below, different⟩
  exact lt_of_le_of_ne below (Ne.symm different)

/-- In a strictly descending list the position of an element is the number of
elements with a larger key. -/
theorem mem_take_iff_countP {descending : List α}
    (strict : descending.Pairwise fun left right => key right < key left) (count : ℕ) (item : α) :
    item ∈ descending.take count ↔ item ∈ descending ∧
      descending.countP (fun other => decide (key item < key other)) < count := by
  induction descending generalizing count with
  | nil => simp
  | cons first rest ih =>
    obtain ⟨above, strict⟩ := pairwise_cons.mp strict
    cases count with
    | zero => simp
    | succ count =>
      have firstAhead : item = first →
          rest.countP (fun other => decide (key item < key other)) = 0 := by
        rintro rfl
        refine countP_eq_zero.mpr fun other member => ?_
        simpa using (above other member).le
      simp only [take_succ_cons, mem_cons, ih strict count, countP_cons]
      constructor
      · rintro (same | ⟨member, ahead⟩)
        · rw [firstAhead same, same]
          simp
        · refine ⟨.inr member, ?_⟩
          split <;> omega
      · rintro ⟨same | member, ahead⟩
        · exact .inl same
        · refine .inr ⟨member, ?_⟩
          simp only [above item member, decide_true, if_true] at ahead
          omega

include distinct in
/-- The best have few above them. -/
theorem mem_best_iff (item : α) : item ∈ best key count items ↔
      item ∈ items ∧ items.countP (fun other => decide (key item < key other)) < count := by
  rw [best, mem_take_iff_countP (ranked_strict distinct), (ranked_perm key items).mem_iff,
    (ranked_perm key items).countP_eq]

include distinct in
/-- Their keys fall strictly. -/
theorem best_strict : (best key count items).Pairwise fun left right => key right < key left :=
  (ranked_strict distinct).sublist (take_sublist _ _)

/-- Two strictly descending lists with the same elements are equal. -/
theorem eq_of_strict {left right : List α}
    (leftStrict : left.Pairwise fun first second => key second < key first)
    (rightStrict : right.Pairwise fun first second => key second < key first)
    (same : ∀ item, item ∈ left ↔ item ∈ right) : left = right := by
  have leftNodup : left.Nodup := leftStrict.imp fun below => ne_of_apply_ne key below.ne'
  have rightNodup : right.Nodup := rightStrict.imp fun below => ne_of_apply_ne key below.ne'
  refine ((perm_ext_iff_of_nodup leftNodup rightNodup).mpr same).eq_of_pairwise ?_
    leftStrict rightStrict
  intro first second _ _ below above
  exact absurd below above.not_gt

include distinct in
/-- Dropping elements that are not among the best changes nothing, as long as
every one of the best is kept. -/
theorem best_of_subperm {kept : List α} (inside : kept.Subperm items)
    (keeps : best key count items ⊆ kept) : best key count kept = best key count items := by
  have keptDistinct : (kept.map key).Nodup := by
    obtain ⟨part, perm, sublist⟩ := inside
    exact (perm.map key).nodup_iff.mp (distinct.sublist (sublist.map key))
  refine eq_of_strict (best_strict keptDistinct) (best_strict distinct) fun item => ?_
  rw [mem_best_iff keptDistinct]
  constructor
  · rintro ⟨member, fewer⟩
    have present : item ∈ items := inside.subset member
    refine (mem_best_iff distinct item).mpr ⟨present, ?_⟩
    by_contra! many
    -- all of the best elements are ahead of `item`, and all of them are kept
    have ahead : best key count items ⊆
        kept.filter fun other => decide (key item < key other) := by
      intro other otherBest
      refine mem_filter.mpr ⟨keeps otherBest, decide_eq_true ?_⟩
      by_contra! below
      have larger := ((mem_best_iff distinct other).mp otherBest).2
      have least : items.countP (fun third => decide (key item < key third)) ≤
          items.countP fun third => decide (key other < key third) :=
        countP_mono_left fun third _ third_ahead => by
          simp only [decide_eq_true_eq] at third_ahead ⊢
          exact below.trans_lt third_ahead
      omega
    have bestNodup : (best key count items).Nodup :=
      (best_strict distinct).imp fun below => ne_of_apply_ne key below.ne'
    have long := (bestNodup.subperm ahead).length_le
    rw [length_best, ← countP_eq_length_filter] at long
    have bound := countP_le_length (p := fun other => decide (key item < key other))
      (l := items)
    omega
  · intro member
    refine ⟨keeps member, lt_of_le_of_lt ?_ ((mem_best_iff distinct item).mp member).2⟩
    exact inside.countP_le _

/-- The best elements of a grouped list are found among the best elements of
the groups. -/
theorem best_flatten_best {groups : List (List α)} {width : ℕ}
    (distinct : (groups.flatten.map key).Nodup) (enough : count ≤ width) :
    best key count (groups.map (best key width)).flatten = best key count groups.flatten := by
  refine best_of_subperm distinct ?_ ?_
  · clear distinct
    induction groups with
    | nil => exact .refl _
    | cons group groups ih =>
      refine Subperm.append ?_ ih
      exact (take_sublist _ _).subperm.trans (ranked_perm key group).subperm
  · intro item member
    obtain ⟨present, fewer⟩ := (mem_best_iff distinct item).mp member
    obtain ⟨group, groupMem, inGroup⟩ := mem_flatten.mp present
    have part : group.Sublist groups.flatten := sublist_flatten_of_mem groupMem
    refine mem_flatten.mpr ⟨_, mem_map_of_mem groupMem, ?_⟩
    refine (mem_best_iff (distinct.sublist (part.map key)) item).mpr ⟨inGroup, ?_⟩
    exact part.countP_le.trans_lt (fewer.trans_le enough)

end Distinct

end AvaServe.Foundation
