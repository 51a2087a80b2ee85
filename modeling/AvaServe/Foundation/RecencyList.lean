import Mathlib

/-!
# Recency lists

A list kept in the order of last use: a used element moves to the front. Moving
the elements of a path one by one, the last first, leaves the path in its own
order in front of everything else.
-/

namespace AvaServe.Foundation

open List

variable {α : Type*} [DecidableEq α]

/-- Move an element to the front. -/
def moveToFront (element : α) (elements : List α) : List α := element :: elements.erase element

/-- Moving to the front permutes. -/
theorem moveToFront_perm {element : α} {elements : List α} (member : element ∈ elements) :
    (moveToFront element elements).Perm elements :=
  (perm_cons_erase member).symm

/-- A path comes to the front in order. -/
theorem foldr_moveToFront {path elements : List α} (distinct : path.Nodup)
    (nodup : elements.Nodup) :
    path.foldr moveToFront elements =
      path ++ elements.filter fun other => decide (other ∉ path) := by
  induction path with
  | nil => simp
  | cons first rest ih =>
    obtain ⟨absent, distinct⟩ := nodup_cons.mp distinct
    rw [foldr_cons, ih distinct, moveToFront, erase_append_right _ absent,
      (nodup.filter _).erase_eq_filter, filter_filter]
    simp only [mem_cons, not_or, Bool.decide_and, decide_not]
    rfl

/-- So it permutes. -/
theorem foldr_moveToFront_perm {path elements : List α} (inside : path ⊆ elements) :
    (path.foldr moveToFront elements).Perm elements := by
  induction path with
  | nil => exact Perm.refl _
  | cons first rest ih =>
    obtain ⟨member, inside⟩ := cons_subset.mp inside
    have earlier := ih inside
    exact (moveToFront_perm (earlier.mem_iff.mpr member)).trans earlier

end AvaServe.Foundation
