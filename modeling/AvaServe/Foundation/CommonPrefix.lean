import Mathlib

/-!
# Common prefixes

The length of the longest common prefix of two lists, and its value rounded down
to a whole number of pages. A bound on either is the same as agreement of the
lists up to that bound, which is how every search over keys is specified.
-/

namespace AvaServe.Foundation

variable {α : Type*} [DecidableEq α]

/-- Number of leading positions on which two lists agree. -/
def commonPrefix : List α → List α → ℕ
  | x :: left, y :: right => if x = y then commonPrefix left right + 1 else 0
  | _, _ => 0

/-- The common prefix, rounded down to whole pages. -/
def alignedPrefix (pageSize : ℕ) (left right : List α) : ℕ :=
  commonPrefix left right / pageSize * pageSize

/-- A length is within the common prefix iff the lists agree up to it. -/
theorem le_commonPrefix_iff {left right : List α} {bound : ℕ} : bound ≤ commonPrefix left right ↔
      bound ≤ left.length ∧ bound ≤ right.length ∧ left.take bound = right.take bound := by
  induction left generalizing right bound with
  | nil => cases bound <;> simp [commonPrefix]
  | cons x left ih =>
    cases right with
    | nil => cases bound <;> simp [commonPrefix]
    | cons y right =>
      cases bound with
      | zero => simp
      | succ bound =>
        unfold commonPrefix
        by_cases same : x = y
        · rw [if_pos same, add_le_add_iff_right, ih]
          simp [same]
        · simp [same]

/-- It is no longer than the left. -/
theorem commonPrefix_le_left (left right : List α) : commonPrefix left right ≤ left.length :=
  (le_commonPrefix_iff.mp le_rfl).1

/-- Nor than the right. -/
theorem commonPrefix_le_right (left right : List α) : commonPrefix left right ≤ right.length :=
  (le_commonPrefix_iff.mp le_rfl).2.1

/-- Two lists that agree up to `start` agree on a further slice iff the common
prefix reaches its end. -/
theorem slice_eq_iff {left right : List α} {start stop : ℕ}
    (agree : start ≤ commonPrefix left right) (ordered : start ≤ stop) (inLeft : stop ≤ left.length)
    (inRight : stop ≤ right.length) : (left.take stop).drop start = (right.take stop).drop start ↔
      stop ≤ commonPrefix left right := by
  obtain ⟨-, -, before⟩ := le_commonPrefix_iff.mp agree
  have split (l : List α) : l.take stop = l.take start ++ (l.take stop).drop start := by
    conv_lhs => rw [← List.take_append_drop start (l.take stop)]
    rw [List.take_take, min_eq_left ordered]
  constructor
  · intro same
    refine le_commonPrefix_iff.mpr ⟨inLeft, inRight, ?_⟩
    rw [split left, split right, before, same]
  · intro reached
    rw [(le_commonPrefix_iff.mp reached).2.2]

/-- A shared front counts in full. -/
theorem commonPrefix_append (front left right : List α) :
    commonPrefix (front ++ left) (front ++ right) = front.length + commonPrefix left right := by
  induction front with
  | nil => simp
  | cons x front ih =>
    simp only [List.cons_append, commonPrefix, ↓reduceIte, List.length_cons]
    omega

/-- Cutting cuts it. -/
theorem commonPrefix_take (bound bound' : ℕ) (left right : List α) :
    commonPrefix (left.take bound) (right.take bound') =
      min (commonPrefix left right) (min bound bound') := by
  apply eq_of_forall_le_iff
  intro length
  simp only [le_min_iff, le_commonPrefix_iff, List.length_take, List.take_take]
  constructor
  · rintro ⟨⟨inLeft, short⟩, ⟨inRight, short'⟩, same⟩
    rw [min_eq_left inLeft, min_eq_left inRight] at same
    exact ⟨⟨short, short', same⟩, inLeft, inRight⟩
  · rintro ⟨⟨short, short', same⟩, inLeft, inRight⟩
    rw [min_eq_left inLeft, min_eq_left inRight]
    exact ⟨⟨inLeft, short⟩, ⟨inRight, short'⟩, same⟩

section Aligned

variable {pageSize : ℕ}

/-- It is whole pages. -/
theorem dvd_alignedPrefix (left right : List α) : pageSize ∣ alignedPrefix pageSize left right :=
  Dvd.intro_left _ rfl

/-- It is no longer than the agreement. -/
theorem alignedPrefix_le (left right : List α) :
    alignedPrefix pageSize left right ≤ commonPrefix left right :=
  Nat.div_mul_le_self _ _

/-- Among whole numbers of pages, the aligned prefix bounds exactly what the
common prefix bounds. -/
theorem le_alignedPrefix_iff (positive : 0 < pageSize) {left right : List α} {bound : ℕ}
    (whole : pageSize ∣ bound) :
    bound ≤ alignedPrefix pageSize left right ↔ bound ≤ commonPrefix left right := by
  obtain ⟨pages, rfl⟩ := whole
  unfold alignedPrefix
  rw [mul_comm pageSize pages, Nat.mul_le_mul_right_iff positive, Nat.le_div_iff_mul_le positive]

end Aligned

end AvaServe.Foundation
