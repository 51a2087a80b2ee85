import Mathlib

/-!
# Page arithmetic

Token counts rounded up to whole pages, for integers and for natural numbers.
The integer version follows floor division towards minus infinity, so it is
meaningful for negative counts too. A slot of a paged pool is a page and an
offset in it.
-/

namespace AvaServe.Foundation

/-- The number of pages that `tokens` tokens fill, rounded up. -/
def ceilPages (pageSize : ℕ) (tokens : ℤ) : ℤ := -(-tokens / pageSize)

variable {pageSize : ℕ}

section

variable (positive : 0 < pageSize)
include positive

/-- Rounded up to whole pages, a count covers its tokens. -/
theorem le_ceilPages_mul (tokens : ℤ) : tokens ≤ ceilPages pageSize tokens * pageSize := by
  have := Int.ediv_mul_le (-tokens) (b := pageSize) (by omega)
  unfold ceilPages
  rw [neg_mul]
  omega

/-- Rounding up adds less than one page. -/
theorem ceilPages_mul_lt (tokens : ℤ) :
    ceilPages pageSize tokens * pageSize < tokens + pageSize := by
  have := Int.lt_ediv_add_one_mul_self (-tokens) (b := pageSize) (by omega)
  unfold ceilPages
  rw [neg_mul]
  rw [add_mul] at this
  omega

/-- A count fits into a number of pages exactly when its rounding does. -/
theorem ceilPages_le_iff {tokens pages : ℤ} :
    ceilPages pageSize tokens ≤ pages ↔ tokens ≤ pages * pageSize := by
  unfold ceilPages
  rw [neg_le, Int.le_ediv_iff_mul_le (by omega), neg_mul, neg_le_neg_iff]

/-- Rounding up is monotone. -/
theorem ceilPages_mono {first second : ℤ} (le : first ≤ second) :
    ceilPages pageSize first ≤ ceilPages pageSize second := by
  rw [ceilPages_le_iff positive]
  exact le.trans (le_ceilPages_mul positive second)

/-- The pages between two positions are at most the pages of their distance. -/
theorem ceilPages_sub_le (start finish : ℤ) : ceilPages pageSize finish - ceilPages pageSize start ≤
      ceilPages pageSize (finish - start) := by
  rw [sub_le_iff_le_add, ceilPages_le_iff positive, add_mul]
  have first := le_ceilPages_mul positive (finish - start)
  have second := le_ceilPages_mul positive start
  omega

/-- One token takes one page. -/
theorem ceilPages_one : ceilPages pageSize 1 = 1 := by
  refine le_antisymm ((ceilPages_le_iff positive).mpr (by omega)) ?_
  by_contra smaller
  have none : ceilPages pageSize 1 ≤ 0 := by omega
  rw [ceilPages_le_iff positive] at none
  omega

end

/-- No tokens, no pages. -/
theorem ceilPages_zero (pageSize : ℕ) : ceilPages pageSize 0 = 0 := by simp [ceilPages]

/-- Whole pages stay. -/
theorem ceilPages_mul_self (positive : 0 < pageSize) (pages : ℤ) :
    ceilPages pageSize (pages * pageSize) = pages := by
  unfold ceilPages
  rw [← neg_mul, Int.mul_ediv_cancel _ (by omega), neg_neg]

/-- The page of a slot given by its page and offset. -/
theorem slot_div {offset : ℕ} (inside : offset < pageSize) (page : ℕ) :
    (page * pageSize + offset) / pageSize = page := by
  rw [add_comm, Nat.add_mul_div_right _ _ (Nat.zero_lt_of_lt inside),
    Nat.div_eq_of_lt inside, zero_add]

/-- The offset of a slot given by its page and offset. -/
theorem slot_mod {offset : ℕ} (inside : offset < pageSize) (page : ℕ) :
    (page * pageSize + offset) % pageSize = offset := by
  rw [Nat.mul_add_mod_self_right, Nat.mod_eq_of_lt inside]

/-- The number of pages that `tokens` tokens fill, rounded up. -/
def pageCount (pageSize tokens : ℕ) : ℕ := (tokens + pageSize - 1) / pageSize

section

variable (positive : 0 < pageSize)
include positive

variable {tokens : ℕ}

/-- A page is used if a token is on it. -/
theorem lt_pageCount_iff {page : ℕ} :
    page < pageCount pageSize tokens ↔ page * pageSize < tokens := by
  unfold pageCount
  rw [Nat.lt_iff_add_one_le, Nat.le_div_iff_mul_le positive, add_mul]
  omega

/-- The pages suffice for the tokens. -/
theorem pageCount_le_iff {pages : ℕ} :
    pageCount pageSize tokens ≤ pages ↔ tokens ≤ pages * pageSize := by
  rw [← not_lt, lt_pageCount_iff positive, not_lt]

/-- The pages of a sequence cover it. -/
theorem le_pageCount_mul (tokens : ℕ) : tokens ≤ pageCount pageSize tokens * pageSize :=
  (pageCount_le_iff positive).mp le_rfl

/-- No tokens, no pages. -/
theorem pageCount_zero : pageCount pageSize 0 = 0 :=
  Nat.le_zero.mp ((pageCount_le_iff positive).mpr (Nat.zero_le _))

/-- More tokens need no fewer pages. -/
theorem pageCount_mono {first second : ℕ} (le : first ≤ second) :
    pageCount pageSize first ≤ pageCount pageSize second :=
  (pageCount_le_iff positive).mpr (le.trans (le_pageCount_mul positive second))

/-- Whole pages stay. -/
theorem pageCount_mul (pages : ℕ) : pageCount pageSize (pages * pageSize) = pages := by
  refine le_antisymm ((pageCount_le_iff positive).mpr le_rfl) ?_
  rw [← Nat.mul_le_mul_right_iff positive]
  exact le_pageCount_mul positive _

/-- A whole number of pages is not rounded. -/
theorem pageCount_mul_of_dvd (aligned : pageSize ∣ tokens) :
    pageCount pageSize tokens * pageSize = tokens := by
  obtain ⟨pages, rfl⟩ := aligned
  rw [mul_comm pageSize pages, pageCount_mul positive]

/-- The page of a position, counted from the first page after `tokens` tokens. -/
theorem pageCount_le_div_iff {position : ℕ} : pageCount pageSize tokens ≤ position / pageSize ↔
      pageCount pageSize tokens * pageSize ≤ position :=
  Nat.le_div_iff_mul_le positive

/-- A position is on a counted page. -/
theorem div_lt_pageCount {position : ℕ} (inside : position < tokens) :
    position / pageSize < pageCount pageSize tokens :=
  (lt_pageCount_iff positive).mpr ((Nat.div_mul_le_self position pageSize).trans_lt inside)

/-- A sequence that ends inside a page fills one page more than its whole ones. -/
theorem pageCount_of_mod_pos (cut : 0 < tokens % pageSize) :
    pageCount pageSize tokens = tokens / pageSize + 1 := by
  have split := Nat.div_add_mod' tokens pageSize
  have small := Nat.mod_lt tokens positive
  refine le_antisymm ((pageCount_le_iff positive).mpr ?_) ((lt_pageCount_iff positive).mpr ?_)
  · rw [add_mul]
    omega
  · omega

/-- The last page is filled up. -/
theorem pageCount_mul_of_mod_pos (cut : 0 < tokens % pageSize) :
    pageCount pageSize tokens * pageSize = tokens + (pageSize - tokens % pageSize) := by
  have split := Nat.div_add_mod' tokens pageSize
  have small := Nat.mod_lt tokens positive
  rw [pageCount_of_mod_pos positive cut, add_mul]
  omega

/-- One more token takes a new page exactly from a page boundary on. -/
theorem pageCount_succ (tokens : ℕ) : pageCount pageSize (tokens + 1) =
      pageCount pageSize tokens + if tokens % pageSize = 0 then 1 else 0 := by
  have covered := le_pageCount_mul positive tokens
  split
  next aligned =>
    have exactly := pageCount_mul_of_dvd positive (Nat.dvd_of_mod_eq_zero aligned)
    refine le_antisymm ((pageCount_le_iff positive).mpr ?_) ((lt_pageCount_iff positive).mpr ?_)
    · rw [add_mul]
      omega
    · omega
  next inside =>
    have different : tokens ≠ pageCount pageSize tokens * pageSize := by
      intro same
      rw [same, Nat.mul_mod_left] at inside
      exact inside rfl
    have fits : tokens + 1 ≤ pageCount pageSize tokens * pageSize := by omega
    exact le_antisymm ((pageCount_le_iff positive).mpr fits)
      (pageCount_mono positive (Nat.le_succ _))

end

/-! ### Slots of pages -/

/-- The slots of whole pages. -/
def pageSlots (pageSize : ℕ) (pages : List ℕ) : List ℕ :=
  pages.flatMap fun page => (List.range pageSize).map fun offset => page * pageSize + offset

/-- The slots of the first pages. -/
theorem pageSlots_range (pageSize count : ℕ) :
    pageSlots pageSize (List.range count) = List.range (count * pageSize) := by
  induction count with
  | zero => simp [pageSlots]
  | succ count ih =>
    rw [pageSlots, List.range_succ, List.flatMap_append, ← pageSlots, ih, Nat.succ_mul,
      List.range_add]
    simp

/-- The slot of a position in some pages. -/
def slotAt (pageSize : ℕ) (pages : List ℕ) (i : ℕ) : ℕ :=
  pages.getD (i / pageSize) 0 * pageSize + i % pageSize

/-- A slot on a page. -/
theorem slotAt_add {offset : ℕ} (inside : offset < pageSize) (pages : List ℕ) (page : ℕ) :
    slotAt pageSize pages (page * pageSize + offset) = pages.getD page 0 * pageSize + offset := by
  rw [slotAt, slot_div inside, slot_mod inside]

/-- The slots in order. -/
theorem pageSlots_eq_map (pageSize : ℕ) (pages : List ℕ) : pageSlots pageSize pages =
      (List.range (pages.length * pageSize)).map (slotAt pageSize pages) := by
  have listed : pages = (List.range pages.length).map fun i => pages.getD i 0 := by
    refine List.ext_getElem (by simp) fun i here _ => ?_
    simp [here]
  rw [← pageSlots_range, pageSlots, pageSlots, List.map_flatMap]
  conv_lhs => rw [listed, List.flatMap_map]
  refine List.flatMap_congr fun page _ => ?_
  rw [List.map_map]
  refine List.map_congr_left fun offset member => ?_
  rw [Function.comp_apply, slotAt_add (List.mem_range.mp member)]

/-- Every page has all its slots. -/
theorem length_pageSlots (pageSize : ℕ) (pages : List ℕ) :
    (pageSlots pageSize pages).length = pages.length * pageSize := by
  simp [pageSlots]

/-- Pages add their slots. -/
theorem pageSlots_append (pageSize : ℕ) (first second : List ℕ) :
    pageSlots pageSize (first ++ second) = pageSlots pageSize first ++ pageSlots pageSize second :=
  List.flatMap_append

/-- A slot is on its page. -/
theorem mem_pageSlots (positive : 0 < pageSize) {pages : List ℕ} {slot : ℕ} :
    slot ∈ pageSlots pageSize pages ↔ slot / pageSize ∈ pages := by
  simp only [pageSlots, List.mem_flatMap, List.mem_map, List.mem_range]
  constructor
  · rintro ⟨page, member, offset, inside, rfl⟩
    rwa [slot_div inside]
  · intro member
    exact ⟨_, member, _, Nat.mod_lt _ positive, Nat.div_add_mod' _ _⟩

/-- Distinct pages have distinct slots. -/
theorem nodup_pageSlots {pages : List ℕ} (nodup : pages.Nodup) :
    (pageSlots pageSize pages).Nodup := by
  refine List.nodup_flatMap.mpr ⟨fun page _ => List.nodup_range.map fun _ _ => add_left_cancel,
    nodup.imp fun {first second} different slot inFirst inSecond => different ?_⟩
  obtain ⟨offset, inside, rfl⟩ := List.mem_map.mp inFirst
  obtain ⟨offset', inside', same⟩ := List.mem_map.mp inSecond
  rw [← slot_div (List.mem_range.mp inside) first, ← same, slot_div (List.mem_range.mp inside')]

end AvaServe.Foundation
