import Mathlib
import AvaServe.Memory.PoolAllocator

/-!
# Freeing segments of a row

A paged pool frees segments of a request's row without looking at the slots in between:
it picks one slot in each page that a segment enters, and trims the page that a segment
shares with the one before it. On a row whose positions lie in one pool page exactly when
they lie in one page of the row, the picked slots name the distinct pages of all segments.
-/

namespace AvaServe.Memory

open Foundation List

variable {pageSize : ℕ} {row : List ℕ} {start stop : ℕ} {bounds : List (ℕ × ℕ)}

/-- Two positions of the row lie in one page of the pool exactly when they lie in one page
of the row. -/
def PagedRow (pageSize : ℕ) (row : List ℕ) : Prop :=
  ∀ i < row.length, ∀ j < row.length,
    row.getD i 0 / pageSize = row.getD j 0 / pageSize ↔ i / pageSize = j / pageSize

/-- `row[start:stop]` with its position. -/
def rowSegment (row : List ℕ) (bound : ℕ × ℕ) : List ℕ × ℕ :=
  ((row.take bound.2).drop bound.1, bound.1)

/-- The pool page of a page of the row. -/
def poolPage (pageSize : ℕ) (row : List ℕ) (page : ℕ) : ℕ := row.getD (page * pageSize) 0 / pageSize

/-- The length of a segment. -/
theorem length_rowSegment (row : List ℕ) (bound : ℕ × ℕ) :
    (rowSegment row bound).1.length = min bound.2 row.length - bound.1 := by
  simp [rowSegment]

/-- Its entries are those of the row. -/
theorem getD_rowSegment {bound : ℕ × ℕ} {i : ℕ} (inside : bound.1 + i < bound.2) :
    (rowSegment row bound).1.getD i 0 = row.getD (bound.1 + i) 0 := by
  simp [rowSegment, inside]

/-- Its rest is a segment. -/
theorem drop_rowSegment (row : List ℕ) (start stop count : ℕ) :
    (rowSegment row (start, stop)).1.drop count = (rowSegment row (start + count, stop)).1 := by
  simp [rowSegment]

/-- Its members are in the row. -/
theorem mem_rowSegment {bound : ℕ × ℕ} {slot : ℕ} : slot ∈ (rowSegment row bound).1 ↔
      ∃ p, bound.1 ≤ p ∧ p < min bound.2 row.length ∧ row.getD p 0 = slot := by
  rw [mem_iff_getElem]
  constructor
  · rintro ⟨i, inside, rfl⟩
    rw [length_rowSegment] at inside
    refine ⟨bound.1 + i, by omega, by omega, ?_⟩
    rw [← getD_rowSegment (by omega), getD_eq_getElem]
  · rintro ⟨p, low, high, rfl⟩
    have inside : p - bound.1 < (rowSegment row bound).1.length := by
      rw [length_rowSegment]
      omega
    refine ⟨p - bound.1, inside, ?_⟩
    rw [← getD_eq_getElem _ 0 inside, getD_rowSegment (by omega), Nat.add_sub_cancel' low]

/-! ### The picked slots -/

section

variable (positive : 0 < pageSize)
include positive

/-- From a page boundary on, the stride picks the first slot of each page. -/
theorem everyNth_rowSegment (row : List ℕ) (page stop : ℕ) :
    PoolAllocator.everyNth pageSize (rowSegment row (page * pageSize, stop)).1 =
      (range' page (pageCount pageSize (min stop row.length) - page)).map
        fun k => row.getD (k * pageSize) 0 := by
  have count : pageCount pageSize (min stop row.length - page * pageSize) =
      pageCount pageSize (min stop row.length) - page := by
    apply eq_of_forall_lt_iff
    intro k
    rw [lt_pageCount_iff positive, Nat.lt_sub_iff_add_lt, Nat.lt_sub_iff_add_lt,
      lt_pageCount_iff positive, add_mul]
  unfold PoolAllocator.everyNth
  rw [length_rowSegment, count, range'_eq_map_range, map_map]
  refine map_congr_left fun i member => ?_
  have inside : (page + i) * pageSize < min stop row.length := by
    rw [← lt_pageCount_iff positive]
    have := mem_range.mp member
    omega
  rw [add_mul] at inside
  rw [getD_rowSegment (by dsimp only; omega), Function.comp_apply, add_mul]

/-- The page of a position. -/
theorem poolPage_div (paged : PagedRow pageSize row) {p : ℕ} (inside : p < row.length) :
    poolPage pageSize row (p / pageSize) = row.getD p 0 / pageSize := by
  have first := (Nat.div_mul_le_self p pageSize).trans_lt inside
  apply (paged _ first _ inside).mpr
  rw [Nat.mul_div_cancel _ positive]

/-- The picked slots of a segment lie in the pages that it enters, one in each. -/
theorem map_pageRepresentatives (paged : PagedRow pageSize row)
    (entered : start < min stop row.length ∨ start % pageSize = 0) :
    (PoolAllocator.pageRepresentatives pageSize (rowSegment row (start, stop)).1
        start).flatten.map (· / pageSize) =
      (range' (start / pageSize)
        (pageCount pageSize (min stop row.length) - start / pageSize)).map
          (poolPage pageSize row) := by
  have whole := Nat.div_add_mod' start pageSize
  unfold PoolAllocator.pageRepresentatives
  dsimp only
  split
  next aligned =>
    rw [aligned, add_zero] at whole
    nth_rewrite 1 [← whole]
    rw [flatten_singleton, everyNth_rowSegment positive, map_map]
    rfl
  next inside =>
    have entered : start < min stop row.length := entered.resolve_right inside
    have small := Nat.mod_lt start positive
    -- behind its first slot the segment continues on the next page boundary
    have next : start + (pageSize - start % pageSize) = (start / pageSize + 1) * pageSize := by
      rw [add_mul]
      omega
    have first : (rowSegment row (start, stop)).1.take 1 = [row.getD start 0] := by
      have nonempty : 0 < (rowSegment row (start, stop)).1.length := by
        rw [length_rowSegment]
        exact Nat.sub_pos_of_lt entered
      have head := @getD_rowSegment row (start, stop) 0 (by dsimp only; omega)
      obtain ⟨slot, rest, shape⟩ := exists_cons_of_length_pos nonempty
      rw [shape] at head ⊢
      exact congrArg (fun slot => [slot]) head
    have pages : start / pageSize < pageCount pageSize (min stop row.length) :=
      div_lt_pageCount positive entered
    have count : pageCount pageSize (min stop row.length) - start / pageSize =
        pageCount pageSize (min stop row.length) - (start / pageSize + 1) + 1 := by omega
    rw [first, drop_rowSegment, next, everyNth_rowSegment positive, count]
    simp only [flatten_cons, flatten_nil, append_nil, singleton_append, map_cons, map_map,
      ← poolPage_div positive paged (show start < row.length by omega)]
    rfl

/-! ### Shared pages -/

/-- A position is in the last page of an earlier segment. -/
def sharesPage (pageSize : ℕ) (prevEnd : Option ℕ) (start : ℕ) : Bool :=
  prevEnd.any fun prevEnd => decide (start / pageSize = (prevEnd - 1) / pageSize)

/-- A segment without the page that it shares with the end of an earlier one. -/
def trimShared (pageSize : ℕ) (prevEnd : Option ℕ) (segment : List ℕ × ℕ) : List ℕ × ℕ :=
  if sharesPage pageSize prevEnd segment.2 then
    (segment.1.drop ((segment.2 / pageSize + 1) * pageSize - segment.2),
      (segment.2 / pageSize + 1) * pageSize)
  else segment

/-- The slots that `free_segments` picks, behind an earlier segment that ended at `prevEnd`. -/
def segmentReps (pageSize : ℕ) : Option ℕ → List (List ℕ × ℕ) → List ℕ
  | _, [] => []
  | prevEnd, segment :: rest =>
    if segment.1.length = 0 then segmentReps pageSize prevEnd rest
    else
      (PoolAllocator.pageRepresentatives pageSize (trimShared pageSize prevEnd segment).1
        (trimShared pageSize prevEnd segment).2).flatten ++
          segmentReps pageSize (some (segment.2 + segment.1.length)) rest

/-- The pages of the row up to the end of an earlier segment. -/
def donePages (pageSize : ℕ) (prevEnd : Option ℕ) : ℕ := (prevEnd.map (pageCount pageSize)).getD 0

/-- A trimmed segment is what the segment has behind the pages that are done. -/
theorem trimShared_rowSegment (row : List ℕ) {prevEnd : Option ℕ}
    (behind : ∀ finish ∈ prevEnd, 0 < finish ∧ finish ≤ start) :
    ∃ from_, trimShared pageSize prevEnd (rowSegment row (start, stop)) =
      rowSegment row (from_, stop) ∧
      from_ / pageSize = max (start / pageSize) (donePages pageSize prevEnd) ∧
      (from_ = start ∨ from_ % pageSize = 0) := by
  cases prevEnd with
  | none => exact ⟨start, rfl, (max_zero _).symm, .inl rfl⟩
  | some finish =>
    obtain ⟨nonempty, before⟩ := behind finish rfl
    have done : donePages pageSize (some finish) = (finish - 1) / pageSize + 1 := by
      rw [donePages, Option.map_some, Option.getD_some, pageCount, Nat.sub_add_comm nonempty,
        Nat.add_div_right _ positive]
    have order : (finish - 1) / pageSize ≤ start / pageSize := Nat.div_le_div_right (by omega)
    have past : start ≤ (start / pageSize + 1) * pageSize :=
      (Nat.lt_mul_of_div_lt (Nat.lt_succ_self _) positive).le
    by_cases shared : sharesPage pageSize (some finish) start
    · have same : start / pageSize = (finish - 1) / pageSize := of_decide_eq_true shared
      refine ⟨(start / pageSize + 1) * pageSize, (if_pos shared).trans (Prod.ext ?_ rfl), ?_,
        .inr (Nat.mul_mod_left _ _)⟩
      · change (rowSegment row (start, stop)).1.drop ((start / pageSize + 1) * pageSize - start) = _
        rw [drop_rowSegment, Nat.add_sub_cancel' past]
      · rw [Nat.mul_div_cancel _ positive]
        omega
    · have apart : start / pageSize ≠ (finish - 1) / pageSize := mt decide_eq_true shared
      exact ⟨start, if_neg shared, by omega, .inl rfl⟩

/-- A page of the row that one of the segments enters. -/
def Enters (pageSize length : ℕ) (bounds : List (ℕ × ℕ)) (page : ℕ) : Prop :=
  ∃ bound ∈ bounds, bound.1 < min bound.2 length ∧ bound.1 / pageSize ≤ page ∧
    page < pageCount pageSize (min bound.2 length)

/-- The picks of ascending segments lie in the pages that the segments enter behind those
that are done, in ascending order. -/
theorem map_segmentReps (paged : PagedRow pageSize row)
    {prevEnd : Option ℕ} (behind : ∀ finish ∈ prevEnd, 0 < finish ∧ ∀ bound ∈ bounds,
      finish ≤ bound.1)
    (ascending : bounds.Pairwise fun left right => left.2 ≤ right.1) :
    ∃ pages : List ℕ, pages.Pairwise (· < ·) ∧ (∀ page, page ∈ pages ↔
        Enters pageSize row.length bounds page ∧ donePages pageSize prevEnd ≤ page) ∧
      (segmentReps pageSize prevEnd (bounds.map (rowSegment row))).map (· / pageSize) =
        pages.map (poolPage pageSize row) := by
  induction bounds generalizing prevEnd with
  | nil => exact ⟨[], .nil, fun page => by simp [Enters], rfl⟩
  | cons bound rest ih =>
    obtain ⟨start, stop⟩ := bound
    obtain ⟨before, ascendingRest⟩ := pairwise_cons.mp ascending
    rw [map_cons, segmentReps, length_rowSegment]
    by_cases empty : min stop row.length - start = 0
    · -- an empty segment leaves the end of the earlier one in force
      obtain ⟨pages, sorted, entered, picked⟩ := @ih prevEnd (fun finish found =>
        ⟨(behind finish found).1, fun bound later => (behind finish found).2 bound (.tail _ later)⟩)
        ascendingRest
      refine ⟨pages, sorted, fun page => ?_, by rw [if_pos empty, picked]⟩
      rw [entered]
      simp only [Enters, exists_mem_cons_iff]
      rw [or_iff_right fun entered => by have := entered.1; omega]
    · have filled : start < min stop row.length := by omega
      have earlier : ∀ finish ∈ prevEnd, 0 < finish ∧ finish ≤ start := fun finish found =>
        ⟨(behind finish found).1, (behind finish found).2 _ mem_cons_self⟩
      obtain ⟨from_, trimmed, first, aligned⟩ :=
        @trimShared_rowSegment _ start stop positive row _ earlier
      have head := map_pageRepresentatives positive paged
        (aligned.imp_left fun same => same ▸ filled)
      obtain ⟨pages, sorted, entered, picked⟩ := @ih (some (min stop row.length)) (by
        rintro _ ⟨⟩
        exact ⟨by omega, fun bound member => (min_le_left _ _).trans (before bound member)⟩)
        ascendingRest
      have done : donePages pageSize prevEnd ≤ pageCount pageSize (min stop row.length) := by
        cases prevEnd with
        | none => exact Nat.zero_le _
        | some finish => exact pageCount_mono positive ((earlier finish rfl).2.trans filled.le)
      have later (page : ℕ) (enters : Enters pageSize row.length rest page) :
          start / pageSize ≤ page := by
        obtain ⟨bound, member, -, low, -⟩ := enters
        have := before bound member
        exact (Nat.div_le_div_right (by omega)).trans low
      refine ⟨range' (from_ / pageSize)
        (pageCount pageSize (min stop row.length) - from_ / pageSize) ++ pages, ?_,
        fun page => ?_, ?_⟩
      · refine pairwise_append.mpr ⟨pairwise_lt_range', sorted, fun left inLeft right inRight => ?_⟩
        have := ((entered right).mp inRight).2
        rw [mem_range'_1] at inLeft
        change pageCount _ _ ≤ right at this
        omega
      · rw [mem_append, entered]
        have := later page
        simp only [Enters, exists_mem_cons_iff] at this ⊢
        change _ ∨ _ ∧ pageCount _ _ ≤ page ↔ _
        grind
      · rw [if_neg empty, trimmed, map_append, map_append, ← picked, ← head]
        change _ ++ (segmentReps pageSize (some (start + (min stop row.length - start))) _).map _ =
          _
        rw [Nat.add_sub_cancel' filled.le]
        rfl

/-- A page that a segment enters starts inside the row. -/
theorem Enters.exists_position {page : ℕ} (enters : Enters pageSize row.length bounds page) :
    page * pageSize < row.length ∧ ∃ bound ∈ bounds, ∃ p, bound.1 ≤ p ∧
      p < min bound.2 row.length ∧ p / pageSize = page := by
  obtain ⟨bound, member, filled, low, high⟩ := enters
  rw [lt_pageCount_iff positive] at high
  have past := (Nat.div_lt_iff_lt_mul positive).mp (Nat.lt_succ_of_le low)
  refine ⟨by omega, bound, member, max bound.1 (page * pageSize), le_max_left _ _, by omega, ?_⟩
  apply Nat.div_eq_of_lt_le (le_max_right _ _)
  exact max_lt past (mul_lt_mul_of_pos_right (Nat.lt_succ_self _) positive)

/-- The picked slots of ascending segments name every page of the segments once. -/
theorem segmentReps_perm (paged : PagedRow pageSize row)
    (ascending : bounds.Pairwise fun left right => left.2 ≤ right.1) :
    ((segmentReps pageSize none (bounds.map (rowSegment row))).map (· / pageSize)).Perm
      (uniquePages pageSize ((bounds.map (rowSegment row)).flatMap Prod.fst)) := by
  obtain ⟨pages, sorted, entered, picked⟩ :=
    @map_segmentReps _ row bounds positive paged none (nofun) ascending
  have enters {page : ℕ} : page ∈ pages ↔ Enters pageSize row.length bounds page := by
    rw [entered]
    exact and_iff_left (Nat.zero_le _)
  have start {page : ℕ} (member : page ∈ pages) : page * pageSize < row.length :=
    ((enters.mp member).exists_position positive).1
  have nodup : (pages.map (poolPage pageSize row)).Nodup := by
    refine sorted.nodup.map_on fun left inLeft right inRight same => ?_
    have rowPage := (paged _ (start inLeft) _ (start inRight)).mp same
    rwa [Nat.mul_div_cancel _ positive, Nat.mul_div_cancel _ positive] at rowPage
  rw [picked, perm_ext_iff_of_nodup nodup (nodup_uniquePages _ _)]
  intro id
  rw [mem_uniquePages, mem_map]
  simp only [flatMap_map, mem_flatMap, mem_rowSegment]
  constructor
  · rintro ⟨k, member, rfl⟩
    obtain ⟨-, bound, inBounds, p, low, high, rfl⟩ := (enters.mp member).exists_position positive
    exact ⟨_, ⟨bound, inBounds, p, low, high, rfl⟩, (poolPage_div positive paged (by omega)).symm⟩
  · rintro ⟨_, ⟨bound, inBounds, p, low, high, rfl⟩, rfl⟩
    exact ⟨p / pageSize, enters.mpr ⟨bound, inBounds, by omega, Nat.div_le_div_right low,
      div_lt_pageCount positive high⟩, poolPage_div positive paged (by omega)⟩

end

/-! ### Frees outside and inside a group -/

namespace PoolAllocator

variable {pool middle next : PoolAllocator} {prevEnd : Option ℕ} {segments : List (List ℕ × ℕ)}

/-- Pages are returned twice. -/
theorem Returned.trans {first second : List ℕ} (one : Returned pool middle first)
    (two : Returned middle next second) : Returned pool next (first ++ second) where
  shape := one.shape.trans two.shape
  held := by
    rw [two.held, one.held, ← add_assoc, Multiset.coe_add, Multiset.coe_eq_coe.mpr perm_append_comm]

/-- An empty segment has no page. -/
theorem flatten_pageRepresentatives_nil (positive : 0 < pageSize) (startPos : ℕ) :
    (pageRepresentatives pageSize [] startPos).flatten = [] := by
  unfold pageRepresentatives everyNth
  dsimp only
  split <;> simp [pageCount_zero positive]

/-- Outside a group, a segment returns the pages of its picked slots. -/
theorem returned_freeSegment (ungrouped : pool.freeGroup = none) (positive : 0 < pool.pageSize)
    (freeIndex : List ℕ) (startPos : ℕ) : Returned pool (pool.freeSegment freeIndex startPos)
      ((pageRepresentatives pool.pageSize freeIndex startPos).flatten.map (· / pool.pageSize)) := by
  unfold freeSegment
  split
  next empty =>
    obtain rfl := length_eq_zero_iff.mp empty
    rw [flatten_pageRepresentatives_nil positive]
    exact returned_nil pool
  · rw [ungrouped]
    exact returned_releasePageIds pool _

/-- Inside a group, a segment defers its picked slots. -/
theorem deferred_freeSegment {group : List (List ℕ)} (grouped : pool.freeGroup = some group)
    (positive : 0 < pool.pageSize) (freeIndex : List ℕ) (startPos : ℕ) :
    ∃ pieces : List (List ℕ), pool.freeSegment freeIndex startPos =
        { pool with freePageRepsGroup := pool.freePageRepsGroup ++ pieces } ∧
      pieces.flatten = (pageRepresentatives pool.pageSize freeIndex startPos).flatten := by
  unfold freeSegment
  split
  next empty =>
    obtain rfl := length_eq_zero_iff.mp empty
    exact ⟨[], by rw [append_nil], (flatten_pageRepresentatives_nil positive _).symm⟩
  · rw [grouped]
    exact ⟨_, rfl, rfl⟩

/-- One segment. -/
theorem go_cons (pool : PoolAllocator) (prevEnd : Option ℕ) (segment : List ℕ × ℕ)
    (rest : List (List ℕ × ℕ)) : freeSegments.go pool prevEnd (segment :: rest) =
      if segment.1.length = 0 then freeSegments.go pool prevEnd rest
      else freeSegments.go (pool.freeSegment (trimShared pool.pageSize prevEnd segment).1
        (trimShared pool.pageSize prevEnd segment).2)
          (some (segment.2 + segment.1.length)) rest := rfl

/-- The pages of all segments are returned. -/
theorem returned_go (ungrouped : pool.freeGroup = none) (positive : 0 < pool.pageSize) :
    Returned pool (freeSegments.go pool prevEnd segments)
      ((segmentReps pool.pageSize prevEnd segments).map (· / pool.pageSize)) := by
  induction segments generalizing pool prevEnd with
  | nil => exact returned_nil pool
  | cons segment rest ih =>
    rw [go_cons, segmentReps]
    split
    · exact ih ungrouped positive
    · have freed := returned_freeSegment ungrouped positive
        (trimShared pool.pageSize prevEnd segment).1 (trimShared pool.pageSize prevEnd segment).2
      have size := freed.shape.pageSize
      have later := @ih _ (some (segment.2 + segment.1.length))
        (freed.shape.freeGroup.trans ungrouped) (by rwa [size])
      rw [size] at later
      rw [map_append]
      exact freed.trans later

/-- In a group they are deferred. -/
theorem deferred_go {group : List (List ℕ)} (grouped : pool.freeGroup = some group)
    (positive : 0 < pool.pageSize) :
    ∃ pieces : List (List ℕ), freeSegments.go pool prevEnd segments =
        { pool with freePageRepsGroup := pool.freePageRepsGroup ++ pieces } ∧
      pieces.flatten = segmentReps pool.pageSize prevEnd segments := by
  induction segments generalizing pool prevEnd with
  | nil => exact ⟨[], by rw [append_nil]; rfl, rfl⟩
  | cons segment rest ih =>
    rw [go_cons, segmentReps]
    split
    · exact ih grouped positive
    · obtain ⟨pieces, freed, picked⟩ := deferred_freeSegment grouped positive
        (trimShared pool.pageSize prevEnd segment).1 (trimShared pool.pageSize prevEnd segment).2
      obtain ⟨more, later, pickedLater⟩ := @ih
        { pool with freePageRepsGroup := pool.freePageRepsGroup ++ pieces }
        (some (segment.2 + segment.1.length)) grouped positive
      refine ⟨pieces ++ more, ?_, ?_⟩
      · rw [freed, later, append_assoc]
      · rw [flatten_append, picked, pickedLater]

/-- The end of a group returns the distinct pages of the deferred frees and the pages of the
deferred picks. -/
theorem heldPages_freeGroupEnd (pool : PoolAllocator) : pool.freeGroupEnd.heldPages =
      (pool.freePageRepsGroup.flatten.map (· / pool.pageSize) : Multiset ℕ) +
        ((uniquePages pool.pageSize (pool.freeGroup.getD []).flatten : Multiset ℕ) +
          pool.heldPages) := by
  have freed := @returned_free { pool with freeGroup := none } rfl (pool.freeGroup.getD []).flatten
  have skipped : (if (pool.freeGroup.getD []).isEmpty then { pool with freeGroup := none }
      else { pool with freeGroup := none }.free (pool.freeGroup.getD []).flatten) =
        { pool with freeGroup := none }.free (pool.freeGroup.getD []).flatten := by
    split
    next empty =>
      rw [isEmpty_iff.mp empty]
      rfl
    · rfl
  unfold freeGroupEnd
  dsimp only
  rw [skipped]
  have reps := freed.shape.freePageRepsGroup
  have size := freed.shape.pageSize
  have held := freed.held
  generalize { pool with freeGroup := none }.free (pool.freeGroup.getD []).flatten = ended at *
  rw [← reps, ← size]
  split
  next empty =>
    rw [isEmpty_iff.mp empty, held, size]
    exact (zero_add _).symm
  · have released := (returned_releasePageIds ended
      (ended.freePageRepsGroup.flatten.map (· / ended.pageSize))).held
    exact released.trans (by rw [held, size]; rfl)

/-- Freeing ascending segments of a paged row returns the distinct pages of the segments, once
each: at once outside a group, and with the end of the group inside one. The slots picked of
one segment name the pages that deduplicating its slots finds. -/
theorem freeSegments_returns_distinct_pages (positive : 0 < pool.pageSize)
    (paged : PagedRow pool.pageSize row)
    (ascending : bounds.Pairwise fun left right => left.2 ≤ right.1) :
    (pool.freeGroup = none → (pool.freeSegments (bounds.map (rowSegment row))).heldPages =
      (uniquePages pool.pageSize ((bounds.map (rowSegment row)).flatMap Prod.fst) : Multiset ℕ) +
        pool.heldPages) ∧
    (pool.freeGroup ≠ none →
      (pool.freeSegments (bounds.map (rowSegment row))).freeGroupEnd.heldPages =
        (uniquePages pool.pageSize ((bounds.map (rowSegment row)).flatMap Prod.fst) :
          Multiset ℕ) + pool.freeGroupEnd.heldPages) ∧
    ∀ bound, ((pageRepresentatives pool.pageSize (rowSegment row bound).1 bound.1).flatten.map
      (· / pool.pageSize)).Perm (uniquePages pool.pageSize (rowSegment row bound).1) := by
  have distinct := Multiset.coe_eq_coe.mpr (segmentReps_perm positive paged ascending)
  refine ⟨fun ungrouped => ?_, fun grouped => ?_, fun bound => ?_⟩
  · rw [← distinct]
    exact (returned_go ungrouped positive).held
  · obtain ⟨group, grouped⟩ := Option.ne_none_iff_exists'.mp grouped
    obtain ⟨pieces, freed, picked⟩ := @deferred_go pool none (bounds.map (rowSegment row)) group
      grouped positive
    rw [freeSegments, freed, heldPages_freeGroupEnd, heldPages_freeGroupEnd]
    dsimp only
    rw [flatten_append, map_append, picked, ← Multiset.coe_add, distinct, add_comm
      (Multiset.ofList (map _ pool.freePageRepsGroup.flatten)), add_assoc]
    rfl
  · have one := @segmentReps_perm _ row [bound] positive paged (pairwise_singleton _ _)
    rw [map_singleton, segmentReps] at one
    split at one
    next empty =>
      rw [length_eq_zero_iff.mp empty, flatten_pageRepresentatives_nil positive]
      exact .refl _
    · simpa [segmentReps, trimShared, sharesPage, rowSegment] using one

/-- Four positions on the pool page two, the others on the pool page one. -/
theorem freeSegments_returns_distinct_pages_shared : (freeSegments ⟨12, 4, false, [3], [], none, []⟩
      ([(1, 2), (2, 3), (3, 6)].map (rowSegment [8, 9, 10, 11, 4, 5]))).heldPages = {2, 1, 3} := by
  have paged : PagedRow 4 [8, 9, 10, 11, 4, 5] := by
    unfold PagedRow
    decide
  exact ((freeSegments_returns_distinct_pages (by decide) paged (by decide)).1 rfl).trans
    (by decide)

/-- Offsets that agree with the positions do not suffice: two positions of one page of the row
on different pages of the pool, of which only the first is returned. -/
theorem freeSegments_loses_page : (∀ p < [0, 5].length, [0, 5].getD p 0 % 4 = p % 4) ∧
    (freeSegments ⟨8, 4, false, [], [], none, []⟩ [rowSegment [0, 5] (0, 2)]).heldPages = {0} ∧
    uniquePages 4 (rowSegment [0, 5] (0, 2)).1 = [0, 1] := by
  decide

end PoolAllocator

end AvaServe.Memory
