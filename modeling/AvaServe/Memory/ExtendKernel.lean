import Mathlib
import AvaServe.Foundation.ScatterWrites
import AvaServe.Memory.PoolAllocator

/-!
# The extend kernel

One program of the kernel serves one sequence of the batch. Every program sums the lengths of
the sequences up to its own over a masked block of lanes, and stores its slots in three parts:
the rest of the last page, whole pages in blocks of a fixed width, and the head of a last
partial page. The naive version walks the batch and assigns slices. Both write, for every
sequence, the slots of its positions in order; the programs may run in any order.
-/

namespace AvaServe.Memory

open Foundation List Function

/-! ## The kernel -/

/-- `next_power_of_2`. -/
def nextPowerOf2 (n : ℕ) : ℕ := if 0 < n then 2 ^ Nat.size (n - 1) else 1

/-- A load of a block of lanes. The lanes above `pid` are masked and hold `other`. -/
def maskedLoad (bsUpper pid other : ℕ) (values : List ℕ) : List ℕ :=
  (range bsUpper).map fun lane => if lane ≤ pid then values.getD lane 0 else other

/-- `BLOCK_EXTEND`. -/
def blockExtend : ℕ := 4096

/-- The stores of one program. -/
def allocExtendProgram (pageSize other : ℕ) (freePages : List ℕ) (reqs : List ExtendReq)
    (pid : ℕ) : List (ℕ × ℤ) :=
  let bsUpper := nextPowerOf2 reqs.length
  let seqLens := maskedLoad bsUpper pid other (reqs.map ExtendReq.seqLen)
  let preLens := maskedLoad bsUpper pid other (reqs.map ExtendReq.prefixLen)
  let seqLen := (reqs.map ExtendReq.seqLen).getD pid 0
  let preLen := (reqs.map ExtendReq.prefixLen).getD pid 0
  let lastLoc := (reqs.map ExtendReq.lastLoc).getD pid 0
  let sumExtendLens := (zipWith (fun seqLen preLen => seqLen - preLen) seqLens preLens).sum
  let outputStartLoc := sumExtendLens - (seqLen - preLen)
  let sumNumNewPages := (zipWith (fun seqLen preLen =>
    pageCount pageSize seqLen - pageCount pageSize preLen) seqLens preLens).sum
  let numPageStartLocSelf := pageCount pageSize seqLen - pageCount pageSize preLen
  let newPageStartLoc := sumNumNewPages - numPageStartLocSelf
  let numPart1 := min seqLen (pageCount pageSize preLen * pageSize) - preLen
  let part1 := storeMasked outputStartLoc (range pageSize) numPart1 fun offset =>
    lastLoc + 1 + offset
  if preLen + numPart1 = seqLen then part1
  else
    let numPart2 := seqLen / pageSize * pageSize - pageCount pageSize preLen * pageSize
    let numBlocks := (numPart2 + blockExtend - 1) / blockExtend
    let part2 := (range numBlocks).flatMap fun blockId =>
      storeMasked (outputStartLoc + numPart1)
        ((range blockExtend).map (blockId * blockExtend + ·)) numPart2 fun offset =>
          ((freePages.getD (newPageStartLoc + offset / pageSize) 0 * pageSize +
            offset % pageSize : ℕ) : ℤ)
    if preLen + numPart1 + numPart2 = seqLen then part1 ++ part2
    else
      let numPart3 := seqLen - seqLen / pageSize * pageSize
      let startLoc := freePages.getD (newPageStartLoc + numPageStartLocSelf - 1) 0
      part1 ++ part2 ++
        storeMasked (outputStartLoc + numPart1 + numPart2) (range pageSize) numPart3
          fun offset => ((startLoc * pageSize + offset : ℕ) : ℤ)

/-- The stores of all programs of the grid. -/
def allocExtendGrid (pageSize other : ℕ) (freePages : List ℕ) (reqs : List ExtendReq) :
    List (ℕ × ℤ) :=
  (range reqs.length).flatMap (allocExtendProgram pageSize other freePages reqs)

/-! ## The naive version -/

/-- The sums of the first elements. -/
def cumsum (values : List ℕ) : List ℕ :=
  (range values.length).map fun i => (values.take (i + 1)).sum

/-- `out[start : start + len(values)] = values`. -/
def assignSlice (out : ℕ → ℤ) (start : ℕ) (values : List ℤ) : ℕ → ℤ :=
  scatter out (blockWrites start values)

/-- The body of the loop over the batch. -/
def allocExtendNaiveStep (pageSize : ℕ) (freePages : List ℕ) (reqs : List ExtendReq)
    (out : ℕ → ℤ) (i : ℕ) : ℕ → ℤ :=
  let extendLens := reqs.map fun req => req.seqLen - req.prefixLen
  let endPos := (cumsum extendLens).getD i 0
  let startPos := endPos - extendLens.getD i 0
  let numNewPages := reqs.map (ExtendReq.numNewPages pageSize)
  let numFullNewPages := reqs.map fun req =>
    req.seqLen / pageSize - pageCount pageSize req.prefixLen
  let needPage := numNewPages.getD i 0 - numFullNewPages.getD i 0
  let endNewPages := (cumsum numNewPages).getD i 0
  let startNewPages := endNewPages - numNewPages.getD i 0
  let posInPage := range pageSize
  let seqLen := (reqs.map ExtendReq.seqLen).getD i 0
  let prefixLen := (reqs.map ExtendReq.prefixLen).getD i 0
  let lastLoc := (reqs.map ExtendReq.lastLoc).getD i 0
  let num1 := min seqLen (pageCount pageSize prefixLen * pageSize) - prefixLen
  let out := if num1 = 0 then out
    else assignSlice out startPos ((posInPage.take num1).map fun pos : ℕ => lastLoc + 1 + (pos : ℤ))
  if prefixLen + num1 = seqLen then out
  else
    let num2 := (seqLen / pageSize - pageCount pageSize prefixLen) * pageSize
    let out := if num2 = 0 then out
      else
        let pages := (freePages.take (endNewPages - needPage)).drop startNewPages
        assignSlice out (startPos + num1) (pages.flatMap fun page =>
          posInPage.map fun pos : ℕ => ((page * pageSize + pos : ℕ) : ℤ))
    if prefixLen + num1 + num2 = seqLen then out
    else
      let num3 := seqLen - seqLen / pageSize * pageSize
      if num3 = 0 then out
      else assignSlice out (endPos - num3) ((posInPage.take num3).map fun pos : ℕ =>
        ((freePages.getD (endNewPages - 1) 0 * pageSize + pos : ℕ) : ℤ))

/-- `alloc_extend_naive`: the loop over the batch. -/
def allocExtendNaive (pageSize : ℕ) (freePages : List ℕ) (reqs : List ExtendReq)
    (out : ℕ → ℤ) : ℕ → ℤ :=
  (range reqs.length).foldl (allocExtendNaiveStep pageSize freePages reqs) out

/-! ## Where a batch puts its sequences -/

/-- The first output position of the `i`-th sequence. -/
def outputStart (reqs : List ExtendReq) (i : ℕ) : ℕ :=
  ((reqs.take i).map fun req => req.seqLen - req.prefixLen).sum

/-- The first entry of the free list that the `i`-th sequence takes. -/
def newPageStart (pageSize : ℕ) (reqs : List ExtendReq) (i : ℕ) : ℕ :=
  getNumNewPages pageSize (reqs.take i)

/-- The slot of the `k`-th new token of a sequence, also for a last location that is no slot. -/
def extendIndex (pageSize : ℕ) (pages : List ℕ) (req : ExtendReq) (k : ℕ) : ℤ :=
  if req.prefixLen + k < pageCount pageSize req.prefixLen * pageSize then req.lastLoc + 1 + k
  else extendSlot pageSize pages req k

/-- The slots of one sequence. -/
def extendIndices (pageSize : ℕ) (pages : List ℕ) (req : ExtendReq) : List ℤ :=
  (range (req.seqLen - req.prefixLen)).map (extendIndex pageSize pages req)

variable {pageSize : ℕ}

variable {reqs : List ExtendReq} {i position j entry : ℕ} {freePages : List ℕ} {req : ExtendReq}

/-- A sequence begins where the one before it ends. -/
theorem outputStart_succ (inside : i < reqs.length) :
    outputStart reqs (i + 1) = outputStart reqs i + (reqs[i].seqLen - reqs[i].prefixLen) := by
  unfold outputStart
  rw [take_add_one, getElem?_eq_getElem inside, Option.toList_some, map_append,
    sum_append, map_singleton, sum_singleton]

/-- So do the entries it takes. -/
theorem newPageStart_succ (inside : i < reqs.length) : newPageStart pageSize reqs (i + 1) =
      newPageStart pageSize reqs i + reqs[i].numNewPages pageSize := by
  unfold newPageStart getNumNewPages
  rw [take_add_one, getElem?_eq_getElem inside, Option.toList_some, map_append,
    sum_append, map_singleton, sum_singleton]

/-- Later sequences take later entries. -/
theorem newPageStart_mono (reqs : List ExtendReq) (le : i ≤ j) :
    newPageStart pageSize reqs i ≤ newPageStart pageSize reqs j := by
  unfold newPageStart getNumNewPages
  rw [← min_eq_left le, ← take_take]
  exact ((take_sublist i (reqs.take j)).map _).sum_le_sum fun _ _ => Nat.zero_le _

/-- No sequence takes more than the batch. -/
theorem newPageStart_succ_le (inside : i < reqs.length) :
    newPageStart pageSize reqs (i + 1) ≤ getNumNewPages pageSize reqs := by
  have last := @newPageStart_mono pageSize (i + 1) reqs.length reqs inside
  rwa [newPageStart, newPageStart, take_length] at last

/-! ## The parts of one sequence -/

/-- The column of a batch, read at one of its sequences. -/
theorem getD_column {α : Type} (inside : i < reqs.length) (column : ExtendReq → α) (default : α) :
    (reqs.map column).getD i default = column reqs[i] := by
  simp [inside]

variable (pages : List ℕ)

/-- The three parts of a sequence that reaches past its last page. -/
theorem extendIndices_parts (positive : 0 < pageSize) (pages : List ℕ) (req : ExtendReq)
    (past : pageCount pageSize req.prefixLen * pageSize < req.seqLen) :
    extendIndices pageSize pages req =
      (range (pageCount pageSize req.prefixLen * pageSize - req.prefixLen)).map
          (fun offset : ℕ => req.lastLoc + 1 + (offset : ℤ)) ++
        (range (req.seqLen / pageSize * pageSize -
            pageCount pageSize req.prefixLen * pageSize)).map
          (fun offset : ℕ =>
            ((pages.getD (offset / pageSize) 0 * pageSize + offset % pageSize : ℕ) : ℤ)) ++
        (range (req.seqLen % pageSize)).map fun offset : ℕ =>
          ((pages.getD (req.seqLen / pageSize - pageCount pageSize req.prefixLen) 0 * pageSize +
            offset : ℕ) : ℤ) := by
  have covered := le_pageCount_mul positive req.prefixLen
  obtain ⟨-, -, total, inner⟩ := extend_parts positive past
  have fresh (offset : ℕ) : extendIndex pageSize pages req
      (pageCount pageSize req.prefixLen * pageSize - req.prefixLen + offset) =
      ((pages.getD (offset / pageSize) 0 * pageSize + offset % pageSize : ℕ) : ℤ) := by
    rw [extendIndex, if_neg (by omega), extendSlot_new_page positive]
  unfold extendIndices
  rw [total, range_add, range_add]
  simp only [map_append, map_map]
  congr 1
  · congr 1
    · refine map_congr_left fun offset member => if_pos ?_
      have := mem_range.mp member
      omega
    · exact map_congr_left fun offset _ => fresh offset
  · refine map_congr_left fun offset member => ?_
    have small := (mem_range.mp member).trans (Nat.mod_lt req.seqLen positive)
    simp only [comp_apply]
    rw [add_assoc, fresh, inner, slot_div small, slot_mod small]

/-- A sequence that stays inside its last page continues it. -/
theorem extendIndices_short (req : ExtendReq)
    (short : req.seqLen ≤ pageCount pageSize req.prefixLen * pageSize) :
    extendIndices pageSize pages req =
      (range (req.seqLen - req.prefixLen)).map fun offset : ℕ =>
        req.lastLoc + 1 + (offset : ℤ) := by
  refine map_congr_left fun offset member => if_pos ?_
  have := mem_range.mp member
  omega

/-- The rest of a page has fewer tokens than a page. -/
theorem rest_of_page_lt (positive : 0 < pageSize) (tokens : ℕ) :
    pageCount pageSize tokens * pageSize - tokens < pageSize := by
  unfold pageCount
  have := Nat.div_mul_le_self (tokens + pageSize - 1) pageSize
  omega

/-! ## The kernel writes the slots of every sequence -/

/-- The block of lanes holds the batch. -/
theorem le_nextPowerOf2 (n : ℕ) : n ≤ nextPowerOf2 n := by
  unfold nextPowerOf2
  split
  · have := Nat.lt_size_self (n - 1)
    omega
  · omega

/-- The masked lanes add nothing to a sum of differences. -/
theorem sum_maskedLoad {pid : ℕ} (inside : pid < reqs.length) (other : ℕ) (f : ℕ → ℕ → ℕ)
    (masked : f other other = 0) :
    (zipWith f (maskedLoad (nextPowerOf2 reqs.length) pid other (reqs.map ExtendReq.seqLen))
        (maskedLoad (nextPowerOf2 reqs.length) pid other (reqs.map ExtendReq.prefixLen))).sum =
      ((reqs.take (pid + 1)).map fun req => f req.seqLen req.prefixLen).sum := by
  have room := le_nextPowerOf2 reqs.length
  obtain ⟨rest, split⟩ := Nat.exists_eq_add_of_le (show pid + 1 ≤ nextPowerOf2 reqs.length by omega)
  have lanes : zipWith f
      (maskedLoad (nextPowerOf2 reqs.length) pid other (reqs.map ExtendReq.seqLen))
      (maskedLoad (nextPowerOf2 reqs.length) pid other (reqs.map ExtendReq.prefixLen)) =
      ((reqs.take (pid + 1)).map fun req => f req.seqLen req.prefixLen) ++ replicate rest 0 := by
    refine ext_getElem ?_ fun lane here there => ?_
    · simp [maskedLoad]
      omega
    · by_cases below : lane < pid + 1
      · simp [maskedLoad, Nat.lt_succ_iff.mp below, show lane < reqs.length by omega]
      · rw [getElem_append_right (by simp; omega)]
        simp [maskedLoad, show ¬lane ≤ pid by omega, masked]
  rw [lanes, sum_append, sum_replicate, smul_zero, add_zero]

/-- One program writes the slots of its sequence behind those of the sequences before it. -/
theorem allocExtendProgram_eq (positive : 0 < pageSize) (other : ℕ) (freePages : List ℕ) {pid : ℕ}
    (inside : pid < reqs.length) (grows : reqs[pid].prefixLen ≤ reqs[pid].seqLen) :
    allocExtendProgram pageSize other freePages reqs pid = blockWrites (outputStart reqs pid)
        (extendIndices pageSize (freePages.drop (newPageStart pageSize reqs pid)) reqs[pid]) := by
  have lens := sum_maskedLoad inside other (fun seqLen preLen => seqLen - preLen) (Nat.sub_self _)
  have pages := sum_maskedLoad inside other
    (fun seqLen preLen => pageCount pageSize seqLen - pageCount pageSize preLen) (Nat.sub_self _)
  have outputs := outputStart_succ inside
  have starts := @newPageStart_succ pageSize reqs pid inside
  change _ = outputStart reqs (pid + 1) at lens
  change _ = newPageStart pageSize reqs (pid + 1) at pages
  unfold allocExtendProgram
  dsimp only
  rw [lens, pages]
  simp only [getD_column inside]
  rw [outputs, starts, ← ExtendReq.numNewPages, Nat.add_sub_cancel, Nat.add_sub_cancel]
  generalize reqs[pid] = req at grows
  have covered := le_pageCount_mul positive req.prefixLen
  have rest := rest_of_page_lt positive req.prefixLen
  split
  next short =>
    have count : min req.seqLen (pageCount pageSize req.prefixLen * pageSize) - req.prefixLen =
        req.seqLen - req.prefixLen := by omega
    rw [count, storeMasked_range _ (by omega), extendIndices_short _ _ (by omega)]
  next long =>
    have past : pageCount pageSize req.prefixLen * pageSize < req.seqLen := by omega
    obtain ⟨count, cut, total, -⟩ := extend_parts positive past
    have blocks (limit : ℕ) := @flatMap_storeMasked ℤ _ _ _
      (@le_pageCount_mul blockExtend (by decide) limit)
    rw [extendIndices_parts positive _ _ past, count, cut, blockWrites_append,
      blockWrites_append, storeMasked_range _ rest.le]
    simp only [pageCount] at blocks
    simp only [blocks, getD_eq_getElem?_getD, getElem?_drop, length_append, length_map,
      length_range]
    split
    next filled =>
      have none : req.seqLen % pageSize = 0 := by omega
      rw [none]
      simp [blockWrites]
    next partial_ =>
      have cutPos : 0 < req.seqLen % pageSize := by omega
      rw [storeMasked_range _ (Nat.mod_lt _ positive).le]
      rw [numNewPages_of_cut positive past cutPos, Nat.add_succ_sub_one, add_assoc]

/-! ## The naive version assigns the same slots -/

/-- The running sum of the first values. -/
theorem getD_cumsum {values : List ℕ} (inside : i < values.length) :
    (cumsum values).getD i 0 = (values.take (i + 1)).sum := by
  simp [cumsum, inside]

/-- The slots of whole pages, page by page. -/
theorem flatMap_pages : (pages.flatMap fun page => (range pageSize).map fun pos : ℕ =>
        ((page * pageSize + pos : ℕ) : ℤ)) =
      (range (pages.length * pageSize)).map fun offset : ℕ =>
        ((pages.getD (offset / pageSize) 0 * pageSize + offset % pageSize : ℕ) : ℤ) := by
  have slots := congrArg (map (Nat.cast : ℕ → ℤ)) (pageSlots_eq_map pageSize pages)
  rw [pageSlots, map_flatMap] at slots
  simpa only [map_map, comp_def, slotAt] using slots

/-- An empty slice may be skipped. -/
theorem assignSlice_unless (out : ℕ → ℤ) (start count : ℕ) (values : List ℤ)
    (length : values.length = count) :
    (if count = 0 then out else assignSlice out start values) = assignSlice out start values := by
  split
  next empty =>
    rw [eq_nil_of_length_eq_zero (length.trans empty)]
    rfl
  · rfl

/-- Adjacent slices are one slice. -/
theorem assignSlice_append (out : ℕ → ℤ) (start : ℕ) (first second : List ℤ) :
    assignSlice (assignSlice out start first) (start + first.length) second =
      assignSlice out start (first ++ second) := by
  unfold assignSlice
  rw [blockWrites_append, scatter_append]

/-- The pages that fill up: the entries of the free list before the last one of the sequence. -/
theorem fullPages_eq (positive : 0 < pageSize) {first : ℕ}
    (enough : first + req.numNewPages pageSize ≤ freePages.length) :
    (freePages.take (first + req.numNewPages pageSize - (req.numNewPages pageSize -
        (req.seqLen / pageSize - pageCount pageSize req.prefixLen)))).drop first =
      (freePages.drop first).take (req.seqLen / pageSize - pageCount pageSize req.prefixLen) ∧
    req.seqLen / pageSize - pageCount pageSize req.prefixLen ≤ (freePages.drop first).length := by
  have rounded : req.seqLen / pageSize ≤ pageCount pageSize req.seqLen :=
    Nat.div_le_div_right (by omega)
  unfold ExtendReq.numNewPages at enough ⊢
  rw [drop_take, length_drop]
  refine ⟨?_, by omega⟩
  congr 1
  omega

/-- The body of the loop assigns the slots of its sequence. -/
theorem allocExtendNaiveStep_eq (positive : 0 < pageSize) (out : ℕ → ℤ) (inside : i < reqs.length)
    (grows : reqs[i].prefixLen ≤ reqs[i].seqLen)
    (enough : newPageStart pageSize reqs (i + 1) ≤ freePages.length) :
    allocExtendNaiveStep pageSize freePages reqs out i = assignSlice out (outputStart reqs i)
        (extendIndices pageSize (freePages.drop (newPageStart pageSize reqs i)) reqs[i]) := by
  have outputs := outputStart_succ inside
  have starts := @newPageStart_succ pageSize reqs i inside
  have lens : (cumsum (reqs.map fun req => req.seqLen - req.prefixLen)).getD i 0 =
      outputStart reqs (i + 1) := by
    rw [getD_cumsum (by simpa using inside), ← map_take]
    rfl
  have pages : (cumsum (reqs.map (ExtendReq.numNewPages pageSize))).getD i 0 =
      newPageStart pageSize reqs (i + 1) := by
    rw [getD_cumsum (by simpa using inside), ← map_take]
    rfl
  rw [starts] at enough
  unfold allocExtendNaiveStep
  simp only [lens, pages, getD_column inside]
  rw [outputs, starts, Nat.add_sub_cancel, Nat.add_sub_cancel]
  generalize outputStart reqs i = base
  generalize newPageStart pageSize reqs i = first at enough
  generalize reqs[i] = req at grows enough
  have covered := le_pageCount_mul positive req.prefixLen
  have rest := rest_of_page_lt positive req.prefixLen
  have count1 : min req.seqLen (pageCount pageSize req.prefixLen * pageSize) - req.prefixLen ≤
      pageSize := by omega
  rw [take_range, min_eq_left count1, assignSlice_unless _ _ _ _ (by simp)]
  split
  next short =>
    have count : min req.seqLen (pageCount pageSize req.prefixLen * pageSize) - req.prefixLen =
        req.seqLen - req.prefixLen := by omega
    rw [count, extendIndices_short _ _ (by omega)]
  next long =>
    have past : pageCount pageSize req.prefixLen * pageSize < req.seqLen := by omega
    obtain ⟨count, cut, total, -⟩ := extend_parts positive past
    obtain ⟨full, available⟩ := fullPages_eq positive enough
    have middle : ((freePages.drop first).take
          (req.seqLen / pageSize - pageCount pageSize req.prefixLen)).flatMap
          (fun page => (range pageSize).map fun pos => ((page * pageSize + pos : ℕ) : ℤ)) =
        (range (req.seqLen / pageSize * pageSize -
            pageCount pageSize req.prefixLen * pageSize)).map fun offset =>
          (((freePages.drop first).getD (offset / pageSize) 0 * pageSize + offset % pageSize : ℕ) :
            ℤ) := by
      rw [flatMap_pages, length_take_of_le available, Nat.sub_mul]
      refine map_congr_left fun offset member => ?_
      have small := mem_range.mp member
      rw [← Nat.sub_mul] at small
      have index := (Nat.div_lt_iff_lt_mul positive).mpr small
      simp [index]
    rw [full, middle, Nat.sub_mul, assignSlice_unless _ _ _ _ (by simp),
      extendIndices_parts positive _ _ past, count, cut]
    rw [← assignSlice_append, ← assignSlice_append]
    simp only [length_append, length_map, length_range]
    split
    next filled =>
      have none : req.seqLen % pageSize = 0 := by omega
      rw [none]
      simp [assignSlice, blockWrites]
    next partial_ =>
      have cutPos : 0 < req.seqLen % pageSize := by omega
      have start : base + (req.seqLen - req.prefixLen) - req.seqLen % pageSize =
          base + (pageCount pageSize req.prefixLen * pageSize - req.prefixLen +
            (req.seqLen / pageSize * pageSize - pageCount pageSize req.prefixLen * pageSize)) := by
        omega
      rw [if_neg cutPos.ne', take_range, min_eq_left (Nat.mod_lt _ positive).le, start,
        numNewPages_of_cut positive past cutPos, Nat.add_succ_sub_one]
      simp only [getD_eq_getElem?_getD, getElem?_drop]

/-! ## The whole batch -/

/-- The slots of the first sequences of a batch. -/
def batchIndices (pageSize : ℕ) (freePages : List ℕ) (reqs : List ExtendReq) (count : ℕ) : List ℤ :=
  (range count).flatMap fun i =>
    extendIndices pageSize (freePages.drop (newPageStart pageSize reqs i))
      (reqs.getD i ⟨0, 0, -1⟩)

/-- The batch goes on with the slots of the next sequence. -/
theorem batchIndices_succ (freePages : List ℕ) (inside : i < reqs.length) :
    batchIndices pageSize freePages reqs (i + 1) = batchIndices pageSize freePages reqs i ++
        extendIndices pageSize (freePages.drop (newPageStart pageSize reqs i)) reqs[i] := by
  unfold batchIndices
  rw [range_succ, flatMap_append, flatMap_singleton, getD_eq_getElem?_getD,
    getElem?_eq_getElem inside, Option.getD_some]

/-- It has as many slots as new tokens. -/
theorem length_batchIndices (freePages : List ℕ) {count : ℕ} (inside : count ≤ reqs.length) :
    (batchIndices pageSize freePages reqs count).length = outputStart reqs count := by
  induction count with
  | zero => rfl
  | succ i ih =>
    rw [batchIndices_succ freePages inside, length_append, ih (by omega), outputStart_succ inside]
    simp [extendIndices]

section

variable (positive : 0 < pageSize)
include positive

/-- The programs of the grid store the slots of the batch. -/
theorem allocExtendGrid_eq (other : ℕ) (freePages : List ℕ)
    (grows : ∀ req ∈ reqs, req.prefixLen ≤ req.seqLen) :
    allocExtendGrid pageSize other freePages reqs =
      blockWrites 0 (batchIndices pageSize freePages reqs reqs.length) := by
  have upTo : ∀ count ≤ reqs.length,
      (range count).flatMap (allocExtendProgram pageSize other freePages reqs) =
        blockWrites 0 (batchIndices pageSize freePages reqs count) := by
    intro count
    induction count with
    | zero => exact fun _ => rfl
    | succ i ih =>
      intro inside
      rw [range_succ, flatMap_append, flatMap_singleton, ih (by omega),
        batchIndices_succ freePages inside, blockWrites_append,
        length_batchIndices freePages (by omega), zero_add,
        allocExtendProgram_eq positive other freePages inside
          (grows _ (getElem_mem inside))]
  exact upTo reqs.length le_rfl

variable (grows : ∀ req ∈ reqs, req.prefixLen ≤ req.seqLen)
  (enough : getNumNewPages pageSize reqs ≤ freePages.length) (out : ℕ → ℤ)

include grows enough out in
/-- The naive loop assigns the slots of the batch. -/
theorem allocExtendNaive_eq : allocExtendNaive pageSize freePages reqs out =
      assignSlice out 0 (batchIndices pageSize freePages reqs reqs.length) := by
  have upTo : ∀ count ≤ reqs.length,
      (range count).foldl (allocExtendNaiveStep pageSize freePages reqs) out =
        assignSlice out 0 (batchIndices pageSize freePages reqs count) := by
    intro count
    induction count with
    | zero => exact fun _ => rfl
    | succ i ih =>
      intro inside
      rw [range_succ, foldl_append, ih (by omega), foldl_cons, foldl_nil,
        allocExtendNaiveStep_eq positive _ inside (grows _ (getElem_mem inside))
          ((newPageStart_succ_le inside).trans enough),
        batchIndices_succ freePages inside, ← assignSlice_append,
        length_batchIndices freePages (by omega), zero_add]
  exact upTo reqs.length le_rfl

/-- The output cell of a position of the `i`-th sequence. -/
def outputCell (reqs : List ExtendReq) (i position : ℕ) : ℕ :=
  outputStart reqs i + (position - (reqs.getD i ⟨0, 0, -1⟩).prefixLen)

include grows enough out in
/-- What the output cell of a position holds after the naive loop. -/
theorem naive_outputCell (inside : i < reqs.length) (behind : reqs[i].prefixLen ≤ position)
    (before : position < reqs[i].seqLen) :
    allocExtendNaive pageSize freePages reqs out (outputCell reqs i position) =
      extendIndex pageSize (freePages.drop (newPageStart pageSize reqs i)) reqs[i]
        (position - reqs[i].prefixLen) := by
  have self : reqs.getD i ⟨0, 0, -1⟩ = reqs[i] := by
    rw [getD_eq_getElem?_getD, getElem?_eq_getElem inside, Option.getD_some]
  have start := @length_batchIndices pageSize reqs freePages i inside.le
  have size : (extendIndices pageSize (freePages.drop (newPageStart pageSize reqs i))
      reqs[i]).length = reqs[i].seqLen - reqs[i].prefixLen := by simp [extendIndices]
  obtain ⟨later, parts⟩ : ∃ later, batchIndices pageSize freePages reqs reqs.length =
      batchIndices pageSize freePages reqs (i + 1) ++ later := by
    obtain ⟨rest, split⟩ := Nat.exists_eq_add_of_le (Nat.succ_le_of_lt inside)
    refine ⟨((range rest).map (i + 1 + ·)).flatMap fun i =>
      extendIndices pageSize (freePages.drop (newPageStart pageSize reqs i))
        (reqs.getD i ⟨0, 0, -1⟩), ?_⟩
    unfold batchIndices
    conv_lhs => rw [split, range_add, flatMap_append]
  have cell : outputCell reqs i position = 0 + (outputStart reqs i +
      (position - reqs[i].prefixLen)) := by
    rw [outputCell, self, zero_add]
  rw [allocExtendNaive_eq positive grows enough, cell, assignSlice, parts,
    batchIndices_succ freePages inside, append_assoc]
  rw [scatter_blockWrites _ _ (by simp only [length_append]; omega),
    getElem_append_right (by omega)]
  simp only [start]
  rw [getElem_append_left (by rw [size]; omega)]
  simp [extendIndices]

/-! ## Pages of the slots -/

/-- Entry `entry` of the free list holds a position of the `i`-th sequence. -/
def UsesEntry (pageSize : ℕ) (reqs : List ExtendReq) (i entry : ℕ) : Prop :=
  ∃ req ∈ reqs[i]?, ∃ position, pageCount pageSize req.prefixLen * pageSize ≤ position ∧
    position < req.seqLen ∧
    entry = newPageStart pageSize reqs i + (position / pageSize - pageCount pageSize req.prefixLen)

/-- A sequence uses the entries from its start to the next sequence's. -/
theorem usesEntry_iff (inside : i < reqs.length) : UsesEntry pageSize reqs i entry ↔
      newPageStart pageSize reqs i ≤ entry ∧ entry < newPageStart pageSize reqs (i + 1) := by
  rw [newPageStart_succ inside]
  unfold UsesEntry ExtendReq.numNewPages
  rw [getElem?_eq_getElem inside]
  constructor
  · rintro ⟨req, same, position, fresh, before, rfl⟩
    cases same
    have low := (pageCount_le_div_iff positive).mpr fresh
    have high := div_lt_pageCount positive before
    omega
  · rintro ⟨low, high⟩
    refine ⟨reqs[i], rfl, (pageCount pageSize reqs[i].prefixLen +
      (entry - newPageStart pageSize reqs i)) * pageSize, ?_, ?_, ?_⟩
    · exact Nat.mul_le_mul_right _ (Nat.le_add_right _ _)
    · refine (lt_pageCount_iff positive).mp ?_
      omega
    · rw [Nat.mul_div_cancel _ positive]
      omega

/-- Every entry below the number of new pages belongs to a sequence. -/
theorem exists_usesEntry (used : entry < getNumNewPages pageSize reqs) :
    ∃ i, i < reqs.length ∧ UsesEntry pageSize reqs i entry := by
  have upTo : ∀ count ≤ reqs.length, entry < newPageStart pageSize reqs count →
      ∃ i, i < count ∧ UsesEntry pageSize reqs i entry := by
    intro count
    induction count with
    | zero =>
      intro _ below
      simp [newPageStart, getNumNewPages] at below
    | succ i ih =>
      intro inside below
      by_cases earlier : entry < newPageStart pageSize reqs i
      · obtain ⟨j, less, uses⟩ := ih (by omega) earlier
        exact ⟨j, by omega, uses⟩
      · exact ⟨i, by omega, (usesEntry_iff positive inside).mpr ⟨not_lt.mp earlier, below⟩⟩
  refine upTo reqs.length le_rfl ?_
  rwa [newPageStart, take_length]

/-- No two sequences share an entry. -/
theorem usesEntry_unique (first : i < reqs.length)
    (second : j < reqs.length) (usesFirst : UsesEntry pageSize reqs i entry)
    (usesSecond : UsesEntry pageSize reqs j entry) : i = j := by
  obtain ⟨lowFirst, highFirst⟩ := (usesEntry_iff positive first).mp usesFirst
  obtain ⟨lowSecond, highSecond⟩ := (usesEntry_iff positive second).mp usesSecond
  rcases lt_trichotomy i j with less | same | greater
  · have := @newPageStart_mono pageSize (i + 1) j reqs less
    omega
  · exact same
  · have := @newPageStart_mono pageSize (j + 1) i reqs greater
    omega

/-- The slot of a position: behind the last slot of the sequence while its last page has room,
and on its own offset in the page of its entry afterwards. -/
structure Placed (pageSize : ℕ) (freePages : List ℕ) (reqs : List ExtendReq) (i position : ℕ)
    (req : ExtendReq) (index : ℤ) : Prop where
  congruent : index % (pageSize : ℤ) = (position : ℤ) % (pageSize : ℤ)
  continues : position < pageCount pageSize req.prefixLen * pageSize →
    index = req.lastLoc + 1 + (position - req.prefixLen : ℕ)
  fresh : pageCount pageSize req.prefixLen * pageSize ≤ position →
    ∃ entry page, UsesEntry pageSize reqs i entry ∧ freePages[entry]? = some page ∧
      index = page * pageSize + position % pageSize

/-- Every position is placed. -/
theorem placed_extendIndex
    (enough : getNumNewPages pageSize reqs ≤ freePages.length) (inside : i < reqs.length)
    (aligned : (reqs[i].lastLoc + 1) % (pageSize : ℤ) = (reqs[i].prefixLen : ℤ) % (pageSize : ℤ))
    (behind : reqs[i].prefixLen ≤ position) (before : position < reqs[i].seqLen) :
    Placed pageSize freePages reqs i position reqs[i]
      (extendIndex pageSize (freePages.drop (newPageStart pageSize reqs i)) reqs[i]
        (position - reqs[i].prefixLen)) := by
  have restored : reqs[i].prefixLen + (position - reqs[i].prefixLen) = position := by omega
  by_cases room : position < pageCount pageSize reqs[i].prefixLen * pageSize
  · have value : extendIndex pageSize (freePages.drop (newPageStart pageSize reqs i)) reqs[i]
        (position - reqs[i].prefixLen) =
        reqs[i].lastLoc + 1 + (position - reqs[i].prefixLen : ℕ) := by
      rw [extendIndex, restored, if_pos room]
    refine ⟨?_, fun _ => value, fun fresh => absurd room (not_lt.mpr fresh)⟩
    have shifted : (position : ℤ) = reqs[i].prefixLen + (position - reqs[i].prefixLen : ℕ) := by
      omega
    rw [value, shifted, Int.add_emod, aligned, ← Int.add_emod]
  · have entryUses : UsesEntry pageSize reqs i (newPageStart pageSize reqs i +
        (position / pageSize - pageCount pageSize reqs[i].prefixLen)) :=
      ⟨reqs[i], by rw [getElem?_eq_getElem inside]; rfl, position, not_lt.mp room, before, rfl⟩
    have bound := ((usesEntry_iff positive inside).mp entryUses).2
    have last := @newPageStart_succ_le pageSize reqs i inside
    have available : newPageStart pageSize reqs i +
        (position / pageSize - pageCount pageSize reqs[i].prefixLen) < freePages.length := by
      omega
    have value : extendIndex pageSize (freePages.drop (newPageStart pageSize reqs i)) reqs[i]
        (position - reqs[i].prefixLen) =
        (freePages[newPageStart pageSize reqs i +
          (position / pageSize - pageCount pageSize reqs[i].prefixLen)] : ℤ) * pageSize +
          position % pageSize := by
      rw [extendIndex, extendSlot, restored, if_neg room, if_neg room,
        getD_eq_getElem?_getD, getElem?_drop, getElem?_eq_getElem available]
      rfl
    refine ⟨?_, fun continues => absurd continues room, fun _ => ⟨_, _, entryUses,
      getElem?_eq_getElem available, value⟩⟩
    rw [value, Int.mul_add_emod_self_right, Int.emod_emod_of_dvd _ (dvd_refl _)]

end

/-! ## Slots of different sequences -/

/-- A partly filled last page that receives tokens belongs to one sequence and is not free,
and the entries taken from the free list are distinct. -/
structure OwnPages (pageSize : ℕ) (freePages : List ℕ) (reqs : List ExtendReq) : Prop where
  entries : (freePages.take (getNumNewPages pageSize reqs)).Nodup
  notFree : ∀ req ∈ reqs, req.prefixLen % pageSize ≠ 0 → req.prefixLen < req.seqLen →
    ∀ page ∈ freePages.take (getNumNewPages pageSize reqs), req.lastLoc / pageSize ≠ page
  single : ∀ (i j : ℕ) (first second : ExtendReq), reqs[i]? = some first → reqs[j]? = some second →
    i ≠ j → first.prefixLen % pageSize ≠ 0 → first.prefixLen < first.seqLen →
    second.prefixLen % pageSize ≠ 0 → second.prefixLen < second.seqLen →
    first.lastLoc / pageSize ≠ second.lastLoc / pageSize

/-- The page of a position behind the last slot is the page of that slot, and it was partly
filled. -/
theorem page_of_continues (positive : 0 < pageSize)
    (aligned : (req.lastLoc + 1) % (pageSize : ℤ) = (req.prefixLen : ℤ) % (pageSize : ℤ))
    (behind : req.prefixLen ≤ position)
    (room : position < pageCount pageSize req.prefixLen * pageSize) : req.prefixLen % pageSize ≠ 0 ∧
      (req.lastLoc + 1 + (position - req.prefixLen : ℕ)) / (pageSize : ℤ) =
        req.lastLoc / pageSize := by
  have cut : req.prefixLen % pageSize ≠ 0 := by
    intro whole
    rw [pageCount_mul_of_dvd positive (Nat.dvd_of_mod_eq_zero whole)] at room
    omega
  refine ⟨cut, ?_⟩
  have rounded := pageCount_of_mod_pos positive (pos_of_ne_zero cut)
  have whole := Nat.div_add_mod' req.prefixLen pageSize
  rw [rounded, add_mul] at room
  have offset : (req.lastLoc + 1) % (pageSize : ℤ) = (req.prefixLen % pageSize : ℕ) := by
    rw [aligned]
    rfl
  have split := Int.mul_ediv_add_emod (req.lastLoc + 1) pageSize
  have size : (0 : ℤ) < pageSize := by exact_mod_cast positive
  generalize (req.lastLoc + 1) / (pageSize : ℤ) = page at split
  have left : (req.lastLoc + 1 + (position - req.prefixLen : ℕ)) / (pageSize : ℤ) = page := by
    refine Int.ediv_eq_iff_of_pos size |>.mpr ⟨?_, ?_⟩
    · linarith [Int.mul_comm page pageSize]
    · have : ((req.prefixLen % pageSize : ℕ) : ℤ) + (position - req.prefixLen : ℕ) < pageSize := by
        omega
      linarith [Int.mul_comm page pageSize]
  have right : req.lastLoc / (pageSize : ℤ) = page := by
    refine Int.ediv_eq_iff_of_pos size |>.mpr ⟨?_, ?_⟩
    · have : (1 : ℤ) ≤ ((req.prefixLen % pageSize : ℕ) : ℤ) := by omega
      linarith [Int.mul_comm page pageSize]
    · linarith [Int.mul_comm page pageSize]
  rw [left, right]

/-- The page of a placed position is the partly filled last page of its sequence, or an entry
of the free list that the sequence uses. -/
theorem Placed.page_cases (positive : 0 < pageSize) (inside : i < reqs.length)
    (aligned : (reqs[i].lastLoc + 1) % (pageSize : ℤ) = (reqs[i].prefixLen : ℤ) % (pageSize : ℤ))
    (behind : reqs[i].prefixLen ≤ position) {index : ℤ}
    (placed : Placed pageSize freePages reqs i position reqs[i] index) :
    reqs[i].prefixLen % pageSize ≠ 0 ∧ index / (pageSize : ℤ) = reqs[i].lastLoc / pageSize ∨
      ∃ entry page : ℕ, UsesEntry pageSize reqs i entry ∧
        (freePages.take (getNumNewPages pageSize reqs))[entry]? = some page ∧
        index / (pageSize : ℤ) = page := by
  rcases lt_or_ge position (pageCount pageSize reqs[i].prefixLen * pageSize) with room | fresh
  · rw [placed.continues room]
    exact .inl (page_of_continues positive aligned behind room)
  · obtain ⟨entry, page, uses, found, rfl⟩ := placed.fresh fresh
    have bound := ((usesEntry_iff positive inside).mp uses).2
    have size : (pageSize : ℤ) ≠ 0 := by exact_mod_cast positive.ne'
    have small : ((position : ℤ) % pageSize) / pageSize = 0 :=
      Int.ediv_eq_zero_of_lt (Int.emod_nonneg _ size) (Int.emod_lt_of_pos _ (by omega))
    refine .inr ⟨entry, page, uses, ?_, ?_⟩
    · rw [getElem?_take, if_pos (bound.trans_le (newPageStart_succ_le inside))]
      exact found
    · rw [Int.add_comm, Int.add_mul_ediv_right _ _ size, small, Int.zero_add]

/-- The pages of two placed positions of different sequences differ. -/
theorem Placed.ne (positive : 0 < pageSize)
    (aligned : ∀ req ∈ reqs,
      (req.lastLoc + 1) % (pageSize : ℤ) = (req.prefixLen : ℤ) % (pageSize : ℤ))
    (own : OwnPages pageSize freePages reqs) (different : i ≠ j) (first : i < reqs.length)
    (second : j < reqs.length) {p q : ℕ} (behindFirst : reqs[i].prefixLen ≤ p)
    (beforeFirst : p < reqs[i].seqLen) (behindSecond : reqs[j].prefixLen ≤ q)
    (beforeSecond : q < reqs[j].seqLen) {a b : ℤ}
    (placedFirst : Placed pageSize freePages reqs i p reqs[i] a)
    (placedSecond : Placed pageSize freePages reqs j q reqs[j] b) : a ≠ b := by
  intro same
  subst same
  have growsFirst := behindFirst.trans_lt beforeFirst
  have growsSecond := behindSecond.trans_lt beforeSecond
  rcases placedFirst.page_cases positive first (aligned _ (getElem_mem first)) behindFirst with
    ⟨cutFirst, pageFirst⟩ | ⟨entryFirst, freshFirst, usesFirst, foundFirst, pageFirst⟩ <;>
  rcases placedSecond.page_cases positive second (aligned _ (getElem_mem second))
    behindSecond with ⟨cut, page⟩ | ⟨entry, fresh, uses, found, page⟩
  · exact own.single i j _ _ (getElem?_eq_getElem first) (getElem?_eq_getElem second)
      different cutFirst growsFirst cut growsSecond (pageFirst.symm.trans page)
  · exact own.notFree _ (getElem_mem first) cutFirst growsFirst fresh
      (mem_of_getElem? found) (pageFirst.symm.trans page)
  · exact own.notFree _ (getElem_mem second) cut growsSecond freshFirst
      (mem_of_getElem? foundFirst) (page.symm.trans pageFirst)
  · obtain rfl : freshFirst = fresh := by exact_mod_cast pageFirst.symm.trans page
    obtain rfl : entryFirst = entry :=
      (getElem?_inj (List.getElem?_eq_some_iff.mp foundFirst).1 own.entries).mp
        (foundFirst.trans found.symm)
    exact different (usesEntry_unique positive first second usesFirst uses)

/-- A sequence that fills its last page, a whole page and a part of another one, and a sequence
that stays inside its own last page. -/
def twoReqs : List ExtendReq := [⟨2, 9, 21⟩, ⟨5, 7, 40⟩]

/-- They share no page. -/
theorem ownPages_twoReqs : OwnPages 4 [7, 3, 9] twoReqs := by
  refine ⟨by decide, by decide, fun i j first second foundFirst foundSecond different => ?_⟩
  have insideFirst : i < 2 := (List.getElem?_eq_some_iff.mp foundFirst).1
  have insideSecond : j < 2 := (List.getElem?_eq_some_iff.mp foundSecond).1
  interval_cases i <;> interval_cases j <;> cases foundFirst <;> cases foundSecond
  all_goals simp at different ⊢

end AvaServe.Memory
