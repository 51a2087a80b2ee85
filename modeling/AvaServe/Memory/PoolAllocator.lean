import AvaServe.Foundation.Paging

/-!
# Page pools

The allocators that hand out indices into a key-value pool: the token allocator
(pages of one token) and the paged allocator, with their free lists, the
release list that a sorting pool merges lazily, and the groups that defer
frees. An allocation for extended sequences first fills the last page of each
sequence and then takes whole pages from the front of the free list.

Every operation is specified by the pages it moves between the pool and its
callers.
-/

namespace AvaServe.Memory

open Foundation List
open Multiset (coe_nil coe_add mem_add mem_coe nodup_add coe_nodup disjoint_left card)

/-- The state of a pool. Slot zero is padding and belongs to no page of the
pool, so pages count from one. -/
structure PoolAllocator where
  size : ℕ
  pageSize : ℕ
  needSort : Bool
  freePages : List ℕ
  releasePages : List ℕ
  freeGroup : Option (List (List ℕ))
  freePageRepsGroup : List (List ℕ)
  deriving DecidableEq, Repr

/-- One sequence of an extend allocation: its length before and after, and the
slot of its last token, minus one for an empty sequence. -/
structure ExtendReq where
  prefixLen : ℕ
  seqLen : ℕ
  lastLoc : ℤ
  deriving DecidableEq, Repr

/-- The pages that a sequence takes from the pool. -/
def ExtendReq.numNewPages (pageSize : ℕ) (req : ExtendReq) : ℕ :=
  pageCount pageSize req.seqLen - pageCount pageSize req.prefixLen

/-- The pages that a batch of extended sequences takes. -/
def getNumNewPages (pageSize : ℕ) (reqs : List ExtendReq) : ℕ :=
  (reqs.map (ExtendReq.numNewPages pageSize)).sum

/-- The pages that a decode step takes, one for each sequence that enters a page. -/
def getNumNewPagesDecode (pageSize : ℕ) (seqLens : List ℕ) : ℕ :=
  seqLens.countP fun seqLen => decide (seqLen % pageSize = 1)

/-- The slots of one extended sequence: the rest of its last page, then whole
pages, then the head of a last partial page. -/
def allocExtendRow (pageSize : ℕ) (freePages : List ℕ) (newPageStart : ℕ) (req : ExtendReq) :
    List ℕ :=
  let numPart1 := min req.seqLen (pageCount pageSize req.prefixLen * pageSize) - req.prefixLen
  let part1 := (range numPart1).map fun offset => (req.lastLoc + 1).toNat + offset
  if req.prefixLen + numPart1 = req.seqLen then part1
  else
    let numPart2 := req.seqLen / pageSize * pageSize - pageCount pageSize req.prefixLen * pageSize
    let part2 := (range numPart2).map fun offset =>
      freePages.getD (newPageStart + offset / pageSize) 0 * pageSize + offset % pageSize
    if req.prefixLen + numPart1 + numPart2 = req.seqLen then part1 ++ part2
    else
      let numPart3 := req.seqLen - req.seqLen / pageSize * pageSize
      let page := freePages.getD (newPageStart + req.numNewPages pageSize - 1) 0
      part1 ++ part2 ++ (range numPart3).map fun offset => page * pageSize + offset

/-- The slots of all sequences of a batch; each one takes its pages after those
of the sequences before it. The flat output is the concatenation of the rows. -/
def allocExtendKernel (pageSize : ℕ) (freePages : List ℕ) :
    (newPageStart : ℕ) → List ExtendReq → List (List ℕ)
  | _, [] => []
  | newPageStart, req :: rest =>
    allocExtendRow pageSize freePages newPageStart req ::
      allocExtendKernel pageSize freePages (newPageStart + req.numNewPages pageSize) rest

/-- One sequence of a decode step: its length including the new token, and the
slot of the token before it. -/
structure DecodeReq where
  seqLen : ℕ
  lastLoc : ℤ
  deriving DecidableEq, Repr

/-- `alloc_decode_kernel`: the program for each request. -/
def allocDecodeKernel (pageSize : ℕ) (freePages : List ℕ) :
    (newPageStart : ℕ) → List DecodeReq → List ℕ
  | _, [] => []
  | newPageStart, req :: rest =>
    let numNewPages := pageCount pageSize req.seqLen - pageCount pageSize (req.seqLen - 1)
    let slot :=
      if numNewPages = 0 then (req.lastLoc + 1).toNat
      else freePages.getD newPageStart 0 * pageSize
    slot :: allocDecodeKernel pageSize freePages (newPageStart + numNewPages) rest

/-- The distinct pages of a list of slots, in order. -/
def uniquePages (pageSize : ℕ) (indices : List ℕ) : List ℕ :=
  ((indices.map (· / pageSize)).dedup).insertionSort (· ≤ ·)

namespace PoolAllocator

variable (pool : PoolAllocator)

/-- `num_pages`. -/
def numPages : ℕ := pool.size / pool.pageSize

/-- `available_size`. -/
def availableSize : ℕ := (pool.freePages.length + pool.releasePages.length) * pool.pageSize

/-- A pool with all of its pages free. -/
def clear (size pageSize : ℕ) (needSort : Bool) : PoolAllocator :=
  { size := size
    pageSize := pageSize
    needSort := needSort
    freePages := range' 1 (size / pageSize)
    releasePages := []
    freeGroup := none
    freePageRepsGroup := [] }

/-- `merge_and_sort_free`. -/
def mergeAndSortFree : PoolAllocator :=
  if 0 < pool.releasePages.length then
    { pool with
      freePages := (pool.freePages ++ pool.releasePages).insertionSort (· ≤ ·)
      releasePages := [] }
  else pool

/-- A sorting pool merges its release list when the free list may be too short. -/
def mergeIfShort (wanted : ℕ) : PoolAllocator :=
  if pool.needSort ∧ pool.freePages.length < wanted then pool.mergeAndSortFree else pool

/-- Hand out the first pages of the free list. -/
def takePages (count : ℕ) : PoolAllocator := { pool with freePages := pool.freePages.drop count }

/-- Page-aligned allocation of whole pages. -/
def alloc (needSize : ℕ) : Option (List ℕ) × PoolAllocator :=
  let numPages := needSize / pool.pageSize
  let pool := pool.mergeIfShort numPages
  if pool.freePages.length < numPages then (none, pool)
  else
    (some ((pool.freePages.take numPages).flatMap fun page =>
        (range pool.pageSize).map fun offset => page * pool.pageSize + offset),
      pool.takePages numPages)

/-- `alloc_extend`. -/
def allocExtend (reqs : List ExtendReq) : Option (List (List ℕ)) × PoolAllocator :=
  let extendNumTokens := (reqs.map fun req => req.seqLen - req.prefixLen).sum
  let pool := pool.mergeIfShort (extendNumTokens / pool.pageSize + reqs.length + 1)
  let outIndices := allocExtendKernel pool.pageSize pool.freePages 0 reqs
  let numNewPages := getNumNewPages pool.pageSize reqs
  if pool.freePages.length < numNewPages then (none, pool)
  else (some outIndices, pool.takePages numNewPages)

/-- `alloc_decode`. -/
def allocDecode (reqs : List DecodeReq) : Option (List ℕ) × PoolAllocator :=
  let pool := pool.mergeIfShort reqs.length
  let outIndices := allocDecodeKernel pool.pageSize pool.freePages 0 reqs
  let numNewPages := getNumNewPagesDecode pool.pageSize (reqs.map DecodeReq.seqLen)
  if pool.freePages.length < numNewPages then (none, pool)
  else (some outIndices, pool.takePages numNewPages)

/-- Put pages back, on the release list of a sorting pool. -/
def releasePageIds (pageIds : List ℕ) : PoolAllocator :=
  if pool.needSort then { pool with releasePages := pageIds ++ pool.releasePages }
  else { pool with freePages := pageIds ++ pool.freePages }

/-- Free the pages of the given slots, now or at the end of the group. -/
def free (freeIndex : List ℕ) : PoolAllocator :=
  if freeIndex.length = 0 then pool
  else
    match pool.freeGroup with
    | none => pool.releasePageIds (uniquePages pool.pageSize freeIndex)
    | some group => { pool with freeGroup := some (group ++ [freeIndex]) }

/-- Every `stride`-th element, from the first one on. -/
def everyNth (stride : ℕ) (list : List ℕ) : List ℕ :=
  (range (pageCount stride list.length)).map fun i => list.getD (i * stride) 0

/-- The slots that represent the pages of a piece of a sequence's row which
starts at position `startPos`: the first slot when it is inside a page, and the
slots on page boundaries. -/
def pageRepresentatives (pageSize : ℕ) (freeIndex : List ℕ) (startPos : ℕ) : List (List ℕ) :=
  let offset := startPos % pageSize
  if offset = 0 then [everyNth pageSize freeIndex]
  else [freeIndex.take 1, everyNth pageSize (freeIndex.drop (pageSize - offset))]

/-- Free a piece of a sequence's row without deduplicating its slots. -/
def freeSegment (freeIndex : List ℕ) (startPos : ℕ) : PoolAllocator :=
  if freeIndex.length = 0 then pool
  else
    let pieces := pageRepresentatives pool.pageSize freeIndex startPos
    match pool.freeGroup with
    | none => pool.releasePageIds (pieces.flatten.map (· / pool.pageSize))
    | some _ => { pool with freePageRepsGroup := pool.freePageRepsGroup ++ pieces }

/-- Free ascending pieces of one row; a page that two consecutive pieces share
is freed with the first of them. -/
def freeSegments (segments : List (List ℕ × ℕ)) : PoolAllocator := go pool none segments
where
  go (pool : PoolAllocator) (prevEnd : Option ℕ) : List (List ℕ × ℕ) → PoolAllocator
    | [] => pool
    | (freeIndex, startPos) :: rest =>
      if freeIndex.length = 0 then go pool prevEnd rest
      else
        let segEnd := startPos + freeIndex.length
        let shared := prevEnd.any fun prevEnd =>
          decide (startPos / pool.pageSize = (prevEnd - 1) / pool.pageSize)
        let boundary := (startPos / pool.pageSize + 1) * pool.pageSize
        let trimmed : List ℕ × ℕ :=
          if shared then (freeIndex.drop (boundary - startPos), boundary)
          else (freeIndex, startPos)
        go (pool.freeSegment trimmed.1 trimmed.2) (some segEnd) rest

/-- `free_group_begin`. -/
def freeGroupBegin : PoolAllocator := { pool with freeGroup := some [], freePageRepsGroup := [] }

/-- `free_group_end`. -/
def freeGroupEnd : PoolAllocator :=
  let pending := pool.freeGroup.getD []
  let pool := { pool with freeGroup := none }
  let pool := if pending.isEmpty then pool else pool.free pending.flatten
  if pool.freePageRepsGroup.isEmpty then pool
  else
    { pool.releasePageIds (pool.freePageRepsGroup.flatten.map (· / pool.pageSize)) with
      freePageRepsGroup := [] }

/-- The free list of the token allocator gives out single slots. -/
def tokenAlloc (needSize : ℕ) : Option (List ℕ) × PoolAllocator :=
  let pool := pool.mergeIfShort needSize
  if pool.freePages.length < needSize then (none, pool)
  else (some (pool.freePages.take needSize), pool.takePages needSize)

/-- The token allocator appends freed slots without deduplicating them. -/
def tokenFree (freeIndex : List ℕ) : PoolAllocator :=
  if freeIndex.length = 0 then pool
  else
    match pool.freeGroup with
    | none =>
      if pool.needSort then { pool with releasePages := pool.releasePages ++ freeIndex }
      else { pool with freePages := pool.freePages ++ freeIndex }
    | some group => { pool with freeGroup := some (group ++ [freeIndex]) }

end PoolAllocator

/-! ## The slots of an extended sequence -/

/-- The slot of the `k`-th new token of a sequence that received `pages`: the
rest of the last page continues behind its last slot, and a position behind it
lies at its own offset in the page that its page number selects. -/
def extendSlot (pageSize : ℕ) (pages : List ℕ) (req : ExtendReq) (k : ℕ) : ℕ :=
  if req.prefixLen + k < pageCount pageSize req.prefixLen * pageSize then
    (req.lastLoc + 1).toNat + k
  else
    pages.getD ((req.prefixLen + k) / pageSize - pageCount pageSize req.prefixLen) 0 * pageSize +
      (req.prefixLen + k) % pageSize

/-- The slots of one sequence. -/
def extendSlots (pageSize : ℕ) (pages : List ℕ) (req : ExtendReq) : List ℕ :=
  (range (req.seqLen - req.prefixLen)).map (extendSlot pageSize pages req)

variable {pageSize : ℕ} (positive : 0 < pageSize) (pages : List ℕ) (req : ExtendReq)

include positive in
/-- Behind the last partial page, the `offset`-th slot is in the page that the
offset selects. -/
theorem extendSlot_new_page (offset : ℕ) : extendSlot pageSize pages req
        (pageCount pageSize req.prefixLen * pageSize - req.prefixLen + offset) =
      pages.getD (offset / pageSize) 0 * pageSize + offset % pageSize := by
  have covered := le_pageCount_mul positive req.prefixLen
  have position : req.prefixLen +
      (pageCount pageSize req.prefixLen * pageSize - req.prefixLen + offset) =
      offset + pageCount pageSize req.prefixLen * pageSize := by omega
  unfold extendSlot
  rw [if_neg (by omega), position, Nat.add_mul_mod_self_right,
    Nat.add_mul_div_right _ _ positive, Nat.add_sub_cancel]

section

variable {req} (past : pageCount pageSize req.prefixLen * pageSize < req.seqLen)
include positive past

/-- A sequence that reaches past its last page fills the pages up to its last one. -/
theorem pageCount_le_of_past : pageCount pageSize req.prefixLen ≤ req.seqLen / pageSize :=
  (Nat.le_div_iff_mul_le positive).mpr past.le

/-- A last page that is partly filled is the one behind the full ones. -/
theorem numNewPages_of_cut (cut : 0 < req.seqLen % pageSize) :
    req.numNewPages pageSize = req.seqLen / pageSize - pageCount pageSize req.prefixLen + 1 := by
  have whole := pageCount_le_of_past positive past
  rw [ExtendReq.numNewPages, pageCount_of_mod_pos positive cut]
  omega

/-- The tokens in the rest of the last page, in whole pages, and in a last partial page. -/
theorem extend_parts : min req.seqLen (pageCount pageSize req.prefixLen * pageSize) -
        req.prefixLen = pageCount pageSize req.prefixLen * pageSize - req.prefixLen ∧
      req.seqLen - req.seqLen / pageSize * pageSize = req.seqLen % pageSize ∧
      req.seqLen - req.prefixLen = pageCount pageSize req.prefixLen * pageSize - req.prefixLen +
        (req.seqLen / pageSize * pageSize - pageCount pageSize req.prefixLen * pageSize) +
        req.seqLen % pageSize ∧
      req.seqLen / pageSize * pageSize - pageCount pageSize req.prefixLen * pageSize =
        (req.seqLen / pageSize - pageCount pageSize req.prefixLen) * pageSize := by
  have covered := le_pageCount_mul positive req.prefixLen
  have whole := Nat.mul_le_mul_right pageSize (pageCount_le_of_past positive past)
  have lastPage := Nat.div_add_mod' req.seqLen pageSize
  exact ⟨by omega, by omega, by omega, (Nat.sub_mul ..).symm⟩

end

variable (freePages : List ℕ) (start : ℕ)

include positive in
/-- The three parts of the kernel put every position where `extendSlot` says. -/
theorem allocExtendRow_eq (req : ExtendReq) (grows : req.prefixLen ≤ req.seqLen) :
    allocExtendRow pageSize freePages start req =
      extendSlots pageSize (freePages.drop start) req := by
  have covered := le_pageCount_mul positive req.prefixLen
  have page (i : ℕ) : (freePages.drop start).getD i 0 = freePages.getD (start + i) 0 := by
    simp
  have inPart1 (k : ℕ) (inside : req.prefixLen + k < pageCount pageSize req.prefixLen * pageSize) :
      extendSlot pageSize (freePages.drop start) req k = (req.lastLoc + 1).toNat + k :=
    if_pos inside
  unfold allocExtendRow extendSlots
  dsimp only
  split
  next short =>
    have count : min req.seqLen (pageCount pageSize req.prefixLen * pageSize) - req.prefixLen =
        req.seqLen - req.prefixLen := by omega
    rw [count]
    refine map_congr_left fun k member => (inPart1 k ?_).symm
    have := mem_range.mp member
    omega
  next long =>
    -- the sequence reaches past the last page of its prefix
    have past : pageCount pageSize req.prefixLen * pageSize < req.seqLen := by omega
    obtain ⟨num1, num3, total, inner⟩ := extend_parts positive past
    rw [num1, num3, total, range_add, range_add]
    simp only [map_append, map_map]
    have part1 : ∀ k ∈ range (pageCount pageSize req.prefixLen * pageSize - req.prefixLen),
        (req.lastLoc + 1).toNat + k = extendSlot pageSize (freePages.drop start) req k := by
      intro k member
      refine (inPart1 k ?_).symm
      have := mem_range.mp member
      omega
    have part2 (offset : ℕ) : freePages.getD (start + offset / pageSize) 0 * pageSize +
        offset % pageSize = extendSlot pageSize (freePages.drop start) req
          (pageCount pageSize req.prefixLen * pageSize - req.prefixLen + offset) := by
      rw [extendSlot_new_page positive, page]
    rw [map_congr_left part1, map_congr_left fun offset _ => part2 offset]
    split
    next filled =>
      have none : req.seqLen % pageSize = 0 := by omega
      rw [none, range_zero, map_nil, append_nil]
      rfl
    next cut =>
      have cutPos : 0 < req.seqLen % pageSize := by omega
      congr 1
      refine map_congr_left fun offset member => ?_
      have small := (mem_range.mp member).trans (Nat.mod_lt req.seqLen positive)
      simp only [Function.comp_apply]
      rw [inner, add_assoc, extendSlot_new_page positive, page, slot_div small, slot_mod small,
        numNewPages_of_cut positive past cutPos, Nat.add_succ_sub_one]

include positive in
/-- A sequence reads only the pages it takes. -/
theorem extendSlots_take : extendSlots pageSize (pages.take (req.numNewPages pageSize)) req =
      extendSlots pageSize pages req := by
  refine map_congr_left fun k member => ?_
  have inside := mem_range.mp member
  unfold extendSlot
  split
  · rfl
  next past =>
    have index : (req.prefixLen + k) / pageSize - pageCount pageSize req.prefixLen <
        req.numNewPages pageSize := by
      have low := (pageCount_le_div_iff positive).mpr (not_lt.mp past)
      have high : (req.prefixLen + k) / pageSize < pageCount pageSize req.seqLen :=
        div_lt_pageCount positive (by omega)
      unfold ExtendReq.numNewPages
      omega
    simp [index]

/-- Cut a list of pages into the blocks that the sequences of a batch take. -/
def pageBlocks (pageSize : ℕ) : List ℕ → List ExtendReq → List (List ℕ)
  | _, [] => []
  | pages, req :: rest =>
    pages.take (req.numNewPages pageSize) ::
      pageBlocks pageSize (pages.drop (req.numNewPages pageSize)) rest

variable (reqs : List ExtendReq)

include positive in
/-- The kernel gives every sequence the slots of its own block of pages. -/
theorem allocExtendKernel_eq (grows : ∀ req ∈ reqs, req.prefixLen ≤ req.seqLen) :
    allocExtendKernel pageSize freePages start reqs =
      zipWith (extendSlots pageSize) (pageBlocks pageSize (freePages.drop start) reqs)
        reqs := by
  induction reqs generalizing start with
  | nil => rfl
  | cons req rest ih =>
    obtain ⟨head, tail⟩ := forall_mem_cons.mp grows
    simp only [allocExtendKernel, pageBlocks, zipWith_cons_cons]
    rw [allocExtendRow_eq positive _ _ _ head, extendSlots_take positive, ih _ tail, drop_drop]

/-- The blocks of new pages are the pages in order. -/
theorem flatten_pageBlocks :
    (pageBlocks pageSize pages reqs).flatten = pages.take (getNumNewPages pageSize reqs) := by
  induction reqs generalizing pages with
  | nil => simp [pageBlocks, getNumNewPages]
  | cons req rest ih =>
    simp only [pageBlocks, flatten_cons, ih, getNumNewPages, map_cons, sum_cons]
    rw [← take_add]

variable {reqs : List ExtendReq}

/-- With enough pages, every sequence gets as many as it takes. -/
theorem forall₂_pageBlocks {pages : List ℕ} (enough : getNumNewPages pageSize reqs ≤ pages.length) :
    Forall₂ (fun block req => block.length = req.numNewPages pageSize)
      (pageBlocks pageSize pages reqs) reqs := by
  induction reqs generalizing pages with
  | nil => exact .nil
  | cons req rest ih =>
    simp only [getNumNewPages, map_cons, sum_cons] at enough
    refine .cons ?_ (ih ?_)
    · rw [length_take]
      omega
    · rw [length_drop]
      exact Nat.le_sub_of_add_le' enough

/-! ## Decoding is extending by one token -/

/-- A decode step as an extension. -/
def DecodeReq.toExtendReq (req : DecodeReq) : ExtendReq :=
  { prefixLen := req.seqLen - 1, seqLen := req.seqLen, lastLoc := req.lastLoc }

include positive in
/-- A decode step is an extension by one slot. -/
theorem extendSlots_toExtendReq (req : DecodeReq) (nonempty : 0 < req.seqLen) :
    extendSlots pageSize pages req.toExtendReq =
      [if pageCount pageSize req.seqLen - pageCount pageSize (req.seqLen - 1) = 0 then
        (req.lastLoc + 1).toNat
      else pages.getD 0 0 * pageSize] := by
  have one : req.seqLen - (req.seqLen - 1) = 1 := by omega
  have covered := le_pageCount_mul positive (req.seqLen - 1)
  change (range (req.seqLen - (req.seqLen - 1))).map _ = _
  rw [one]
  change [extendSlot pageSize pages req.toExtendReq 0] = _
  congr 1
  split
  next same =>
    refine if_pos ?_
    have le : pageCount pageSize req.seqLen ≤ pageCount pageSize (req.seqLen - 1) := by omega
    rw [pageCount_le_iff positive] at le
    change req.seqLen - 1 + 0 < pageCount pageSize (req.seqLen - 1) * pageSize
    omega
  next enters =>
    have boundary : pageCount pageSize (req.seqLen - 1) * pageSize = req.seqLen - 1 := by
      have lt : pageCount pageSize (req.seqLen - 1) < pageCount pageSize req.seqLen := by omega
      rw [lt_pageCount_iff positive] at lt
      omega
    have first := extendSlot_new_page positive pages req.toExtendReq 0
    change extendSlot pageSize pages req.toExtendReq
      (pageCount pageSize (req.seqLen - 1) * pageSize - (req.seqLen - 1) + 0) = _ at first
    rw [boundary, Nat.sub_self, Nat.zero_div] at first
    exact first

include positive in
/-- The decode kernel gives every sequence the slot of its extension. -/
theorem allocDecodeKernel_eq (reqs : List DecodeReq) (nonempty : ∀ req ∈ reqs, 0 < req.seqLen) :
    (allocDecodeKernel pageSize freePages start reqs).map (fun slot => [slot]) =
      zipWith (extendSlots pageSize)
        (pageBlocks pageSize (freePages.drop start) (reqs.map DecodeReq.toExtendReq))
        (reqs.map DecodeReq.toExtendReq) := by
  induction reqs generalizing start with
  | nil => rfl
  | cons req rest ih =>
    obtain ⟨head, tail⟩ := forall_mem_cons.mp nonempty
    simp only [allocDecodeKernel, map_cons, pageBlocks, zipWith_cons_cons]
    rw [extendSlots_take positive, extendSlots_toExtendReq positive _ _ head, ih _ tail, drop_drop]
    congr 3
    simp

/-- With pages of more than one token, a decode step takes a page exactly when
the new token is the first of its page. -/
theorem numNewPages_toExtendReq (large : 1 < pageSize) (req : DecodeReq)
    (nonempty : 0 < req.seqLen) :
    req.toExtendReq.numNewPages pageSize = if req.seqLen % pageSize = 1 then 1 else 0 := by
  obtain ⟨seqLen, lastLoc⟩ := req
  obtain ⟨tokens, rfl⟩ := Nat.exists_eq_add_one_of_ne_zero nonempty.ne'
  have boundary : (tokens + 1) % pageSize = 1 ↔ tokens % pageSize = 0 := by
    have small := Nat.mod_lt tokens (by omega : 0 < pageSize)
    rw [Nat.add_mod, Nat.mod_eq_of_lt large]
    by_cases last : tokens % pageSize + 1 = pageSize
    · rw [last, Nat.mod_self]
      omega
    · rw [Nat.mod_eq_of_lt (by omega)]
      omega
  change pageCount pageSize (tokens + 1) - pageCount pageSize tokens =
    if (tokens + 1) % pageSize = 1 then 1 else 0
  rw [pageCount_succ (by omega), Nat.add_sub_cancel_left]
  simp [boundary]

/-- It needs as many pages. -/
theorem getNumNewPagesDecode_eq (large : 1 < pageSize) (reqs : List DecodeReq)
    (nonempty : ∀ req ∈ reqs, 0 < req.seqLen) :
    getNumNewPagesDecode pageSize (reqs.map DecodeReq.seqLen) =
      getNumNewPages pageSize (reqs.map DecodeReq.toExtendReq) := by
  unfold getNumNewPagesDecode getNumNewPages
  induction reqs with
  | nil => rfl
  | cons req rest ih =>
    obtain ⟨head, tail⟩ := forall_mem_cons.mp nonempty
    rw [map_cons, countP_cons, ih tail, map_cons, map_cons, sum_cons, add_comm]
    rw [numNewPages_toExtendReq large req head]
    simp

/-! ## Pages held by the pool -/

variable {page : ℕ} {indices : List ℕ}

/-- The pages of some indices. -/
theorem mem_uniquePages :
    page ∈ uniquePages pageSize indices ↔ ∃ index ∈ indices, index / pageSize = page := by
  unfold uniquePages
  rw [mem_insertionSort, mem_dedup, mem_map]

/-- Each page is listed once. -/
theorem nodup_uniquePages (pageSize : ℕ) (indices : List ℕ) :
    (uniquePages pageSize indices).Nodup := by
  unfold uniquePages
  rw [(perm_insertionSort _ _).nodup_iff]
  exact nodup_dedup _

namespace PoolAllocator

/-- The pages on the free and release lists. -/
def heldPages (pool : PoolAllocator) : Multiset ℕ :=
  (pool.freePages : Multiset ℕ) + (pool.releasePages : Multiset ℕ)

/-- An operation that only moves pages leaves the rest of the pool alone. -/
structure SameShape (pool next : PoolAllocator) : Prop where
  size : next.size = pool.size
  pageSize : next.pageSize = pool.pageSize
  needSort : next.needSort = pool.needSort
  freeGroup : next.freeGroup = pool.freeGroup
  freePageRepsGroup : next.freePageRepsGroup = pool.freePageRepsGroup

variable {pool next : PoolAllocator}

/-- The shape is kept twice. -/
theorem SameShape.trans {middle : PoolAllocator} (first : SameShape pool middle)
    (second : SameShape middle next) : SameShape pool next :=
  ⟨second.size.trans first.size, second.pageSize.trans first.pageSize,
    second.needSort.trans first.needSort, second.freeGroup.trans first.freeGroup,
    second.freePageRepsGroup.trans first.freePageRepsGroup⟩

/-- A merge keeps the shape. -/
theorem sameShape_mergeIfShort (pool : PoolAllocator) (wanted : ℕ) :
    SameShape pool (pool.mergeIfShort wanted) := by
  unfold mergeIfShort mergeAndSortFree
  split
  · split <;> exact ⟨rfl, rfl, rfl, rfl, rfl⟩
  · exact ⟨rfl, rfl, rfl, rfl, rfl⟩

/-- A merge keeps the pages. -/
theorem heldPages_mergeIfShort (pool : PoolAllocator) (wanted : ℕ) :
    (pool.mergeIfShort wanted).heldPages = pool.heldPages := by
  unfold mergeIfShort mergeAndSortFree
  split
  · split
    · unfold heldPages
      rw [coe_nil, add_zero]
      exact Multiset.coe_eq_coe.mpr (perm_insertionSort _ _)
    · rfl
  · rfl

/-- Taken pages are no longer held. -/
theorem heldPages_takePages (pool : PoolAllocator) (count : ℕ) : pool.heldPages =
      (pool.freePages.take count : Multiset ℕ) + (pool.takePages count).heldPages := by
  change (pool.freePages : Multiset ℕ) + pool.releasePages =
    (pool.freePages.take count : Multiset ℕ) +
      ((pool.freePages.drop count : Multiset ℕ) + pool.releasePages)
  rw [← add_assoc, coe_add (pool.freePages.take count), take_append_drop]

/-- An allocation that gives out nothing leaves the pages where they are. -/
structure Refused (pool next : PoolAllocator) : Prop where
  shape : SameShape pool next
  held : next.heldPages = pool.heldPages

/-- Nothing is taken. -/
theorem refused_refl (pool : PoolAllocator) : Refused pool pool := ⟨⟨rfl, rfl, rfl, rfl, rfl⟩, rfl⟩

/-- A merge takes nothing. -/
theorem refused_mergeIfShort (pool : PoolAllocator) (wanted : ℕ) :
    Refused pool (pool.mergeIfShort wanted) :=
  ⟨sameShape_mergeIfShort pool wanted, heldPages_mergeIfShort pool wanted⟩

/-- An allocation moves `pages` from the pool to the caller. -/
structure Took (pool next : PoolAllocator) (pages : List ℕ) : Prop where
  shape : SameShape pool next
  held : pool.heldPages = (pages : Multiset ℕ) + next.heldPages

/-- The pages at the front are taken. -/
theorem took_takePages (pool : PoolAllocator) (wanted count : ℕ) :
    Took pool ((pool.mergeIfShort wanted).takePages count)
      ((pool.mergeIfShort wanted).freePages.take count) := by
  refine ⟨(sameShape_mergeIfShort pool wanted).trans ⟨rfl, rfl, rfl, rfl, rfl⟩, ?_⟩
  rw [← heldPages_mergeIfShort pool wanted]
  exact heldPages_takePages _ count

/-- What an extend allocation does: it hands every sequence its own block of
pages and returns the slots of the new tokens, or it refuses. -/
inductive ExtendOutcome (pool next : PoolAllocator) (reqs : List ExtendReq) :
    Option (List (List ℕ)) → Prop
  | refused : Refused pool next → ExtendOutcome pool next reqs none
  | took (blocks : List (List ℕ)) : Took pool next blocks.flatten →
      Forall₂ (fun block req => block.length = req.numNewPages pool.pageSize) blocks reqs →
      ExtendOutcome pool next reqs
        (some (zipWith (extendSlots pool.pageSize) blocks reqs))

/-- An extension serves all requests or none. -/
theorem allocExtend_outcome (positive : 0 < pool.pageSize)
    (grows : ∀ req ∈ reqs, req.prefixLen ≤ req.seqLen) :
    ExtendOutcome pool (pool.allocExtend reqs).2 reqs (pool.allocExtend reqs).1 := by
  unfold allocExtend
  dsimp only
  generalize (reqs.map fun req => req.seqLen - req.prefixLen).sum / pool.pageSize +
    reqs.length + 1 = wanted
  have shape := sameShape_mergeIfShort pool wanted
  rw [shape.pageSize]
  split
  · exact .refused (refused_mergeIfShort pool wanted)
  next enough =>
    rw [allocExtendKernel_eq positive _ _ _ grows]
    refine .took _ ?_ (forall₂_pageBlocks (not_lt.mp enough))
    rw [flatten_pageBlocks]
    exact took_takePages pool wanted _

/-- Whatever it answers, an extend allocation only moves pages to the caller. -/
theorem ExtendOutcome.exists_took {answer : Option (List (List ℕ))}
    (outcome : ExtendOutcome pool next reqs answer) : ∃ pages : List ℕ, Took pool next pages := by
  cases outcome with
  | refused refused => exact ⟨[], refused.shape, refused.held.symm.trans (zero_add _).symm⟩
  | took blocks took _ => exact ⟨blocks.flatten, took⟩

/-- One extended sequence gets one block of pages. -/
theorem allocExtend_one (positive : 0 < pool.pageSize) {req : ExtendReq}
    (grows : req.prefixLen ≤ req.seqLen) {rows : List (List ℕ)}
    (allocated : pool.allocExtend [req] = (some rows, next)) :
    ∃ block : List ℕ, Took pool next block ∧ block.length = req.numNewPages pool.pageSize ∧
      rows = [extendSlots pool.pageSize block req] := by
  have outcome := allocExtend_outcome positive (forall_mem_singleton.mpr grows)
  rw [allocated] at outcome
  cases outcome with
  | took blocks took lens =>
    cases lens with
    | cons len rest =>
      cases rest
      rw [flatten_cons, flatten_nil, append_nil] at took
      exact ⟨_, took, len, rfl⟩

/-- So does a decode step. -/
theorem allocDecode_outcome (large : 1 < pool.pageSize) {reqs : List DecodeReq}
    (nonempty : ∀ req ∈ reqs, 0 < req.seqLen) :
    ExtendOutcome pool (pool.allocDecode reqs).2 (reqs.map DecodeReq.toExtendReq)
      ((pool.allocDecode reqs).1.map (map fun slot => [slot])) := by
  have positive : 0 < pool.pageSize := by omega
  unfold allocDecode
  dsimp only
  have shape := sameShape_mergeIfShort pool reqs.length
  rw [shape.pageSize, getNumNewPagesDecode_eq large reqs nonempty]
  split
  · exact .refused (refused_mergeIfShort pool reqs.length)
  next enough =>
    rw [Option.map_some, allocDecodeKernel_eq positive _ _ _ nonempty]
    refine .took _ ?_ (forall₂_pageBlocks (not_lt.mp enough))
    rw [flatten_pageBlocks]
    exact took_takePages pool reqs.length _

/-- What an allocation of whole pages or single slots does. -/
inductive AllocOutcome (pool next : PoolAllocator) (count : ℕ) (slots : List ℕ → List ℕ) :
    Option (List ℕ) → Prop
  | refused : Refused pool next → AllocOutcome pool next count slots none
  | took (pages : List ℕ) : Took pool next pages → pages.length = count →
      AllocOutcome pool next count slots (some (slots pages))

/-- So does an allocation of tokens. -/
theorem tokenAlloc_outcome (pool : PoolAllocator) (needSize : ℕ) :
    AllocOutcome pool (pool.tokenAlloc needSize).2 needSize id
      (pool.tokenAlloc needSize).1 := by
  unfold tokenAlloc
  dsimp only
  split
  · exact .refused (refused_mergeIfShort pool needSize)
  next enough =>
    exact .took _ (took_takePages pool needSize needSize)
      (length_take_of_le (not_lt.mp enough))

/-- A free moves `pages` from the caller back to the pool. -/
structure Returned (pool next : PoolAllocator) (pages : List ℕ) : Prop where
  shape : SameShape pool next
  held : next.heldPages = (pages : Multiset ℕ) + pool.heldPages

/-- Nothing is returned. -/
theorem returned_nil (pool : PoolAllocator) : Returned pool pool [] :=
  ⟨⟨rfl, rfl, rfl, rfl, rfl⟩, (zero_add _).symm⟩

/-- Released pages are returned. -/
theorem returned_releasePageIds (pool : PoolAllocator) (pageIds : List ℕ) :
    Returned pool (pool.releasePageIds pageIds) pageIds := by
  unfold releasePageIds
  split
  · refine ⟨⟨rfl, rfl, rfl, rfl, rfl⟩, ?_⟩
    change (pool.freePages : Multiset ℕ) + ↑(pageIds ++ pool.releasePages) = _
    rw [← coe_add, add_left_comm]
    rfl
  · refine ⟨⟨rfl, rfl, rfl, rfl, rfl⟩, ?_⟩
    change ((pageIds ++ pool.freePages : List ℕ) : Multiset ℕ) + pool.releasePages = _
    rw [← coe_add, add_assoc]
    rfl

/-- Outside a group, a free returns the distinct pages of its slots. -/
theorem returned_free (ungrouped : pool.freeGroup = none) (freeIndex : List ℕ) :
    Returned pool (pool.free freeIndex) (uniquePages pool.pageSize freeIndex) := by
  unfold free
  split
  next empty =>
    obtain rfl := length_eq_zero_iff.mp empty
    exact returned_nil pool
  · rw [ungrouped]
    exact returned_releasePageIds pool _

/-- Outside a group, a token free returns its slots. -/
theorem returned_tokenFree (ungrouped : pool.freeGroup = none) (freeIndex : List ℕ) :
    Returned pool (pool.tokenFree freeIndex) freeIndex := by
  unfold tokenFree
  split
  next empty =>
    obtain rfl := length_eq_zero_iff.mp empty
    exact returned_nil pool
  · rw [ungrouped]
    dsimp only
    split
    · refine ⟨⟨rfl, rfl, rfl, ungrouped.symm, rfl⟩, ?_⟩
      change (pool.freePages : Multiset ℕ) + ↑(pool.releasePages ++ freeIndex) = _
      rw [← coe_add, ← add_assoc, add_comm]
      rfl
    · refine ⟨⟨rfl, rfl, rfl, ungrouped.symm, rfl⟩, ?_⟩
      change ((pool.freePages ++ freeIndex : List ℕ) : Multiset ℕ) + pool.releasePages = _
      rw [← coe_add, add_right_comm, add_comm]
      rfl

/-- A cleared pool holds all pages but page 0. -/
theorem heldPages_clear (size pageSize : ℕ) (needSort : Bool) :
    (clear size pageSize needSort).heldPages = (range' 1 (size / pageSize) : Multiset ℕ) :=
  add_zero _

/-! ## Sound pools -/

/-- The free lists hold every page at most once, and only pages of the pool. -/
structure Sound (pool : PoolAllocator) : Prop where
  nodup : pool.heldPages.Nodup
  inRange : ∀ page ∈ pool.heldPages, 1 ≤ page ∧ page ≤ pool.numPages

/-- A page of the pool that is in the hands of a caller. -/
structure Taken (pool : PoolAllocator) (page : ℕ) : Prop where
  inRange : 1 ≤ page ∧ page ≤ pool.numPages
  notHeld : page ∉ pool.heldPages

section Moves

variable {pool next : PoolAllocator} {pages : List ℕ}

/-- The shape has the number of pages. -/
theorem SameShape.numPages (shape : SameShape pool next) : next.numPages = pool.numPages := by
  unfold PoolAllocator.numPages
  rw [shape.size, shape.pageSize]

/-- A refusal takes nothing. -/
theorem Refused.took (refused : Refused pool next) : Took pool next [] :=
  ⟨refused.shape, refused.held.symm.trans (zero_add _).symm⟩

section

variable (took : Took pool next pages)
include took

/-- A page that was held is taken or still held. -/
theorem Took.mem_held : page ∈ pool.heldPages ↔ page ∈ pages ∨ page ∈ next.heldPages := by
  rw [took.held, mem_add, mem_coe]

/-- Taking pages keeps a pool sound. -/
theorem Took.sound (sound : Sound pool) : Sound next where
  nodup := by
    have nodup := sound.nodup
    rw [took.held] at nodup
    exact (nodup_add.mp nodup).2.1
  inRange page held := by
    rw [took.shape.numPages]
    exact sound.inRange page (took.mem_held.mpr (.inr held))

/-- No page is taken twice. -/
theorem Took.nodup (sound : Sound pool) : pages.Nodup := by
  have nodup := sound.nodup
  rw [took.held] at nodup
  exact coe_nodup.mp (nodup_add.mp nodup).1

/-- The pages are then taken. -/
theorem Took.taken_of_mem (sound : Sound pool) (member : page ∈ pages) : Taken next page where
  inRange := by
    rw [took.shape.numPages]
    exact sound.inRange page (took.mem_held.mpr (.inl member))
  notHeld := by
    have nodup := sound.nodup
    rw [took.held] at nodup
    exact disjoint_left.mp (nodup_add.mp nodup).2.2 member

/-- Pages that were taken before stay so. -/
theorem Took.taken (taken : Taken pool page) : Taken next page where
  inRange := by
    rw [took.shape.numPages]
    exact taken.inRange
  notHeld := fun held => taken.notHeld (took.mem_held.mpr (.inr held))

/-- Those are not taken again. -/
theorem Took.not_mem_of_taken (taken : Taken pool page) : page ∉ pages :=
  fun member => taken.notHeld (took.mem_held.mpr (.inl member))

end

/-- A held page was held or returned. -/
theorem Returned.mem_held (returned : Returned pool next pages) :
    page ∈ next.heldPages ↔ page ∈ pages ∨ page ∈ pool.heldPages := by
  rw [returned.held, mem_add, mem_coe]

/-- Distinct pages that were in the caller's hands may go back. -/
theorem Returned.sound (returned : Returned pool next pages) (sound : Sound pool)
    (nodup : pages.Nodup) (taken : ∀ page ∈ pages, Taken pool page) : Sound next where
  nodup := by
    rw [returned.held]
    refine nodup_add.mpr ⟨coe_nodup.mpr nodup, sound.nodup, ?_⟩
    exact disjoint_left.mpr fun {page} member => (taken page member).notHeld
  inRange page held := by
    rw [returned.shape.numPages]
    obtain member | held := returned.mem_held.mp held
    · exact (taken page member).inRange
    · exact sound.inRange page held

/-- The other taken pages stay so. -/
theorem Returned.taken (returned : Returned pool next pages) (taken : Taken pool page)
    (kept : page ∉ pages) : Taken next page where
  inRange := by
    rw [returned.shape.numPages]
    exact taken.inRange
  notHeld := fun held => (returned.mem_held.mp held).elim kept taken.notHeld

/-- Freeing slots returns their pages, so pages of other slots stay out. -/
theorem Returned.taken_of_indices (returned : Returned pool next (uniquePages pageSize indices))
    (taken : Taken pool page) (apart : ∀ index ∈ indices, page ≠ index / pageSize) :
    Taken next page := by
  refine returned.taken taken fun member => ?_
  obtain ⟨index, inside, same⟩ := mem_uniquePages.mp member
  exact apart index inside same.symm

/-- Returning taken pages keeps a pool sound. -/
theorem Returned.sound_of_indices (returned : Returned pool next (uniquePages pageSize indices))
    (sound : Sound pool) (taken : ∀ index ∈ indices, Taken pool (index / pageSize)) :
    Sound next := by
  refine returned.sound sound (nodup_uniquePages _ _) fun page member => ?_
  obtain ⟨index, inside, rfl⟩ := mem_uniquePages.mp member
  exact taken index inside

/-- A cleared pool is sound. -/
theorem sound_clear (size pageSize : ℕ) (needSort : Bool) :
    Sound (clear size pageSize needSort) where
  nodup := by
    rw [heldPages_clear]
    exact coe_nodup.mpr nodup_range'
  inRange page held := by
    rw [heldPages_clear, mem_coe, mem_range'_1] at held
    change 1 ≤ page ∧ page ≤ size / pageSize
    omega

end Moves

end PoolAllocator

/-! ## Deferred sorting -/

include positive in
/-- The pages of a batch are covered by the cheap estimate that decides about merging. -/
theorem getNumNewPages_le (grows : ∀ req ∈ reqs, req.prefixLen ≤ req.seqLen) :
    getNumNewPages pageSize reqs ≤
      (reqs.map fun req => req.seqLen - req.prefixLen).sum / pageSize + reqs.length := by
  have tokens : getNumNewPages pageSize reqs * pageSize ≤
      (reqs.map fun req => req.seqLen - req.prefixLen).sum + reqs.length * pageSize := by
    induction reqs with
    | nil => simp [getNumNewPages]
    | cons req rest ih =>
      obtain ⟨head, tail⟩ := forall_mem_cons.mp grows
      have covered := le_pageCount_mul positive req.prefixLen
      have rounded : pageCount pageSize req.seqLen * pageSize ≤ req.seqLen + pageSize := by
        have := Nat.div_mul_le_self (req.seqLen + pageSize - 1) pageSize
        unfold pageCount
        omega
      have rest := ih tail
      simp only [getNumNewPages, map_cons, sum_cons, length_cons, Nat.add_mul,
        ExtendReq.numNewPages, Nat.sub_mul] at rest ⊢
      omega
  rw [← Nat.add_mul_div_right _ _ positive, Nat.le_div_iff_mul_le positive]
  exact tokens

namespace PoolAllocator

variable {pool next : PoolAllocator} {reqs : List ExtendReq} {answer : Option (List (List ℕ))}

/-- A merge leaves no released page. -/
theorem releasePages_mergeAndSortFree (pool : PoolAllocator) :
    pool.mergeAndSortFree.releasePages = [] := by
  unfold mergeAndSortFree
  split
  · rfl
  · next empty => exact length_eq_zero_iff.mp (by omega)

/-- An allocation refuses only what all pages of the pool cannot serve. It merges the
release list when the free list cannot serve it alone, and the pages that leave the
free list are the blocks that the sequences received. -/
structure Serves (pool next : PoolAllocator) (reqs : List ExtendReq)
    (answer : Option (List (List ℕ))) : Prop where
  refused : answer = none →
    pool.freePages.length + pool.releasePages.length < getNumNewPages pool.pageSize reqs
  merged : pool.freePages.length < getNumNewPages pool.pageSize reqs → next.releasePages = []
  handed : ∀ rows ∈ answer, ∃ blocks : List (List ℕ),
    rows = zipWith (extendSlots pool.pageSize) blocks reqs ∧
    Forall₂ (fun block req => block.length = req.numNewPages pool.pageSize) blocks reqs ∧
    (blocks.flatten ++ next.freePages = pool.freePages ∨ blocks.flatten ++ next.freePages =
        (pool.freePages ++ pool.releasePages).insertionSort (· ≤ ·) ∧ next.releasePages = [])

/-- An allocation that merges on an estimate of its pages serves what it can. -/
theorem serves_of_estimate (sorting : pool.needSort = true) {wanted : ℕ}
    (estimate : getNumNewPages pool.pageSize reqs ≤ wanted)
    (refuses : (pool.mergeIfShort wanted).freePages.length < getNumNewPages pool.pageSize reqs →
      answer = none ∧ next = pool.mergeIfShort wanted)
    (hands : getNumNewPages pool.pageSize reqs ≤ (pool.mergeIfShort wanted).freePages.length →
      answer = some (zipWith (extendSlots pool.pageSize)
        (pageBlocks pool.pageSize (pool.mergeIfShort wanted).freePages reqs) reqs) ∧
      next = (pool.mergeIfShort wanted).takePages (getNumNewPages pool.pageSize reqs)) :
    Serves pool next reqs answer := by
  have emptied (short : pool.freePages.length < wanted) :
      (pool.mergeIfShort wanted).releasePages = [] := by
    rw [mergeIfShort, if_pos ⟨sorting, short⟩]
    exact releasePages_mergeAndSortFree pool
  rcases lt_or_ge (pool.mergeIfShort wanted).freePages.length
    (getNumNewPages pool.pageSize reqs) with short | enough
  · obtain ⟨rfl, rfl⟩ := refuses short
    refine ⟨fun _ => ?_, fun few => emptied (few.trans_le estimate), fun rows found => ?_⟩
    · by_cases merges : pool.freePages.length < wanted
      · have held := congrArg card (heldPages_mergeIfShort pool wanted)
        simp only [heldPages, emptied merges, Multiset.card_add, Multiset.coe_card,
          length_nil] at held
        omega
      · rw [mergeIfShort, if_neg fun wanting => merges wanting.2] at short
        omega
    · cases found
  · obtain ⟨rfl, rfl⟩ := hands enough
    refine ⟨fun absent => ?_, fun few => emptied (few.trans_le estimate), fun rows found => ?_⟩
    · cases absent
    · cases found
      refine ⟨_, rfl, forall₂_pageBlocks enough, ?_⟩
      rw [flatten_pageBlocks, takePages, take_append_drop]
      unfold mergeIfShort mergeAndSortFree
      split
      · split
        · exact .inr ⟨rfl, rfl⟩
        · exact .inl rfl
      · exact .inl rfl

/-- A sorting pool refuses an extend or decode allocation only when it is out of pages. -/
theorem sorting_pool_serves (sorting : pool.needSort = true) (large : 2 ≤ pool.pageSize) :
    (∀ reqs : List ExtendReq, (∀ req ∈ reqs, req.prefixLen ≤ req.seqLen) →
      Serves pool (pool.allocExtend reqs).2 reqs (pool.allocExtend reqs).1) ∧
    ∀ reqs : List DecodeReq, (∀ req ∈ reqs, 0 < req.seqLen) →
      Serves pool (pool.allocDecode reqs).2 (reqs.map DecodeReq.toExtendReq)
        ((pool.allocDecode reqs).1.map (map fun slot => [slot])) := by
  have positive : 0 < pool.pageSize := by omega
  constructor
  · intro reqs grows
    apply serves_of_estimate sorting (Nat.le_succ_of_le (getNumNewPages_le positive grows))
    · intro short
      rw [allocExtend, (sameShape_mergeIfShort pool _).pageSize, if_pos short]
      exact ⟨rfl, rfl⟩
    · intro enough
      rw [allocExtend, (sameShape_mergeIfShort pool _).pageSize, if_neg (not_lt.mpr enough),
        allocExtendKernel_eq positive _ _ _ grows, drop_zero]
      exact ⟨rfl, rfl⟩
  · intro reqs nonempty
    have count := getNumNewPagesDecode_eq large reqs nonempty
    have estimate :
        getNumNewPages pool.pageSize (reqs.map DecodeReq.toExtendReq) ≤ reqs.length := by
      rw [← count, getNumNewPagesDecode]
      exact countP_le_length.trans (length_map _).le
    apply serves_of_estimate sorting estimate
    · intro short
      rw [allocDecode, (sameShape_mergeIfShort pool _).pageSize, count, if_pos short]
      exact ⟨rfl, rfl⟩
    · intro enough
      rw [allocDecode, (sameShape_mergeIfShort pool _).pageSize, count,
        if_neg (not_lt.mpr enough), Option.map_some, allocDecodeKernel_eq positive _ _ _ nonempty,
        drop_zero]
      exact ⟨rfl, rfl⟩

/-- Two released pages, taken out of order. -/
theorem sorting_pool_serves_merged : Serves ⟨8, 4, true, [], [2, 1], none, []⟩
      (allocExtend ⟨8, 4, true, [], [2, 1], none, []⟩ [⟨0, 5, -1⟩]).2 [⟨0, 5, -1⟩]
      (allocExtend ⟨8, 4, true, [], [2, 1], none, []⟩ [⟨0, 5, -1⟩]).1 :=
  (sorting_pool_serves rfl (by decide)).1 _ (by decide)

end PoolAllocator

end AvaServe.Memory
