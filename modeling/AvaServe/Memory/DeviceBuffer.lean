import Mathlib
import AvaServe.Memory.PoolAllocator

/-!
# Device buffers of sparse attention

When a request starts to decode, the allocator turns the device slots of its prompt into a
buffer of fixed size: the slot of the newest token goes to a reserved position, what the
buffer does not need is freed, and what is missing is taken from the last partial page and
then from the pool. A buffer is valid when its slots are distinct and its pages and the free
pages afterwards are those that were free or belonged to the request.
-/

namespace AvaServe.Memory

open Foundation List

/-- The allocator of the compressed pool: the pool and the device slot of each logical index,
zero for an index without one. -/
structure HiSparseAllocator where
  hisparseAttnAllocator : PoolAllocator
  fullToHisparseDeviceIndexMapping : ℕ → ℕ

/-- Exchange the newest slot with the one at the reserved position. -/
def reserveNewest (deviceBufferSize : ℕ) (indices : List ℕ) : List ℕ :=
  if deviceBufferSize + 1 < indices.length then
    (indices.set deviceBufferSize (indices.getD (indices.length - 1) 0)).set (indices.length - 1)
      (indices.getD deviceBufferSize 0)
  else indices

/-- Continue behind the last slot up to the end of a page. -/
def completePage (pageSize : ℕ) (indices : List ℕ) : List ℕ :=
  let pageResidualLength := indices.length % pageSize
  if pageResidualLength ≠ 0 then
    indices ++ (range (pageSize - pageResidualLength)).map fun offset =>
      indices.getD (indices.length - 1) 0 + 1 + offset
  else indices

/-- Build the buffer of a request from the slots of `allocatedIndices`; `none` is a failed
assertion. -/
def HiSparseAllocator.allocDeviceBuffer (allocator : HiSparseAllocator)
    (allocatedIndices : List ℕ) (needSize : ℕ) : Option (List ℕ × HiSparseAllocator) :=
  let pool := allocator.hisparseAttnAllocator
  if needSize % pool.pageSize ≠ 0 then none
  else
    let mapped := allocatedIndices.map allocator.fullToHisparseDeviceIndexMapping
    let mapping index :=
      if index ∈ allocatedIndices then 0 else allocator.fullToHisparseDeviceIndexMapping index
    let indices := reserveNewest (needSize - pool.pageSize) (mapped.filter (0 < ·))
    if needSize ≤ indices.length then
      let bufferIndices := indices.take needSize
      let bufferPages := uniquePages pool.pageSize bufferIndices
      let surplusPages := uniquePages pool.pageSize (indices.drop needSize)
      let pureSurplus := surplusPages.filter (· ∉ bufferPages)
      some (bufferIndices, ⟨pool.free (pureSurplus.map (· * pool.pageSize)), mapping⟩)
    else
      let indices := completePage pool.pageSize indices
      match pool.alloc (needSize - indices.length) with
      | (none, _) => none
      | (some extraIndices, pool) => some (indices ++ extraIndices, ⟨pool, mapping⟩)

variable {pageSize count full needSize : ℕ} {pages : List ℕ}

/-! ### The slots of a request -/

/-- The slots of a request, position by position in its pages. -/
def requestSlots (pageSize : ℕ) (pages : List ℕ) (count : ℕ) : List ℕ :=
  (range count).map (slotAt pageSize pages)

/-- The slots of a request. -/
@[simp] theorem length_requestSlots (pageSize : ℕ) (pages : List ℕ) (count : ℕ) :
    (requestSlots pageSize pages count).length = count := by
  simp [requestSlots]

/-- The slot of a token. -/
theorem getD_requestSlots {i : ℕ} (inside : i < count) :
    (requestSlots pageSize pages count).getD i 0 = slotAt pageSize pages i := by
  simp [requestSlots, inside]

/-- Distinct pages are the pages of their slots. -/
theorem uniquePages_perm {slots : List ℕ} (nodup : pages.Nodup)
    (named : ∀ page, (∃ slot ∈ slots, slot / pageSize = page) ↔ page ∈ pages) :
    (uniquePages pageSize slots).Perm pages := by
  rw [perm_ext_iff_of_nodup (nodup_uniquePages _ _) nodup]
  intro page
  rw [mem_uniquePages, named]

/-- The last page is completed. -/
theorem length_completePage (positive : 0 < pageSize) (indices : List ℕ) :
    (completePage pageSize indices).length = pageCount pageSize indices.length * pageSize := by
  unfold completePage
  dsimp only
  split
  next cut =>
    rw [pageCount_mul_of_mod_pos positive (pos_of_ne_zero cut)]
    simp
  next whole => rw [pageCount_mul_of_dvd positive (Nat.dvd_of_mod_eq_zero (not_not.mp whole))]

section

variable (positive : 0 < pageSize) (filled : pages.length = pageCount pageSize count)
include positive filled

/-- Completing the last page of a request completes its pages. -/
theorem completePage_requestSlots :
    completePage pageSize (requestSlots pageSize pages count) = pageSlots pageSize pages := by
  unfold completePage
  rw [length_requestSlots, pageSlots_eq_map, filled]
  dsimp only
  split
  next cut =>
    have split := Nat.div_add_mod' count pageSize
    have small := Nat.mod_lt count positive
    have last : slotAt pageSize pages (count - 1) =
        pages.getD (count / pageSize) 0 * pageSize + (count % pageSize - 1) := by
      rw [← slotAt_add (by omega)]
      congr 1
      omega
    rw [pageCount_mul_of_mod_pos positive (pos_of_ne_zero cut), range_add, map_append, map_map,
      getD_requestSlots (by omega)]
    congr 1
    refine map_congr_left fun offset inside => ?_
    have := mem_range.mp inside
    rw [Function.comp_apply, show count + offset = count / pageSize * pageSize +
      (count % pageSize + offset) by omega, slotAt_add (by omega)]
    omega
  next whole =>
    rw [pageCount_mul_of_dvd positive (Nat.dvd_of_mod_eq_zero (not_not.mp whole)), requestSlots]

/-- They are slots of its pages. -/
theorem requestSlots_sublist :
    (requestSlots pageSize pages count).Sublist (pageSlots pageSize pages) := by
  rw [← completePage_requestSlots positive filled, completePage]
  split
  · exact sublist_append_left _ _
  · exact .refl _

/-- The slots of a request name its pages. -/
theorem exists_mem_requestSlots (page : ℕ) :
    (∃ slot ∈ requestSlots pageSize pages count, slot / pageSize = page) ↔ page ∈ pages := by
  constructor
  · rintro ⟨slot, member, rfl⟩
    exact (mem_pageSlots positive).mp ((requestSlots_sublist positive filled).subset member)
  · intro member
    obtain ⟨i, inside, rfl⟩ := mem_iff_getElem.mp member
    have first := @slotAt_add pageSize 0 positive pages i
    rw [getD_eq_getElem _ _ inside] at first
    rw [filled, lt_pageCount_iff positive] at inside
    exact ⟨_, mem_map.mpr ⟨_, mem_range.mpr inside, first⟩, Nat.mul_div_cancel _ positive⟩

end

/-! ### The reserved position -/

/-- Reserving permutes. -/
theorem perm_reserveNewest (deviceBufferSize : ℕ) (indices : List ℕ) :
    (reserveNewest deviceBufferSize indices).Perm indices := by
  unfold reserveNewest
  split
  next long =>
    rw [getD_eq_getElem _ _ (show indices.length - 1 < indices.length by omega),
      getD_eq_getElem _ _ (show deviceBufferSize < indices.length by omega)]
    exact set_set_perm (by omega) (by omega)
  · exact .refl _

/-- When the request ends inside the reserved page, completing that page behind the slot that
the exchange left last repeats a slot. -/
theorem completePage_repeats (many : full * pageSize + 1 < count)
    (short : count < (full + 1) * pageSize) :
    ¬ (completePage pageSize (reserveNewest (full * pageSize)
      (requestSlots pageSize pages count))).Nodup := by
  have perm := perm_reserveNewest (full * pageSize) (requestSlots pageSize pages count)
  rw [add_mul] at short
  have cut : count % pageSize = count - full * pageSize := by
    rw [show count = full * pageSize + (count - full * pageSize) by omega,
      slot_mod (by omega), Nat.add_sub_cancel_left]
  have first := @slotAt_add pageSize 0 (by omega) pages full
  have second := @slotAt_add pageSize 1 (by omega) pages full
  have last : (reserveNewest (full * pageSize) (requestSlots pageSize pages count)).getD
      (count - 1) 0 = pages.getD full 0 * pageSize := by
    rw [reserveNewest, length_requestSlots, if_pos many, getD_eq_getElem?_getD,
      getElem?_set_self (by rw [length_set, length_requestSlots]; omega),
      getD_requestSlots (by omega)]
    exact first
  unfold completePage
  rw [perm.length_eq, length_requestSlots, if_pos (by omega), last]
  intro nodup
  refine (nodup_append.mp nodup).2.2 _ (perm.mem_iff.mpr (mem_map.mpr ⟨_, ?_, second⟩)) _
    (mem_map.mpr ⟨0, ?_, rfl⟩) rfl
  · exact mem_range.mpr many
  · exact mem_range.mpr (by omega)

/-! ### Valid buffers -/

/-- A buffer of `needSize` distinct slots with the newest token at the reserved position. Its
pages and the free pages afterwards are together the free pages before and the pages of the
request. -/
structure ValidBuffer (before after : PoolAllocator) (pages indices : List ℕ) (needSize : ℕ)
    (buffer : List ℕ) : Prop where
  length : buffer.length = needSize
  distinct : buffer.Nodup
  newest : needSize - before.pageSize + 1 < indices.length →
    buffer.getD (needSize - before.pageSize) 0 = indices.getD (indices.length - 1) 0
  conserved : (uniquePages before.pageSize buffer : Multiset ℕ) + after.heldPages =
    (pages : Multiset ℕ) + before.heldPages

variable {pool next : PoolAllocator} {buffer surplus indices : List ℕ}

/-- An allocation serves all or nothing. -/
theorem PoolAllocator.alloc_outcome (pool : PoolAllocator) (needSize : ℕ) :
    AllocOutcome pool (pool.alloc needSize).2 (needSize / pool.pageSize) (pageSlots pool.pageSize)
      (pool.alloc needSize).1 := by
  unfold PoolAllocator.alloc
  dsimp only
  rw [(sameShape_mergeIfShort pool _).pageSize]
  split
  · exact .refused (refused_mergeIfShort pool _)
  next enough => exact .took _ (took_takePages pool _ _) (length_take_of_le (not_lt.mp enough))

section

variable (positive : 0 < pool.pageSize)
include positive

/-- The pages that only the surplus uses, next to those of the buffer, are the pages of both. -/
theorem conserved_surplus (ungrouped : pool.freeGroup = none) (nodup : pages.Nodup)
    (named : ∀ page, (∃ slot ∈ buffer ++ surplus, slot / pool.pageSize = page) ↔ page ∈ pages) :
    (uniquePages pool.pageSize buffer : Multiset ℕ) +
        (pool.free (((uniquePages pool.pageSize surplus).filter
          (· ∉ uniquePages pool.pageSize buffer)).map (· * pool.pageSize))).heldPages =
      (pages : Multiset ℕ) + pool.heldPages := by
  rw [(PoolAllocator.returned_free ungrouped _).held, ← add_assoc]
  refine congrArg (· + pool.heldPages) (Multiset.coe_eq_coe.mpr ?_)
  have pure : (uniquePages pool.pageSize (((uniquePages pool.pageSize surplus).filter
      (· ∉ uniquePages pool.pageSize buffer)).map (· * pool.pageSize))).Perm
        ((uniquePages pool.pageSize surplus).filter (· ∉ uniquePages pool.pageSize buffer)) := by
    apply uniquePages_perm ((nodup_uniquePages _ _).filter _)
    simp [Nat.mul_div_cancel _ positive]
  refine (pure.append_left _).trans ?_
  rw [perm_ext_iff_of_nodup _ nodup]
  · intro page
    rw [← named]
    simp only [mem_append, mem_filter, mem_uniquePages, decide_eq_true_eq, or_and_right, exists_or]
    exact or_and_left.trans (and_iff_left (em _))
  · refine nodup_append.mpr ⟨nodup_uniquePages _ _, (nodup_uniquePages _ _).filter _, ?_⟩
    rintro page inBuffer _ inSurplus rfl
    exact of_decide_eq_true (mem_filter.mp inSurplus).2 inBuffer

/-- A request that does not fill the buffer keeps its pages, completed and joined by fresh
ones. -/
theorem valid_of_extra (whole : pool.pageSize ∣ needSize)
    (owned : ((pages : Multiset ℕ) + pool.heldPages).Nodup)
    (fits : pages.length * pool.pageSize ≤ needSize)
    (inside : indices.length ≤ needSize - pool.pageSize + 1) {more : List ℕ}
    (took : pool.Took next more)
    (missing : more.length = (needSize - pages.length * pool.pageSize) / pool.pageSize) :
    ValidBuffer pool next pages indices needSize
      (pageSlots pool.pageSize pages ++ pageSlots pool.pageSize more) := by
  have joined : (pages ++ more).Nodup := by
    rw [took.held, ← add_assoc] at owned
    exact Multiset.coe_nodup.mp (Multiset.nodup_add.mp owned).1
  rw [← pageSlots_append]
  refine ⟨?_, nodup_pageSlots joined, fun long => by omega, ?_⟩
  · have rest := Nat.div_mul_cancel (Nat.dvd_sub whole (dvd_mul_left _ pages.length))
    rw [length_pageSlots, length_append, add_mul, missing, rest, Nat.add_sub_cancel' fits]
  · have named : (uniquePages pool.pageSize (pageSlots pool.pageSize (pages ++ more))).Perm
        (pages ++ more) := by
      apply uniquePages_perm joined
      rw [pageSlots_eq_map]
      exact exists_mem_requestSlots positive (pageCount_mul positive _).symm
    rw [Multiset.coe_eq_coe.mpr named, ← Multiset.coe_add, add_assoc, ← took.held]

end

/-- With room for the missing pages, the allocator returns a buffer for every request. The
buffer is valid exactly when the request has at most one slot in the reserved page or fills
it. -/
theorem device_buffer_valid_iff {allocator : HiSparseAllocator} {allocatedIndices : List ℕ}
    (pool_eq : allocator.hisparseAttnAllocator = pool) (positive : 0 < pool.pageSize)
    (ungrouped : pool.freeGroup = none) (whole : pool.pageSize ∣ needSize)
    (large : pool.pageSize < needSize) (filled : pages.length = pageCount pool.pageSize count)
    (owned : ((pages : Multiset ℕ) + pool.heldPages).Nodup)
    (mapped : (allocatedIndices.map allocator.fullToHisparseDeviceIndexMapping).filter (0 < ·) =
      requestSlots pool.pageSize pages count)
    (room : (pool.alloc (needSize - pages.length * pool.pageSize)).1 ≠ none) :
    ∃ buffer next, allocator.allocDeviceBuffer allocatedIndices needSize = some (buffer, next) ∧
      (ValidBuffer pool next.hisparseAttnAllocator pages (requestSlots pool.pageSize pages count)
          needSize buffer ↔
        count ≤ needSize - pool.pageSize + 1 ∨ needSize ≤ count) := by
  obtain ⟨distinct, -, apart⟩ := Multiset.nodup_add.mp owned
  have perm := perm_reserveNewest (needSize - pool.pageSize)
    (requestSlots pool.pageSize pages count)
  unfold HiSparseAllocator.allocDeviceBuffer
  simp only [pool_eq, Nat.mod_eq_zero_of_dvd whole, ne_eq, not_true_eq_false, ↓reduceIte, mapped,
    perm.length_eq, length_requestSlots]
  by_cases enough : needSize ≤ count
  · -- the buffer is made of the request's own slots
    rw [if_pos enough]
    refine ⟨_, _, rfl, iff_of_true ⟨?_, ?_, fun long => ?_, ?_⟩ (.inr enough)⟩
    · rw [length_take, perm.length_eq, length_requestSlots, Nat.min_eq_left enough]
    · apply Nodup.sublist (take_sublist _ _)
      exact perm.nodup_iff.mpr
        ((nodup_pageSlots distinct).sublist (requestSlots_sublist positive filled))
    · rw [length_requestSlots] at long ⊢
      rw [getD_eq_getElem?_getD, getElem?_take_of_lt (by omega), reserveNewest,
        length_requestSlots, if_pos long, getElem?_set_ne (by omega),
        getElem?_set_self (by rw [length_requestSlots]; omega)]
      rfl
    · apply conserved_surplus positive ungrouped distinct
      intro page
      rw [take_append_drop, ← exists_mem_requestSlots positive filled]
      simp only [perm.mem_iff]
  · -- the last page is completed and the rest comes from the pool
    rw [if_neg enough, length_completePage positive, perm.length_eq, length_requestSlots, ← filled]
    obtain ⟨full, rfl⟩ : ∃ full, needSize = (full + 1) * pool.pageSize := by
      obtain ⟨_ | full, rfl⟩ := whole
      · omega
      · exact ⟨full, Nat.mul_comm _ _⟩
    have outcome := pool.alloc_outcome ((full + 1) * pool.pageSize - pages.length * pool.pageSize)
    generalize pool.alloc _ = allocated at outcome room ⊢
    obtain ⟨answer, next⟩ := allocated
    cases outcome with
    | refused => exact absurd rfl room
    | took more took missing =>
      refine ⟨_, _, rfl, ?_⟩
      by_cases inside : count ≤ (full + 1) * pool.pageSize - pool.pageSize + 1
      · rw [reserveNewest, length_requestSlots, if_neg (not_lt.mpr inside),
          completePage_requestSlots positive filled]
        refine iff_of_true (valid_of_extra positive (Nat.dvd_mul_left _ _) owned ?_ ?_ took
          missing) (.inl inside)
        · apply Nat.mul_le_mul_right
          rw [filled, pageCount_le_iff positive]
          omega
        · rwa [length_requestSlots]
      · have reserved : (full + 1) * pool.pageSize - pool.pageSize = full * pool.pageSize := by
          rw [Nat.add_mul, Nat.one_mul, Nat.add_sub_cancel]
        rw [reserved] at inside ⊢
        -- the page is completed behind the slot that the exchange left last
        have repeats := @completePage_repeats _ _ _ pages (not_le.mp inside) (not_le.mp enough)
        exact iff_of_false (fun valid => repeats (nodup_append.mp valid.distinct).1) (by omega)

/-- Pages two and three belong to a request of five or six slots. -/
def twoPages : HiSparseAllocator where
  hisparseAttnAllocator := ⟨16, 4, false, [1, 4], [], none, []⟩
  fullToHisparseDeviceIndexMapping index := index + 8

/-- Five tokens on two pages. -/
theorem device_buffer_valid_iff_five :
    ∃ buffer next, twoPages.allocDeviceBuffer (range 5) 8 = some (buffer, next) ∧
      (ValidBuffer twoPages.hisparseAttnAllocator next.hisparseAttnAllocator [2, 3]
        [8, 9, 10, 11, 12] 8 buffer ↔ 5 ≤ 8 - 4 + 1 ∨ 8 ≤ 5) :=
  @device_buffer_valid_iff 5 8 [2, 3] _ twoPages (range 5) rfl (by decide) rfl (by decide)
    (by decide) (by decide) (by decide) (by decide) (by decide)

/-- Six slots and a buffer of two pages of four: slot thirteen appears twice, and slot fifteen
not at all. -/
theorem six_slots_repeat : (twoPages.allocDeviceBuffer (range 6) 8).map Prod.fst =
      some [8, 9, 10, 11, 13, 12, 13, 14] := by
  decide

end AvaServe.Memory
