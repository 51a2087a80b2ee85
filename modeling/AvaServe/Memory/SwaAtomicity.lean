import AvaServe.Memory.SwaAllocator

/-!
# Refused allocations of the hybrid allocator

An allocation of the hybrid allocator drives two pools. The extend allocations look at both
pools before they touch either; a decode step asks both and looks at the answers afterwards.
A refused call leaves the pages and the table as they were exactly when no pool has handed
out pages for it.
-/

namespace AvaServe.Memory

open AvaServe.Foundation

namespace PoolAllocator

/-- A decode step takes pages from the pool. -/
def TakesForDecode (pool : PoolAllocator) (reqs : List DecodeReq) : Prop :=
  0 < getNumNewPagesDecode pool.pageSize (reqs.map DecodeReq.seqLen) ∧
    getNumNewPagesDecode pool.pageSize (reqs.map DecodeReq.seqLen) ≤
      (pool.mergeIfShort reqs.length).freePages.length

variable {pool : PoolAllocator} {reqs : List DecodeReq}

/-- A pool that refuses a decode step only merged and sorted its lists. -/
theorem allocDecode_refused (refused : (pool.allocDecode reqs).1 = none) :
    (pool.allocDecode reqs).2.heldPages = pool.heldPages ∧ ¬pool.TakesForDecode reqs := by
  have size := (sameShape_mergeIfShort pool reqs.length).pageSize
  unfold allocDecode at refused ⊢
  simp only [size] at refused ⊢
  split
  next short =>
    refine ⟨heldPages_mergeIfShort pool reqs.length, fun takes => ?_⟩
    exact absurd takes.2 (not_le.mpr short)
  next enough =>
    rw [if_neg enough] at refused
    cases refused

/-- A pool that serves a decode step keeps its pages exactly when it takes none. -/
theorem allocDecode_served {slots : List ℕ} (served : (pool.allocDecode reqs).1 = some slots) :
    (pool.allocDecode reqs).2.heldPages = pool.heldPages ↔ ¬pool.TakesForDecode reqs := by
  have size := (sameShape_mergeIfShort pool reqs.length).pageSize
  unfold allocDecode at served ⊢
  simp only [size] at served ⊢
  split
  next short =>
    rw [if_pos short] at served
    cases served
  next enough =>
    -- the pages taken are what the pool lost
    have took := (took_takePages pool reqs.length
      (getNumNewPagesDecode pool.pageSize (reqs.map DecodeReq.seqLen))).held
    rw [took, right_eq_add, Multiset.coe_eq_zero, List.take_eq_nil_iff]
    have room := not_lt.mp enough
    constructor
    · rintro (none | empty) ⟨positive, _⟩
      · omega
      · rw [empty, List.length_nil] at room
        omega
    · intro idle
      left
      by_contra taken
      exact idle ⟨pos_of_ne_zero taken, room⟩

/-- Whatever a pool answers, a decode step keeps its pages exactly when it takes none. -/
theorem heldPages_allocDecode_iff (pool : PoolAllocator) (reqs : List DecodeReq) :
    (pool.allocDecode reqs).2.heldPages = pool.heldPages ↔ ¬pool.TakesForDecode reqs := by
  cases answer : (pool.allocDecode reqs).1 with
  | none =>
    obtain ⟨kept, idle⟩ := allocDecode_refused answer
    exact iff_of_true kept idle
  | some slots => exact allocDecode_served answer

end PoolAllocator

namespace SwaTokenToKVPoolAllocator

/-- The allocations that draw on both pools. -/
inductive AllocCall where
  | alloc (needSize : ℕ)
  | allocExtend (reqs : List ExtendReq)
  | allocExtendSwaTail (req : ExtendReq) (swaTailLen : ℕ)
  | allocDecode (reqs : List DecodeReq)
  deriving DecidableEq, Repr

/-- The answer of a call and the allocator behind it. -/
def call (allocator : SwaTokenToKVPoolAllocator) :
    AllocCall → Option (Option (List ℕ) × SwaTokenToKVPoolAllocator)
  | .alloc needSize => allocator.alloc needSize
  | .allocExtend reqs => allocator.allocExtend reqs
  | .allocExtendSwaTail req swaTailLen => allocator.allocExtendSwaTail req swaTailLen
  | .allocDecode reqs => allocator.allocDecode reqs

/-- The free pages of both pools and the table are the same; the lists of free pages may be
merged and sorted. -/
structure SamePages (allocator next : SwaTokenToKVPoolAllocator) : Prop where
  full : next.fullAttnAllocator.heldPages = allocator.fullAttnAllocator.heldPages
  swa : next.swaAttnAllocator.heldPages = allocator.swaAttnAllocator.heldPages
  mapping : next.fullToSwaIndexMapping = allocator.fullToSwaIndexMapping

/-- No pool hands out pages for a decode step. -/
def NoSideTakes (allocator : SwaTokenToKVPoolAllocator) : AllocCall → Prop
  | .allocDecode reqs =>
    ¬allocator.fullAttnAllocator.TakesForDecode reqs ∧
      ¬allocator.swaAttnAllocator.TakesForDecode (reqs.map allocator.swaDecodeReq)
  | _ => True

variable {allocator next : SwaTokenToKVPoolAllocator}

/-- Nothing changes. -/
theorem samePages_refl (allocator : SwaTokenToKVPoolAllocator) : SamePages allocator allocator :=
  ⟨rfl, rfl, rfl⟩

/-- A refused allocation changes nothing. -/
theorem alloc_refused {needSize : ℕ} (refused : allocator.alloc needSize = some (none, next)) :
    next = allocator := by
  unfold alloc at refused
  split at refused
  · cases refused
  · split at refused
    · cases refused
      rfl
    · split at refused
      · cases refused
        rfl
      · split at refused <;> cases refused

/-- Nor does a refused extension. -/
theorem allocExtend_refused {reqs : List ExtendReq}
    (refused : allocator.allocExtend reqs = some (none, next)) : next = allocator := by
  unfold allocExtend at refused
  split at refused
  · cases refused
  · simp only at refused
    split at refused
    · cases refused
      rfl
    · split at refused <;> cases refused

/-- Nor does one with a window tail. -/
theorem allocExtendSwaTail_refused {req : ExtendReq} {swaTailLen : ℕ}
    (refused : allocator.allocExtendSwaTail req swaTailLen = some (none, next)) :
    next = allocator := by
  unfold allocExtendSwaTail at refused
  simp only at refused
  split at refused
  · cases refused
  · split at refused
    · cases refused
      rfl
    · split at refused
      · cases refused
      · split at refused
        · cases refused
        · split at refused <;> cases refused

/-- A refused decode step leaves each pool as the pool's own step does, and the table alone. -/
theorem allocDecode_refused {reqs : List DecodeReq}
    (refused : allocator.allocDecode reqs = some (none, next)) : next = { allocator with
      fullAttnAllocator := (allocator.fullAttnAllocator.allocDecode reqs).2
      swaAttnAllocator :=
        (allocator.swaAttnAllocator.allocDecode (reqs.map allocator.swaDecodeReq)).2 } := by
  unfold allocDecode at refused
  split at refused
  · cases refused
  · simp only at refused
    split at refused
    · cases refused
    · cases refused
      rfl

/-- A refused call leaves the free pages of both pools and the table as they were exactly
when no pool hands out pages for it. -/
theorem refused_call_atomic_iff (allocator next : SwaTokenToKVPoolAllocator) (request : AllocCall)
    (refused : allocator.call request = some (none, next)) :
    SamePages allocator next ↔ NoSideTakes allocator request := by
  cases request with
  | alloc needSize =>
    rw [alloc_refused refused]
    exact iff_of_true (samePages_refl allocator) trivial
  | allocExtend reqs =>
    rw [allocExtend_refused refused]
    exact iff_of_true (samePages_refl allocator) trivial
  | allocExtendSwaTail req swaTailLen =>
    rw [allocExtendSwaTail_refused refused]
    exact iff_of_true (samePages_refl allocator) trivial
  | allocDecode reqs =>
    rw [allocDecode_refused refused, NoSideTakes,
      ← PoolAllocator.heldPages_allocDecode_iff, ← PoolAllocator.heldPages_allocDecode_iff]
    exact ⟨fun same => ⟨same.full, same.swa⟩, fun kept => ⟨kept.1, kept.2, rfl⟩⟩

/-- Two sequences that each need a page, while both pools have one page: both pools refuse,
and the call changes nothing. -/
theorem refused_call_atomic_both_short :
    ∃ next, (clear 2 2 2 false).call (.allocDecode [⟨1, -1⟩, ⟨1, -1⟩]) = some (none, next) ∧
      SamePages (clear 2 2 2 false) next := by
  refine ⟨_, rfl, (refused_call_atomic_iff _ _ (.allocDecode [⟨1, -1⟩, ⟨1, -1⟩]) rfl).mpr ?_⟩
  exact ⟨fun takes => absurd takes.2 (by decide), fun takes => absurd takes.2 (by decide)⟩

/-- A fresh allocator with two full pages and one sliding-window page: a decode step of two
sequences is refused after the full pool has given out both pages. -/
theorem refused_decode_strands_pages :
    ∃ next, (clear 4 2 2 false).call (.allocDecode [⟨1, -1⟩, ⟨1, -1⟩]) = some (none, next) ∧
      (clear 4 2 2 false).fullAttnAllocator.heldPages = {1, 2} ∧
      next.fullAttnAllocator.heldPages = 0 ∧ ¬SamePages (clear 4 2 2 false) next := by
  refine ⟨_, rfl, rfl, rfl, fun same => ?_⟩
  have stranded : (0 : Multiset ℕ) = {1, 2} := same.full
  exact absurd stranded (by decide)

end SwaTokenToKVPoolAllocator

end AvaServe.Memory
