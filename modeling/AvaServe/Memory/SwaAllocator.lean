import AvaServe.Memory.PoolAllocator

/-!
# The allocator of hybrid sliding-window models

Full-attention layers and sliding-window layers keep their keys and values in
pools of their own, and a table maps the full slot of a token to its
sliding-window slot. The sliding-window side of a token may be released before
its full side. Entries of the table are cleared when a range is released, while
the pages themselves may wait in a group until the group ends.
-/

namespace AvaServe.Memory

open Foundation List

/-- The sub-allocators hold tokens when pages have one token, and pages
otherwise. Entry zero of the table means that a full slot has no peer. -/
structure SwaTokenToKVPoolAllocator where
  pageSize : ℕ
  fullAttnAllocator : PoolAllocator
  swaAttnAllocator : PoolAllocator
  fullToSwaIndexMapping : ℕ → ℕ
  freeGroup : Option (List (List ℕ))
  swaFreeGroup : List (List ℕ)
  fullFreeGroup : List (List ℕ)

/-- The token allocator serves pages of one token, the paged one all others. -/
def PoolAllocator.freeIndices (pool : PoolAllocator) (freeIndex : List ℕ) : PoolAllocator :=
  if pool.pageSize = 1 then pool.tokenFree freeIndex else pool.free freeIndex

/-- All slots of the pages of some slots. -/
def expandToFullPages (pageSize : ℕ) (indices : List ℕ) : List ℕ :=
  (uniquePages pageSize indices).flatMap fun page =>
    (range pageSize).map fun offset => page * pageSize + offset

namespace SwaTokenToKVPoolAllocator

variable (allocator : SwaTokenToKVPoolAllocator)

/-- An allocator with both pools free and no entry in the table. -/
def clear (sizeFull sizeSwa pageSize : ℕ) (needSort : Bool) : SwaTokenToKVPoolAllocator :=
  { pageSize := pageSize
    fullAttnAllocator := .clear sizeFull pageSize needSort
    swaAttnAllocator := .clear sizeSwa pageSize needSort
    fullToSwaIndexMapping := fun _ => 0
    freeGroup := none
    swaFreeGroup := []
    fullFreeGroup := [] }

/-- The table has one more entry so that the location minus one maps to itself. -/
def translateLocFromFullToSwa (loc : ℤ) : ℤ :=
  if loc < 0 then -1 else allocator.fullToSwaIndexMapping loc.toNat

/-- `set_full_to_swa_mapping`. -/
def setFullToSwaMapping (fullIndices swaIndices : List ℕ) : SwaTokenToKVPoolAllocator :=
  { allocator with
    fullToSwaIndexMapping :=
      (fullIndices.zip swaIndices).foldl
        (fun mapping pair => Function.update mapping pair.1 pair.2)
        allocator.fullToSwaIndexMapping }

/-- `clear_full_to_swa_mapping`. -/
def clearFullToSwaMapping (fullIndices : List ℕ) : SwaTokenToKVPoolAllocator :=
  { allocator with
    fullToSwaIndexMapping := fun index =>
      if index ∈ fullIndices then 0 else allocator.fullToSwaIndexMapping index }

/-- `new_pages_available`. -/
def newPagesAvailable (numFullPages numSwaPages : ℕ) : Bool :=
  decide (numFullPages ≤ allocator.fullAttnAllocator.availableSize / allocator.pageSize) &&
    decide (numSwaPages ≤ allocator.swaAttnAllocator.availableSize / allocator.pageSize)

/-- Allocate single tokens on both sides. Here and below, the outer `none` is a
failed assertion and the inner one a refused allocation. -/
def alloc (needSize : ℕ) : Option (Option (List ℕ) × SwaTokenToKVPoolAllocator) :=
  if allocator.pageSize ≠ 1 then none
  else if allocator.fullAttnAllocator.availableSize < needSize then some (none, allocator)
  else if allocator.swaAttnAllocator.availableSize < needSize then some (none, allocator)
  else
    match allocator.fullAttnAllocator.tokenAlloc needSize,
      allocator.swaAttnAllocator.tokenAlloc needSize with
    | (some fullIndices, full), (some swaIndices, swa) =>
      some (some fullIndices,
        { allocator with fullAttnAllocator := full, swaAttnAllocator := swa }.setFullToSwaMapping
          fullIndices swaIndices)
    | _, _ => none

/-- The same sequence on the sliding-window side. -/
def swaReq (req : ExtendReq) : ExtendReq :=
  { req with lastLoc := allocator.translateLocFromFullToSwa req.lastLoc }

/-- A decode request on the window side. -/
def swaDecodeReq (req : DecodeReq) : DecodeReq :=
  { req with lastLoc := allocator.translateLocFromFullToSwa req.lastLoc }

/-- `alloc_extend`. -/
def allocExtend (reqs : List ExtendReq) : Option (Option (List ℕ) × SwaTokenToKVPoolAllocator) :=
  if allocator.pageSize ≤ 1 then none
  else
    let numNewPages := getNumNewPages allocator.pageSize reqs
    if !allocator.newPagesAvailable numNewPages numNewPages then some (none, allocator)
    else
      match allocator.fullAttnAllocator.allocExtend reqs,
        allocator.swaAttnAllocator.allocExtend (reqs.map allocator.swaReq) with
      | (some fullIndices, full), (some swaIndices, swa) =>
        some (some fullIndices.flatten,
          { allocator with fullAttnAllocator := full, swaAttnAllocator := swa
            }.setFullToSwaMapping fullIndices.flatten swaIndices.flatten)
      | _, _ => none

/-- Allocate the whole extension on the full side and only its last tokens on
the sliding-window side. -/
def allocExtendSwaTail (req : ExtendReq) (swaTailLen : ℕ) :
    Option (Option (List ℕ) × SwaTokenToKVPoolAllocator) :=
  let extendNumTokens := req.seqLen - req.prefixLen
  if allocator.pageSize ≤ 1 ∨ extendNumTokens < swaTailLen then none
  else
    let numFullPages := getNumNewPages allocator.pageSize [req]
    let numSwaPages := pageCount allocator.pageSize swaTailLen
    if !allocator.newPagesAvailable numFullPages numSwaPages then some (none, allocator)
    else
      match allocator.fullAttnAllocator.allocExtend [req] with
      | (none, _) => none
      | (some fullRows, full) =>
        let fullIndices := fullRows.flatten
        if swaTailLen = 0 then
          some (some fullIndices, { allocator with fullAttnAllocator := full })
        else
          match allocator.swaAttnAllocator.allocExtend [⟨0, swaTailLen, -1⟩] with
          | (none, _) => none
          | (some swaRows, swa) =>
            let head := fullIndices.take (fullIndices.length - swaTailLen)
            let tail := fullIndices.drop (fullIndices.length - swaTailLen)
            let mapped :=
              { allocator with fullAttnAllocator := full, swaAttnAllocator := swa
                }.setFullToSwaMapping tail swaRows.flatten
            some (some fullIndices,
              if swaTailLen < extendNumTokens then mapped.clearFullToSwaMapping head
              else mapped)

/-- One new token for every sequence. Both sides allocate before either answer
is looked at. -/
def allocDecode (reqs : List DecodeReq) : Option (Option (List ℕ) × SwaTokenToKVPoolAllocator) :=
  if allocator.pageSize ≤ 1 then none
  else
    let fullAnswer := allocator.fullAttnAllocator.allocDecode reqs
    let swaAnswer := allocator.swaAttnAllocator.allocDecode (reqs.map allocator.swaDecodeReq)
    let next :=
      { allocator with fullAttnAllocator := fullAnswer.2, swaAttnAllocator := swaAnswer.2 }
    match fullAnswer.1, swaAnswer.1 with
    | some fullIndices, some swaIndices =>
      some (some fullIndices, next.setFullToSwaMapping fullIndices swaIndices)
    | _, _ => some (none, next)

/-- The full slots whose entries a release of the sliding-window side clears. -/
def mappingIndices (freeIndex : List ℕ) : List ℕ :=
  if allocator.pageSize = 1 then freeIndex else expandToFullPages allocator.pageSize freeIndex

/-- Release the sliding-window side. The entries are cleared at once, also when
the pages wait for the end of a group. -/
def freeSwa (freeIndex : List ℕ) : SwaTokenToKVPoolAllocator :=
  if freeIndex.length = 0 then allocator
  else
    let mappingIndices := allocator.mappingIndices freeIndex
    let swaIndices := (mappingIndices.map allocator.fullToSwaIndexMapping).filter (0 < ·)
    let cleared := allocator.clearFullToSwaMapping mappingIndices
    match allocator.freeGroup with
    | some _ => { cleared with swaFreeGroup := allocator.swaFreeGroup ++ [swaIndices] }
    | none =>
      { cleared with
        swaAttnAllocator := allocator.swaAttnAllocator.freeIndices swaIndices }

/-- The assertion behind a free: the full pool holds no more than it has. -/
def fullWithinSize : Bool :=
  decide (allocator.fullAttnAllocator.availableSize ≤ allocator.fullAttnAllocator.size)

/-- The window pool is within its size. -/
def swaWithinSize : Bool :=
  decide (allocator.swaAttnAllocator.availableSize ≤ allocator.swaAttnAllocator.size)

/-- Release both sides of some slots. -/
def free (freeIndex : List ℕ) : Option SwaTokenToKVPoolAllocator :=
  if freeIndex.length = 0 then some allocator
  else
    let next :=
      match allocator.freeGroup with
      | none =>
        { allocator with
          fullAttnAllocator := allocator.fullAttnAllocator.freeIndices freeIndex
          }.freeSwa freeIndex
      | some group => { allocator with freeGroup := some (group ++ [freeIndex]) }
    if next.fullWithinSize && next.swaWithinSize then some next else none

/-- Release the full side of slots whose peers are gone. -/
def freeFull (freeIndex : List ℕ) : Option SwaTokenToKVPoolAllocator :=
  if freeIndex.length = 0 then some allocator
  else
    let next :=
      match allocator.freeGroup with
      | none =>
        { allocator with
          fullAttnAllocator := allocator.fullAttnAllocator.freeIndices freeIndex }
      | some _ => { allocator with fullFreeGroup := allocator.fullFreeGroup ++ [freeIndex] }
    if next.fullWithinSize then some next else none

/-- `free_group_begin`. -/
def freeGroupBegin : SwaTokenToKVPoolAllocator :=
  { allocator with freeGroup := some [], swaFreeGroup := [], fullFreeGroup := [] }

/-- Free what waited for the end of the group: both sides first, then the
sliding-window slots of cleared entries, then the full slots without peers. -/
def freeGroupEnd : Option SwaTokenToKVPoolAllocator :=
  let pending := (allocator.freeGroup.getD []).flatten
  ({ allocator with freeGroup := none }.free pending).bind fun freed =>
    let swept :=
      { freed with
        swaAttnAllocator := freed.swaAttnAllocator.freeIndices freed.swaFreeGroup.flatten
        swaFreeGroup := [] }
    { swept with fullFreeGroup := [] }.freeFull swept.fullFreeGroup.flatten

end SwaTokenToKVPoolAllocator

/-! ## Slots and pages of a release -/

/-- A pool takes back the pages of distinct slots, whichever allocator serves it. -/
theorem PoolAllocator.returned_freeIndices {pool : PoolAllocator}
    (ungrouped : pool.freeGroup = none) {freeIndex : List ℕ} (nodup : freeIndex.Nodup) :
    pool.Returned (pool.freeIndices freeIndex) (uniquePages pool.pageSize freeIndex) := by
  unfold freeIndices
  split
  next single =>
    have returned := returned_tokenFree ungrouped freeIndex
    refine ⟨returned.shape, returned.held.trans ?_⟩
    congr 1
    refine Multiset.coe_eq_coe.mpr ?_
    unfold uniquePages
    rw [single, map_congr_left fun index _ => Nat.div_one index, map_id', nodup.dedup]
    exact (perm_insertionSort _ _).symm
  · exact returned_free ungrouped freeIndex

/-- The slots of the pages. -/
theorem mem_expandToFullPages {pageSize : ℕ} (positive : 0 < pageSize) {indices : List ℕ}
    {index : ℕ} :
    index ∈ expandToFullPages pageSize indices ↔ index / pageSize ∈ uniquePages pageSize indices :=
  mem_pageSlots positive

/-- They are listed once. -/
theorem nodup_expandToFullPages {pageSize : ℕ} (indices : List ℕ) :
    (expandToFullPages pageSize indices).Nodup :=
  nodup_pageSlots (nodup_uniquePages pageSize indices)

end AvaServe.Memory
