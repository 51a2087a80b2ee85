import AvaServe.Dcp.Layout

/-!
# The transfer plan between prefill and decode context parallelism

A prefill worker cuts the pages of a request into chunks and plans, for every rank of the decode
group, which tokens of a chunk to copy to which slots of the rank's pages. The plans of all ranks
over all chunks copy every token once, to the rank that owns its position.
-/

namespace AvaServe.Dcp

open Foundation List

/-- What the planner raises, with the values its message shows. -/
inductive PlanError where
  | unalignedPrefix (virtualPageSize decodePrefixLen : ℕ)
  | tokensDoNotFit (tokens : ℤ) (capacity : ℕ)
  | insufficientPages (required provided srcPageOffset dcpRank : ℕ)
  | indexOutOfBounds
  deriving DecidableEq

/-- `DCPTokenTransferPlan`. -/
structure DCPTokenTransferPlan where
  srcTokenIndices : List ℕ
  dstTokenIndices : List ℕ
  deriving DecidableEq

/-- The copies of a plan, from a slot of the prefill pool to one of the rank's pool. -/
def DCPTokenTransferPlan.copies (plan : DCPTokenTransferPlan) : List (ℕ × ℕ) :=
  plan.srcTokenIndices.zip plan.dstTokenIndices

/-- `np.arange(first, last, step)`. -/
def arange (first last step : ℕ) : List ℕ := range' first (pageCount step (last - first)) step

/-- `pages[offsets // page_size] * page_size + offsets % page_size`. -/
def tokenIndices (pageSize : ℕ) (pages offsets : List ℕ) : Except PlanError (List ℕ) :=
  offsets.mapM fun offset =>
    match pages[offset / pageSize]? with
    | some page => .ok (page * pageSize + offset % pageSize)
    | none => .error .indexOutOfBounds

namespace Parallel

variable (parallel : Parallel) (physicalPageSize decodePrefixLen : ℕ)

/-- The check of the destination pages and, where they suffice, the slots on them. -/
def dstTokenIndices (dstPageIndices : List ℕ) (srcPageOffset : ℕ) (dstLocalOffsets : List ℕ) :
    Except PlanError (List ℕ) :=
  let dstPageOrdinals := dstLocalOffsets.map (· / physicalPageSize)
  let slots := tokenIndices physicalPageSize dstPageIndices dstLocalOffsets
  match dstPageOrdinals.max? with
  | some last =>
    if dstPageIndices.length = 0 ∨ dstPageIndices.length ≤ last then
      .error (.insufficientPages (last + 1) dstPageIndices.length srcPageOffset parallel.dcpRank)
    else slots
  | none => slots

/-- `build_dcp_token_transfer_plan`. -/
def buildDcpTokenTransferPlan (srcPageIndices dstPageIndices : List ℕ) (srcPageOffset : ℕ)
    (numKvTokens : Option ℤ) : Except PlanError DCPTokenTransferPlan := do
  let virtualPageSize := physicalPageSize * parallel.dcpSize
  if decodePrefixLen % virtualPageSize ≠ 0 then
    throw (.unalignedPrefix virtualPageSize decodePrefixLen)
  let sourceCapacity := srcPageIndices.length * physicalPageSize
  let numKvTokens := numKvTokens.getD sourceCapacity
  if ¬(0 ≤ numKvTokens ∧ numKvTokens ≤ sourceCapacity) then
    throw (.tokensDoNotFit numKvTokens sourceCapacity)
  if srcPageIndices.length = 0 then
    return ⟨[], []⟩
  let chunkStart := decodePrefixLen + srcPageOffset * physicalPageSize
  let firstOwnedOffset := ((parallel.dcpRank - chunkStart : ℤ) % parallel.dcpSize).toNat
  let ownedOffsets := arange firstOwnedOffset numKvTokens.toNat parallel.dcpSize
  let srcTokenIndices ← tokenIndices physicalPageSize srcPageIndices ownedOffsets
  let relativePositions := ownedOffsets.map (srcPageOffset * physicalPageSize + ·)
  let dstLocalOffsets := relativePositions.map (· / parallel.dcpSize)
  let dstTokenIndices ← parallel.dstTokenIndices physicalPageSize dstPageIndices srcPageOffset
    dstLocalOffsets
  return ⟨srcTokenIndices, dstTokenIndices⟩

/-- The plans for the chunks of a request from a source page on, of which only the last one may
be partially filled. -/
def chunkPlans (dstPageIndices : List ℕ) :
    ℕ → List (List ℕ) → ℕ → List (Except PlanError DCPTokenTransferPlan)
  | _, [], _ => []
  | srcPageOffset, chunk :: chunks, tokens =>
    parallel.buildDcpTokenTransferPlan physicalPageSize decodePrefixLen chunk dstPageIndices
        srcPageOffset (some (min tokens (chunk.length * physicalPageSize) : ℕ)) ::
      chunkPlans dstPageIndices (srcPageOffset + chunk.length) chunks
        (tokens - chunk.length * physicalPageSize)

end Parallel

variable {size first : ℕ} {pages dst : List ℕ}

/-- Inside the pages every offset has its slot. -/
theorem tokenIndices_eq {offsets : List ℕ}
    (inside : ∀ offset ∈ offsets, offset / size < pages.length) :
    tokenIndices size pages offsets = .ok (offsets.map (slotAt size pages)) := by
  induction offsets with
  | nil => rfl
  | cons offset offsets ih =>
    obtain ⟨here, later⟩ := forall_mem_cons.mp inside
    rw [tokenIndices, mapM_cons, ← tokenIndices, ih later, map_cons,
      slotAt, getD_eq_getElem?_getD, getElem?_eq_getElem here]
    rfl

/-- The slot of an offset on pages that stand in the middle of others. -/
theorem slotAt_append (positive : 0 < size) (before after : List ℕ) {offset : ℕ}
    (inside : offset < pages.length * size) :
    slotAt size (before ++ (pages ++ after)) (before.length * size + offset) =
      slotAt size pages offset := by
  have page := (Nat.div_lt_iff_lt_mul positive).mpr inside
  rw [slotAt, slotAt, Nat.mul_add_mod_self_right, mul_comm before.length,
    Nat.mul_add_div positive, getD_eq_getElem?_getD, getElem?_append_right (Nat.le_add_right ..),
    Nat.add_sub_cancel_left, getElem?_append_left page, getD_eq_getElem?_getD]

namespace Parallel

variable {parallel : Parallel}

/-- The tokens of a window that the rank owns. -/
def ownedFrom (parallel : Parallel) (start tokens : ℕ) : List ℕ :=
  parallel.owned ⟨0, some start, tokens⟩

/-- The owned tokens of a window are a progression. -/
theorem ownedFrom_eq (start tokens : ℕ) :
    parallel.ownedFrom start tokens = range' (parallel.firstOwned start)
      (pageCount parallel.dcpSize (start + tokens - parallel.firstOwned start)) parallel.dcpSize :=
  parallel.owned_eq _

/-- They are those of the rank's residue. -/
theorem mem_ownedFrom {start tokens t : ℕ} : t ∈ parallel.ownedFrom start tokens ↔
      (start ≤ t ∧ t < start + tokens) ∧ t % parallel.dcpSize = parallel.dcpRank := by
  simp only [ownedFrom, owned, Request.window, mem_filter, mem_range'_1, decide_eq_true_eq]
  rfl

/-- Windows one after the other. -/
theorem ownedFrom_add (start first second : ℕ) : parallel.ownedFrom start (first + second) =
      parallel.ownedFrom start first ++ parallel.ownedFrom (start + first) second := by
  simp [ownedFrom, owned, Request.window, Request.kvStart, ← filter_append]

/-- The targets or an error. -/
theorem dstTokenIndices_cases (offsets : List ℕ) :
    let result := parallel.dstTokenIndices size dst first offsets
    (∃ offset ∈ offsets, dst.length ≤ offset / size) ∧
      (∃ required, result = .error (.insufficientPages required dst.length first
        parallel.dcpRank)) ∨
    (∀ offset ∈ offsets, offset / size < dst.length) ∧
      result = .ok (offsets.map (slotAt size dst)) := by
  rw [dstTokenIndices]
  split
  next last peak =>
    obtain ⟨member, highest⟩ := max?_eq_some_iff.mp peak
    rw [forall_mem_map] at highest
    split
    next short =>
      obtain ⟨offset, listed, rfl⟩ := mem_map.mp member
      exact .inl ⟨⟨offset, listed, short.elim (fun empty => by simp [empty]) id⟩, _, rfl⟩
    next enough =>
      have inside : ∀ offset ∈ offsets, offset / size < dst.length := by
        intro offset listed
        have := highest offset listed
        omega
      exact .inr ⟨inside, tokenIndices_eq inside⟩
  next nothing =>
    obtain rfl := map_eq_nil_iff.mp (max?_eq_none_iff.mp nothing)
    exact .inr ⟨nofun, rfl⟩

variable {prior : ℕ}

section

variable (positive : 0 < size) (aligned : size * parallel.dcpSize ∣ prior)
include positive aligned

/-- A plan copies the owned tokens of its chunk, unless the slot of one of them lies behind the
destination pages. -/
theorem build_cases {tokens : ℕ} (fits : tokens ≤ pages.length * size) :
    let result := parallel.buildDcpTokenTransferPlan size prior pages dst first (some tokens)
    let mine := parallel.ownedFrom (first * size) tokens
    (∃ t ∈ mine, dst.length ≤ t / parallel.dcpSize / size) ∧
      (∃ required, result = .error (.insufficientPages required dst.length first
        parallel.dcpRank)) ∨
    (∀ t ∈ mine, t / parallel.dcpSize / size < dst.length) ∧
      ∃ plan, result = .ok plan ∧ plan.copies = mine.map fun t =>
        (slotAt size pages (t - first * size), slotAt size dst (t / parallel.dcpSize)) := by
  have capacity : (0 : ℤ) ≤ tokens ∧ (tokens : ℤ) ≤ (pages.length * size : ℕ) := by omega
  have owned : parallel.ownedFrom (first * size) tokens =
      (arange ((parallel.dcpRank - (prior + first * size : ℕ) : ℤ) % parallel.dcpSize).toNat tokens
        parallel.dcpSize).map (first * size + ·) := by
    have least := (parallel.firstOwned_bounds (first * size)).1
    have start := parallel.firstOwned_eq (first * size)
    obtain ⟨groups, rfl⟩ := (dvd_mul_left ..).trans aligned
    have shifted : (parallel.dcpRank - (parallel.dcpSize * groups + first * size : ℕ) : ℤ) =
        parallel.dcpRank - (first * size : ℕ) - parallel.dcpSize * groups := by omega
    rw [shifted, Int.sub_mul_emod_self_left, ownedFrom_eq, arange, map_add_range']
    congr 2 <;> omega
  simp only [buildDcpTokenTransferPlan, Nat.mod_eq_zero_of_dvd aligned, Option.getD_some, capacity,
    Int.toNat_natCast]
  by_cases empty : pages.length = 0
  · obtain rfl : tokens = 0 := by simpa [empty] using fits
    exact .inr ⟨nofun, _, if_pos empty, rfl⟩
  generalize arange _ tokens parallel.dcpSize = offsets at owned
  have inside : ∀ offset ∈ offsets, offset / size < pages.length := by
    intro offset member
    have listed := (mem_ownedFrom.mp (owned ▸ mem_map_of_mem member)).1
    rw [Nat.div_lt_iff_lt_mul positive]
    omega
  rw [if_neg empty, tokenIndices_eq inside, owned, map_map]
  obtain ⟨⟨place, listed, behind⟩, required, raised⟩ | ⟨enough, returned⟩ :=
    @dstTokenIndices_cases size first dst parallel
      (offsets.map ((· / parallel.dcpSize) ∘ (first * size + ·)))
  · obtain ⟨offset, member, rfl⟩ := mem_map.mp listed
    refine .inl ⟨⟨_, mem_map_of_mem member, behind⟩, required, ?_⟩
    rw [raised]
    rfl
  · rw [returned]
    refine .inr ⟨forall_mem_map.mpr (forall_mem_map.mp enough), _, rfl, ?_⟩
    simp [DCPTokenTransferPlan.copies, zip_map']

/-- Only a token whose slot lies behind the destination pages makes the plan of a chunk fail, and
where the chunks have plans, these copy the owned tokens from the request's pages. -/
theorem chunkPlans_spec (before : List ℕ) (chunks : List (List ℕ)) (tokens : ℕ) :
    let results := parallel.chunkPlans size prior dst before.length chunks tokens
    let mine := parallel.ownedFrom (before.length * size) tokens
    (∀ error, .error error ∈ results → (∃ t ∈ mine, dst.length ≤ t / parallel.dcpSize / size) ∧
      ∃ required start, error = .insufficientPages required dst.length start parallel.dcpRank) ∧
    ∀ plans : List _, results = plans.map .ok → tokens ≤ chunks.flatten.length * size →
      (∀ t ∈ mine, t / parallel.dcpSize / size < dst.length) ∧
        plans.flatMap (·.copies) = mine.map fun t =>
          (slotAt size (before ++ chunks.flatten) t, slotAt size dst (t / parallel.dcpSize)) := by
  induction chunks generalizing before tokens with
  | nil =>
    refine ⟨nofun, fun plans returned fits => ?_⟩
    obtain rfl := map_eq_nil_iff.mp returned.symm
    obtain rfl : tokens = 0 := by simpa using fits
    exact ⟨nofun, rfl⟩
  | cons chunk chunks ih =>
    have window : parallel.ownedFrom (before.length * size) tokens =
        parallel.ownedFrom (before.length * size) (min tokens (chunk.length * size)) ++
          parallel.ownedFrom ((before ++ chunk).length * size) (tokens - chunk.length * size) := by
      rw [length_append, add_mul]
      obtain last | full := le_total tokens (chunk.length * size)
      · rw [min_eq_left last, Nat.sub_eq_zero_of_le last]
        exact (append_nil _).symm
      · rw [min_eq_right full, ← ownedFrom_add, Nat.add_sub_cancel' full]
    have here := @build_cases _ before.length chunk dst parallel prior positive aligned _
      (min_le_right tokens (chunk.length * size))
    obtain ⟨later, copied⟩ := ih (before ++ chunk) (tokens - chunk.length * size)
    rw [length_append] at later copied
    refine ⟨fun error raised => ?_, fun plans returned fits => ?_⟩
    · rw [window]
      obtain head | tail := mem_cons.mp raised
      · obtain ⟨⟨t, mine, behind⟩, required, failed⟩ | ⟨-, _, made, -⟩ := here
        · exact ⟨⟨t, mem_append_left _ mine, behind⟩, required, _,
            Except.error.inj (head.trans failed)⟩
        · exact absurd (head.trans made) nofun
      · obtain ⟨⟨t, mine, behind⟩, named⟩ := later error tail
        exact ⟨⟨t, mem_append_right _ (length_append ▸ mine), behind⟩, named⟩
    · obtain ⟨plan, plans, rfl, head, tail⟩ := map_eq_cons_iff.mp returned.symm
      obtain ⟨-, _, failed⟩ | ⟨covered, _, made, copies⟩ := here
      · exact absurd (head.trans failed) nofun
      obtain rfl := Except.ok.inj (head.trans made)
      rw [flatten_cons, length_append, add_mul] at fits
      obtain ⟨laterCovered, laterCopies⟩ := copied plans tail.symm (by omega)
      rw [← length_append] at laterCovered laterCopies
      rw [flatMap_cons, laterCopies, copies, window, map_append, append_assoc, flatten_cons]
      refine ⟨forall_mem_append.mpr ⟨covered, laterCovered⟩, ?_⟩
      congr 1
      refine map_congr_left fun t mine => ?_
      obtain ⟨⟨low, high⟩, -⟩ := mem_ownedFrom.mp mine
      have inside : t - before.length * size < chunk.length * size := by omega
      rw [← slotAt_append positive before chunks.flatten inside, Nat.add_sub_cancel' low]

end

/-- From an aligned prefix on the rank's tokens are a group apart. -/
theorem lt_getDcpLens_iff (aligned : parallel.dcpSize ∣ prior) {tokens place : ℕ} :
    place < getDcpLens tokens parallel.dcpSize parallel.dcpRank (some prior) ↔
      place * parallel.dcpSize + parallel.dcpRank < tokens := by
  have start : parallel.firstOwned prior = prior + parallel.dcpRank := by
    simp [firstOwned, Nat.mod_eq_zero_of_dvd aligned, Nat.mod_eq_of_lt parallel.inside]
  have count : getDcpLens tokens parallel.dcpSize parallel.dcpRank (some prior) =
      (parallel.ownedFrom prior tokens).length := parallel.getDcpLens_eq ⟨0, some prior, tokens⟩
  rw [count, ownedFrom_eq, length_range', Nat.cast_lt, lt_pageCount_iff parallel.positive]
  omega

/-- **The transfer is an exact partition.** Every way of cutting a request's source pages into
chunks sends every token once: to the rank that owns its position, and there to the slot of its
local position. A plan fails only on a rank whose pages are too few for its tokens. -/
theorem chunkPlans_partition {dcpSize physicalPageSize decodePrefixLen : ℕ} (group : 0 < dcpSize)
    (positive : 0 < physicalPageSize) (aligned : physicalPageSize * dcpSize ∣ decodePrefixLen)
    (chunks : List (List ℕ)) (tokens : ℕ)
    (fits : tokens ≤ chunks.flatten.length * physicalPageSize) (dstPageIndices : ℕ → List ℕ) :
    (∀ (rank : Fin dcpSize) (error : PlanError), .error error ∈ chunkPlans ⟨dcpSize, rank, rank.2⟩
          physicalPageSize decodePrefixLen (dstPageIndices rank) 0 chunks tokens →
      (∃ required offset, error =
          .insufficientPages required (dstPageIndices rank).length offset rank) ∧
        ((dstPageIndices rank).length * physicalPageSize : ℕ) <
          getDcpLens tokens dcpSize rank (some decodePrefixLen)) ∧
    ∀ plans : ℕ → List DCPTokenTransferPlan,
      (∀ rank : Fin dcpSize, chunkPlans ⟨dcpSize, rank, rank.2⟩ physicalPageSize decodePrefixLen
        (dstPageIndices rank) 0 chunks tokens = (plans rank).map .ok) →
      (∀ t < tokens, t / dcpSize / physicalPageSize <
        (dstPageIndices ((decodePrefixLen + t) % dcpSize)).length) ∧
      ((finRange dcpSize).flatMap fun rank : Fin dcpSize =>
          ((plans rank).flatMap (·.copies)).map (Prod.mk rank.1)).Perm
        ((range tokens).map fun t =>
          ((decodePrefixLen + t) % dcpSize, slotAt physicalPageSize chunks.flatten t,
            slotAt physicalPageSize (dstPageIndices ((decodePrefixLen + t) % dcpSize))
              (t / dcpSize))) := by
  obtain ⟨groups, whole⟩ := (Nat.dvd_mul_left dcpSize physicalPageSize).trans aligned
  have spec (rank : Fin dcpSize) := @chunkPlans_spec physicalPageSize (dstPageIndices rank)
    ⟨dcpSize, rank, rank.2⟩ decodePrefixLen positive aligned [] chunks tokens
  simp only [length_nil, Nat.zero_mul, nil_append] at spec
  have same (t : ℕ) : (decodePrefixLen + t) % dcpSize = t % dcpSize := by
    rw [whole, Nat.mul_add_mod]
  simp only [same]
  refine ⟨fun rank error raised => ?_, fun plans returned => ⟨fun t below => ?_, ?_⟩⟩
  · obtain ⟨⟨t, mine, behind⟩, named⟩ := (spec rank).1 error raised
    obtain ⟨⟨-, below⟩, owner⟩ := mem_ownedFrom.mp mine
    refine ⟨named, (@lt_getDcpLens_iff ⟨dcpSize, rank, rank.2⟩ _ ⟨groups, whole⟩ _ _).mpr ?_⟩
    have before := Nat.mul_le_mul_right dcpSize ((Nat.le_div_iff_mul_le positive).mp behind)
    have split := Nat.div_add_mod' t dcpSize
    dsimp only at owner before ⊢
    omega
  · exact ((spec ⟨_, Nat.mod_lt t group⟩).2 _ (returned _) fits).1 t
      (mem_ownedFrom.mpr ⟨by omega, rfl⟩)
  · rw [range_eq_range']
    refine .trans (.of_eq ?_) ((flatMap_owned_perm ⟨dcpSize, 0, group⟩ ⟨0, some 0, tokens⟩).map _)
    rw [map_flatMap]
    refine flatMap_congr fun rank _ => ?_
    rw [((spec rank).2 _ (returned rank) fits).2, map_map]
    refine map_congr_left fun t mine => ?_
    rw [Function.comp_apply, (mem_ownedFrom.mp mine).2]

/-- A request of three tokens in two chunks, for a group of two ranks. -/
theorem chunkPlans_partition_two_chunks : ((finRange 2).flatMap fun rank : Fin 2 =>
        (([[⟨[6], [10]⟩, ⟨[16], [11]⟩], [⟨[7], [12]⟩, ⟨[], []⟩]].getD rank []).flatMap
          DCPTokenTransferPlan.copies).map (Prod.mk rank.1)).Perm
      [(0, 6, 10), (1, 7, 12), (0, 16, 11)] :=
  ((@chunkPlans_partition 2 2 4 (by decide) (by decide) (by decide) [[3], [8]] 3 (by decide)
    ([[5], [6]].getD · [])).2 ([[⟨[6], [10]⟩, ⟨[16], [11]⟩], [⟨[7], [12]⟩, ⟨[], []⟩]].getD · [])
    fun rank => by fin_cases rank <;> rfl).2

end Parallel

end AvaServe.Dcp
