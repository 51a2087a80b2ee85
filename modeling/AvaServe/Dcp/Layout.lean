import Mathlib
import AvaServe.Foundation.ScatterWrites

/-!
# The layout of decode context parallelism

A rank of the group owns the positions that are congruent to it. Its share of a window is
counted by a formula on the host, copied by two kernels and cut out of the slot list by two
filters; all of them take the owned positions of the window, in order.
-/

namespace AvaServe.Dcp

open Foundation List

/-- The group, as one of its ranks sees it. -/
structure Parallel where
  dcpSize : ℕ
  dcpRank : ℕ
  inside : dcpRank < dcpSize

/-- A request of a batch: its row of `req_to_token` and the window of positions to read, which
starts at the row's first position where the caller gives no start. -/
structure Request where
  reqPoolIndex : ℕ
  start : Option ℕ
  length : ℕ

/-- `get_dcp_lens` for one request. -/
def getDcpLens (lens dcpSize dcpRank : ℤ) (start : Option ℤ) : ℤ :=
  if dcpSize = 1 then lens
  else match start with
    | none => lens / dcpSize + if dcpRank < lens % dcpSize then 1 else 0
    | some start =>
      let first := start + (dcpRank - start) % dcpSize
      let remaining := start + lens - first
      max ((remaining + dcpSize - 1) / dcpSize) 0

namespace Request

/-- `kv_start`. -/
def kvStart (request : Request) : ℕ := request.start.getD 0

/-- The positions of a request. -/
def window (request : Request) : List ℕ := range' request.kvStart request.length

/-- The slots of the window, which stand in its row of `req_to_token`. -/
def slots (reqToToken : ℕ → ℕ) (stride : ℕ) (request : Request) : List ℕ :=
  request.window.map fun position => reqToToken (request.reqPoolIndex * stride + position)

end Request

/-- `values[first : last : step]`. -/
def slice (values : List ℕ) (first last step : ℕ) : List ℕ :=
  (range' first (pageCount step (last - first)) step).filterMap (values[·]?)

namespace Parallel

variable (parallel : Parallel)

/-- `dcp_enabled`. -/
def dcpEnabled : Bool := 1 < parallel.dcpSize

/-- The length of a request's share, as the callers of the kernels compute it. -/
def localLen (request : Request) : ℕ :=
  (getDcpLens request.length parallel.dcpSize parallel.dcpRank (request.start.map Nat.cast)).toNat

/-- What a kernel stores: every address with the loaded value, which is divided. -/
def stored (loaded : ℕ → ℕ) (copies : List (ℕ × ℕ)) : List (ℕ × ℕ) :=
  copies.map fun copy => (copy.1, loaded copy.2 / parallel.dcpSize)

/-- A program of `create_triton_kv_indices_for_dcp_triton`: the addresses it stores to, each with
the address of `req_to_token` that it loads. -/
def createTritonKvIndicesForDcpTriton (stride kvIndicesOffset : ℕ) (request : Request) :
    List (ℕ × ℕ) :=
  let kvStartMod := request.kvStart % parallel.dcpSize
  let first := request.kvStart +
    (parallel.dcpRank + parallel.dcpSize - kvStartMod) % parallel.dcpSize
  (range (pageCount 512 (parallel.localLen request))).flatMap fun i =>
    storeMasked kvIndicesOffset ((range 512).map (i * 512 + ·)) (parallel.localLen request)
      fun offset => request.reqPoolIndex * stride + (first + offset * parallel.dcpSize)

/-- The programs of `update_kv_lens_and_indices` for one request, with the addresses of
`kv_indices` that they load. -/
def updateKvLensAndIndices (numBlocks localKvIndicesStart kvIndicesStart : ℕ)
    (request : Request) : List (ℕ × ℕ) :=
  (range numBlocks).flatMap fun blockIdx =>
    storeMasked localKvIndicesStart ((range 128).map (blockIdx * 128 + ·))
      (parallel.localLen request)
      fun offset => offset * parallel.dcpSize + parallel.dcpRank + kvIndicesStart

/-- `num_blocks` of `plan_dcp_decode_metadata`. -/
def numBlocks (batch : List Request) : ℕ :=
  let maxLocalLen := (batch.map parallel.localLen).foldr max 0
  if 0 < maxLocalLen then (maxLocalLen + 128 - 1) / 128 else 1

/-- `filter_dcp_local_kv_indices`. -/
def filterDcpLocalKvIndices (kvIndices : List ℕ) : List ℕ :=
  if parallel.dcpEnabled then
    (kvIndices.filter (· % parallel.dcpSize = parallel.dcpRank)).map (· / parallel.dcpSize)
  else kvIndices

/-- The loop of `filter_dcp_local_chunk_kv_indices`. -/
def chunkParts (kvIndices : List ℕ) : ℕ → List Request → List (List ℕ)
  | _, [] => []
  | offset, request :: batch =>
    let first := ((parallel.dcpRank - request.kvStart : ℤ) % parallel.dcpSize).toNat
    slice kvIndices (offset + first) (offset + request.length) parallel.dcpSize ::
      chunkParts kvIndices (offset + request.length) batch

/-- `filter_dcp_local_chunk_kv_indices`. There is nothing to concatenate in an empty batch. -/
def filterDcpLocalChunkKvIndices (kvIndices : List ℕ) (batch : List Request) : Option (List ℕ) :=
  if parallel.dcpEnabled then
    if batch = [] then none
    else some ((parallel.chunkParts kvIndices 0 batch).flatten.map (· / parallel.dcpSize))
  else some kvIndices

/-! ## The owned positions -/

/-- The positions of a window that the rank owns. -/
def owned (request : Request) : List ℕ :=
  request.window.filter (· % parallel.dcpSize = parallel.dcpRank)

/-- The rank's share of the slots of a window. -/
def localSlots (reqToToken : ℕ → ℕ) (stride : ℕ) (request : Request) : List ℕ :=
  (parallel.owned request).map fun position =>
    reqToToken (request.reqPoolIndex * stride + position) / parallel.dcpSize

/-- The first owned position from a start on. -/
def firstOwned (start : ℕ) : ℕ :=
  start + (parallel.dcpRank + parallel.dcpSize - start % parallel.dcpSize) % parallel.dcpSize

/-- There is a rank. -/
theorem positive : 0 < parallel.dcpSize := Nat.zero_lt_of_lt parallel.inside

variable (start : ℕ)

/-- The first owned position is near. -/
theorem firstOwned_bounds :
    start ≤ parallel.firstOwned start ∧ parallel.firstOwned start < start + parallel.dcpSize :=
  ⟨Nat.le_add_right .., Nat.add_lt_add_left (Nat.mod_lt _ parallel.positive) start⟩

/-- It is of the rank's residue. -/
theorem firstOwned_mod : parallel.firstOwned start % parallel.dcpSize =
    parallel.dcpRank := by
  have small := Nat.mod_lt start parallel.positive
  have split := Nat.div_add_mod start parallel.dcpSize
  have total : start + (parallel.dcpRank + parallel.dcpSize - start % parallel.dcpSize) =
      parallel.dcpRank + parallel.dcpSize * (start / parallel.dcpSize + 1) := by
    rw [mul_add]
    omega
  rw [firstOwned, Nat.add_mod_mod, total, Nat.add_mul_mod_self_left,
    Nat.mod_eq_of_lt parallel.inside]

/-- The host's remainder, which is never negative, gives the same position. -/
theorem firstOwned_eq :
    (parallel.firstOwned start : ℤ) = start + (parallel.dcpRank - start) % parallel.dcpSize := by
  obtain ⟨least, small⟩ := parallel.firstOwned_bounds start
  rw [← congrArg Nat.cast (parallel.firstOwned_mod start), Int.natCast_mod, Int.emod_sub_emod,
    Int.emod_eq_of_lt (by omega) (by omega)]
  omega

/-- From 0 it is the rank. -/
theorem firstOwned_zero : parallel.firstOwned 0 = parallel.dcpRank := by
  simp [firstOwned, Nat.mod_eq_of_lt parallel.inside]

variable (request : Request)

/-- The owned positions start at the first one and are a group apart. -/
theorem owned_eq : parallel.owned request = range' (parallel.firstOwned request.kvStart)
      (pageCount parallel.dcpSize (request.kvStart + request.length -
        parallel.firstOwned request.kvStart)) parallel.dcpSize := by
  obtain ⟨least, small⟩ := parallel.firstOwned_bounds request.kvStart
  have first := parallel.firstOwned_mod request.kvStart
  refine Pairwise.eq_of_mem_iff ((pairwise_lt_range' 1).filter _)
    (pairwise_lt_range' _ parallel.positive) fun position => ?_
  rw [owned, Request.window, mem_filter, mem_range'_1, decide_eq_true_eq, mem_range']
  simp only [lt_pageCount_iff parallel.positive]
  constructor
  · rintro ⟨⟨low, high⟩, mine⟩
    have above : parallel.firstOwned request.kvStart ≤ position := by
      by_contra below
      have apart := Nat.le_of_dvd (by omega)
        ((Nat.modEq_iff_dvd' (by omega)).mp (mine.trans first.symm))
      omega
    obtain ⟨steps, apart⟩ := (Nat.modEq_iff_dvd' above).mp (first.trans mine.symm)
    refine ⟨steps, ?_, by omega⟩
    rw [mul_comm]
    omega
  · rintro ⟨steps, below, rfl⟩
    rw [mul_comm] at below
    exact ⟨⟨by omega, by omega⟩, by rw [Nat.add_mul_mod_self_left, first]⟩

/-- The host's formula counts the owned positions. -/
theorem getDcpLens_eq :
    getDcpLens request.length parallel.dcpSize parallel.dcpRank (request.start.map Nat.cast) =
      (parallel.owned request).length := by
  have inside := parallel.inside
  obtain ⟨least, small⟩ := parallel.firstOwned_bounds request.kvStart
  rw [owned_eq, length_range', getDcpLens.eq_def]
  split
  next single =>
    have one : parallel.dcpSize = 1 := by omega
    have here : parallel.firstOwned request.kvStart = request.kvStart := by omega
    rw [here, Nat.add_sub_cancel_left, one, pageCount, Nat.add_sub_cancel, Nat.div_one]
  next several =>
    obtain ⟨_, _ | start, length⟩ := request
    · have split := Nat.div_add_mod' length parallel.dcpSize
      have rest := Nat.mod_lt length parallel.positive
      simp only [Option.map_none, Request.kvStart, Option.getD_none, firstOwned_zero]
      norm_cast
      refine (Nat.div_eq_of_lt_le ?_ ?_).symm <;> split <;> simp only [add_mul] <;> omega
    · simp only [Option.map_some, Request.kvStart, Option.getD_some] at small ⊢
      rw [← parallel.firstOwned_eq start, pageCount]
      obtain fits | past := le_total (parallel.firstOwned start) (start + length)
      · have same : (start + length - parallel.firstOwned start + parallel.dcpSize - 1 : ℤ) =
            (start + length - parallel.firstOwned start + parallel.dcpSize - 1 : ℕ) := by omega
        rw [same, ← Int.natCast_div, max_eq_left (Int.natCast_nonneg _)]
      · rw [Int.ediv_eq_zero_of_lt (by omega) (by omega), Nat.div_eq_of_lt (by omega)]
        rfl

variable {request}

/-- A loop over enough blocks copies from the owned positions to consecutive addresses. -/
theorem copies_eq {base shift start width blocks : ℕ}
    (covers : parallel.localLen request ≤ blocks * width)
    (first : parallel.firstOwned request.kvStart = start) : ((range blocks).flatMap fun block =>
        storeMasked base ((range width).map (block * width + ·)) (parallel.localLen request)
          fun offset => shift + (start + offset * parallel.dcpSize)) =
      blockWrites base ((parallel.owned request).map (shift + ·)) := by
  have length : parallel.localLen request = (parallel.owned request).length := by
    rw [localLen, getDcpLens_eq, Int.toNat_natCast]
  rw [flatMap_storeMasked covers, length, owned_eq, first]
  congr 1
  refine ext_getElem (by simp) fun i _ _ => ?_
  simp [mul_comm]

/-- What such copies load and store. -/
theorem copies_spec {loaded value : ℕ → ℕ} {base shift : ℕ} {copies : List (ℕ × ℕ)}
    (isBlock : copies = blockWrites base ((parallel.owned request).map (shift + ·)))
    (loads : ∀ position ∈ request.window, loaded (shift + position) = value position) :
    copies.map Prod.snd = (parallel.owned request).map (shift + ·) ∧
      parallel.stored loaded copies = blockWrites base
        ((parallel.owned request).map fun position => value position / parallel.dcpSize) := by
  subst isBlock
  refine ⟨ext_getElem (by simp [blockWrites]) fun i _ _ => by simp [blockWrites],
    ext_getElem (by simp [stored, blockWrites]) fun i _ here => ?_⟩
  have bound : i < (parallel.owned request).length := by simpa [blockWrites] using here
  have member : (parallel.owned request)[i] ∈ request.window :=
    (mem_filter.mp (getElem_mem bound)).1
  simp [stored, blockWrites, loads _ member]

/-- The grid has enough blocks for every request. -/
theorem localLen_le {batch : List Request} (member : request ∈ batch) :
    parallel.localLen request ≤ parallel.numBlocks batch * 128 := by
  have below : parallel.localLen request ≤ (batch.map parallel.localLen).foldr max 0 :=
    le_max_of_le' 0 (mem_map_of_mem member) le_rfl
  unfold numBlocks
  dsimp only
  split
  · exact below.trans (le_pageCount_mul (by decide) _)
  · omega

variable {reqToToken : ℕ → ℕ} {stride : ℕ}

/-- A position of a window in a list that holds the window's slots. -/
theorem getElem?_window (before after : List ℕ) {position : ℕ}
    (member : position ∈ request.window) :
    (before ++ request.slots reqToToken stride ++ after)[before.length +
        (position - request.kvStart)]? =
      some (reqToToken (request.reqPoolIndex * stride + position)) := by
  obtain ⟨low, high⟩ := mem_range'_1.mp member
  have inside : position - request.kvStart < request.length := by omega
  rw [append_assoc, getElem?_append_right (Nat.le_add_right ..), Nat.add_sub_cancel_left,
    getElem?_append_left (by simpa [Request.slots, Request.window] using inside), Request.slots,
    Request.window, getElem?_map, getElem?_range' inside, Option.map_some, one_mul,
    Nat.add_sub_cancel' low]

/-- The parts of a chunk are the owned slots. -/
theorem chunkParts_eq (before : List ℕ) (batch : List Request) :
    parallel.chunkParts (before ++ batch.flatMap (·.slots reqToToken stride)) before.length batch =
      batch.map fun request => (parallel.owned request).map fun position =>
        reqToToken (request.reqPoolIndex * stride + position) := by
  induction batch generalizing before with
  | nil => rfl
  | cons request batch ih =>
    obtain ⟨least, -⟩ := parallel.firstOwned_bounds request.kvStart
    have first := parallel.firstOwned_eq request.kvStart
    have later := ih (before ++ request.slots reqToToken stride)
    rw [length_append, show (request.slots reqToToken stride).length = request.length by
      simp [Request.slots, Request.window]] at later
    rw [flatMap_cons, ← append_assoc, chunkParts, map_cons]
    congr 1
    have shifted : range' (before.length +
          ((parallel.dcpRank - request.kvStart : ℤ) % parallel.dcpSize).toNat)
        (pageCount parallel.dcpSize (before.length + request.length - (before.length +
          ((parallel.dcpRank - request.kvStart : ℤ) % parallel.dcpSize).toNat))) parallel.dcpSize =
        (parallel.owned request).map fun position =>
          before.length + (position - request.kvStart) := by
      rw [owned_eq, show before.length + request.length - (before.length +
          ((parallel.dcpRank - request.kvStart : ℤ) % parallel.dcpSize).toNat) =
        request.kvStart + request.length - parallel.firstOwned request.kvStart by omega]
      refine ext_getElem (by simp) fun i _ _ => ?_
      simp only [getElem_range', getElem_map]
      omega
    rw [slice, shifted, filterMap_map, ← filterMap_eq_map]
    refine filterMap_congr fun position member => ?_
    exact getElem?_window before _ (mem_filter.mp member).1

/-- A group of one rank owns all positions. -/
theorem localSlots_of_disabled (disabled : ¬parallel.dcpEnabled) (request : Request) :
    parallel.localSlots reqToToken stride request = request.slots reqToToken stride := by
  have inside := parallel.inside
  have single : parallel.dcpSize = 1 := by
    rw [dcpEnabled, decide_eq_true_eq] at disabled
    omega
  have first : parallel.dcpRank = 0 := by omega
  simp [localSlots, owned, Request.slots, single, first, Nat.mod_one]

/-- The positions of a window, rank by rank. -/
theorem flatMap_owned_perm (request : Request) :
    ((finRange parallel.dcpSize).flatMap fun rank : Fin parallel.dcpSize =>
      owned ⟨parallel.dcpSize, rank, rank.2⟩ request).Perm request.window := by
  refine (perm_ext_iff_of_nodup (nodup_flatMap.mpr ⟨fun _ _ => (nodup_range' ..).filter _,
    (nodup_finRange _).imp ?_⟩) (nodup_range' ..)).mpr fun position => ?_
  · intro left right different position here there
    simp only [mem_filter, decide_eq_true_eq] at here there
    exact different (Fin.ext (here.2.symm.trans there.2))
  · simp only [mem_flatMap, mem_finRange, true_and, mem_filter, decide_eq_true_eq]
    exact ⟨fun ⟨_, member, _⟩ => member,
      fun member => ⟨⟨_, Nat.mod_lt position parallel.positive⟩, member, rfl⟩⟩

/-- Ownership partitions every window: the host counts, the kernels copy and the filter by
position keeps the owned positions of every request, in order. Where slots are congruent to
their positions the filter by value keeps the same ones, and the shares of the ranks make up
the window. -/
theorem ranks_partition_windows (reqToToken : ℕ → ℕ) (stride : ℕ) (batch : List Request) :
    (∀ request ∈ batch,
      getDcpLens request.length parallel.dcpSize parallel.dcpRank (request.start.map Nat.cast) =
          (parallel.owned request).length ∧
        (∀ offset, let copies := parallel.createTritonKvIndicesForDcpTriton stride offset request
          copies.map Prod.snd = (parallel.owned request).map (request.reqPoolIndex * stride + ·) ∧
            parallel.stored reqToToken copies =
              blockWrites offset (parallel.localSlots reqToToken stride request)) ∧
        (request.start = none → ∀ localStart before after,
          let copies := parallel.updateKvLensAndIndices (parallel.numBlocks batch) localStart
            (length before) request
          copies.map Prod.snd = (parallel.owned request).map (before.length + ·) ∧
            parallel.stored ((before ++ request.slots reqToToken stride ++ after).getD · 0) copies =
              blockWrites localStart (parallel.localSlots reqToToken stride request))) ∧
      (batch ≠ [] → parallel.filterDcpLocalChunkKvIndices
          (batch.flatMap (·.slots reqToToken stride)) batch =
        some (batch.flatMap (parallel.localSlots reqToToken stride))) ∧
      ((∀ request ∈ batch, ∀ position ∈ request.window,
          reqToToken (request.reqPoolIndex * stride + position) % parallel.dcpSize =
            position % parallel.dcpSize) →
        parallel.filterDcpLocalKvIndices (batch.flatMap (·.slots reqToToken stride)) =
            batch.flatMap (parallel.localSlots reqToToken stride) ∧
          ∀ request ∈ batch, ((finRange parallel.dcpSize).flatMap fun rank : Fin _ =>
            ((⟨parallel.dcpSize, rank, rank.2⟩ : Parallel).localSlots reqToToken stride
              request).map (· * parallel.dcpSize + rank)).Perm
            (request.slots reqToToken stride)) := by
  refine ⟨fun request member => ⟨parallel.getDcpLens_eq request, fun offset => ?_,
    fun whole localStart before after => ?_⟩, fun nonempty => ?_, fun congruent => ⟨?_, ?_⟩⟩
  · exact parallel.copies_spec (parallel.copies_eq (le_pageCount_mul (by decide) _) rfl)
      fun _ _ => rfl
  · have start : request.kvStart = 0 := by rw [Request.kvStart, whole, Option.getD_none]
    refine parallel.copies_spec ?_ fun position inWindow => ?_
    · rw [← parallel.copies_eq (parallel.localLen_le member) (start ▸ parallel.firstOwned_zero),
        updateKvLensAndIndices]
      simp only [Nat.add_comm]
    · have found : _ = some (reqToToken (request.reqPoolIndex * stride + position)) :=
        getElem?_window before after inWindow
      rw [start, Nat.sub_zero] at found
      rw [getD_eq_getElem?_getD, found]
      rfl
  · -- by position: each request's part of the chunk is strided on its own
    rw [filterDcpLocalChunkKvIndices, if_neg nonempty]
    split
    · have parts := @chunkParts_eq parallel reqToToken stride [] batch
      rw [nil_append, length_nil] at parts
      rw [parts]
      simp [flatMap_def, Function.comp_def]
      rfl
    next disabled => simp only [funext (parallel.localSlots_of_disabled disabled)]
  · -- by value: a slot stands for its position modulo the number of ranks
    unfold filterDcpLocalKvIndices
    split
    · rw [filter_flatMap, map_flatMap]
      refine flatMap_congr fun request member => ?_
      rw [Request.slots, filter_map, map_map, localSlots, owned]
      congr 1
      refine filter_congr fun position inWindow => ?_
      rw [Function.comp_apply, congruent request member position inWindow]
    next disabled => simp only [funext (parallel.localSlots_of_disabled disabled)]
  · intro request member
    refine .trans (.of_eq ?_) ((parallel.flatMap_owned_perm request).map fun position =>
      reqToToken (request.reqPoolIndex * stride + position))
    rw [map_flatMap]
    refine flatMap_congr fun rank _ => ?_
    rw [localSlots, map_map]
    refine map_congr_left fun position mine => ?_
    obtain ⟨inWindow, isRank⟩ := mem_filter.mp mine
    have same : _ % parallel.dcpSize = (rank : ℕ) :=
      (congruent request member position inWindow).trans (of_decide_eq_true isRank)
    change _ / parallel.dcpSize * parallel.dcpSize + (rank : ℕ) = _
    rw [← same, Nat.div_add_mod']

/-- The second of two ranks, with rows of four slots of which one window starts inside. -/
theorem ranks_partition_windows_two :
    let parallel : Parallel := ⟨2, 1, by decide⟩
    let batch : List Request := [⟨0, none, 3⟩, ⟨1, some 1, 2⟩]
    parallel.filterDcpLocalChunkKvIndices (batch.flatMap (·.slots id 4)) batch = some [0, 2] ∧
      parallel.filterDcpLocalKvIndices (batch.flatMap (·.slots id 4)) = [0, 2] ∧
      ∀ request ∈ batch, ((finRange 2).flatMap fun rank : Fin 2 =>
        ((⟨2, rank, rank.2⟩ : Parallel).localSlots id 4 request).map (· * 2 + (rank : ℕ))).Perm
          (request.slots id 4) := by
  obtain ⟨-, chunks, congruent⟩ := ranks_partition_windows ⟨2, 1, by decide⟩ id 4
    [⟨0, none, 3⟩, ⟨1, some 1, 2⟩]
  obtain ⟨slots, shares⟩ := congruent (by decide)
  exact ⟨chunks (by decide), slots, shares⟩

end Parallel

end AvaServe.Dcp
