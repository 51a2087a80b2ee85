import Mathlib

/-!
# Chunked assignments

The ranks that need an expert are spread over the ranks that have it: the elements are
cut into as many chunks as there are chunk values, the first ones one longer than the
others. A receiver asks for the chunk of an element, a sender for the elements of a
chunk, and the two answers agree.
-/

namespace AvaServe.Eplb

open List

/-- `_ChunkUtils`. -/
structure ChunkUtils where
  chunkValues : List ℕ
  elementValues : List ℕ

namespace ChunkUtils

/-- `_chunk_index_from_element_index`. -/
def chunkIndexFromElementIndex (numElements numChunks elementIndex : ℕ) : ℕ :=
  let shortChunkSize := numElements / numChunks
  let numLongChunks := numElements % numChunks
  let numElementsForLongChunks := numLongChunks * (shortChunkSize + 1)
  if elementIndex < numElementsForLongChunks then
    elementIndex / (shortChunkSize + 1)
  else
    numLongChunks + (elementIndex - numElementsForLongChunks) / shortChunkSize

/-- The start and the end of the slice of a chunk. -/
def elementSliceFromChunkIndex (numElements numChunks chunkIndex : ℕ) : ℕ × ℕ :=
  let shortChunkSize := numElements / numChunks
  let numLongChunks := numElements % numChunks
  let start := chunkIndex * shortChunkSize + min chunkIndex numLongChunks
  (start, start + shortChunkSize + if chunkIndex < numLongChunks then 1 else 0)

/-- `list.index`, which raises for an absent value. -/
def index (values : List ℕ) (value : ℕ) : Option ℕ :=
  if value ∈ values then some (values.idxOf value) else none

/-- `none` when the element is absent or there is no chunk. -/
def chunkValueFromElementValue (utils : ChunkUtils) (elementValue : ℕ) : Option ℕ :=
  if utils.chunkValues = [] then
    none
  else do
    let elementIndex ← index utils.elementValues elementValue
    utils.chunkValues[chunkIndexFromElementIndex utils.elementValues.length
      utils.chunkValues.length elementIndex]?

/-- `none` when there are elements and the chunk value is absent. -/
def elementValuesFromChunkValue (utils : ChunkUtils) (chunkValue : ℕ) : Option (List ℕ) :=
  if utils.elementValues = [] then
    some []
  else do
    let chunkIndex ← index utils.chunkValues chunkValue
    let slice := elementSliceFromChunkIndex utils.elementValues.length utils.chunkValues.length
      chunkIndex
    some ((utils.elementValues.take slice.2).drop slice.1)

/-- The chunk of an element is the one whose slice holds it. -/
theorem chunkIndex_eq_iff {numElements numChunks elementIndex chunkIndex : ℕ}
    (inside : elementIndex < numElements) (chunk : chunkIndex < numChunks) :
    chunkIndexFromElementIndex numElements numChunks elementIndex = chunkIndex ↔
      (elementSliceFromChunkIndex numElements numChunks chunkIndex).1 ≤ elementIndex ∧
        elementIndex < (elementSliceFromChunkIndex numElements numChunks chunkIndex).2 := by
  have total := Nat.div_add_mod numElements numChunks
  unfold chunkIndexFromElementIndex elementSliceFromChunkIndex
  dsimp only
  generalize numElements / numChunks = short at *
  generalize numElements % numChunks = long at *
  have longSize : long * (short + 1) = long * short + long := Nat.mul_succ long short
  by_cases early : elementIndex < long * (short + 1)
  · rw [if_pos early]
    by_cases isLong : chunkIndex < long
    · rw [if_pos isLong, Nat.div_eq_iff (show 0 < short + 1 from Nat.succ_pos short)]
      have size : chunkIndex * (short + 1) = chunkIndex * short + chunkIndex :=
        Nat.mul_succ chunkIndex short
      omega
    · have more : long * short ≤ chunkIndex * short := Nat.mul_le_mul_right short (not_lt.mp isLong)
      have fewer : elementIndex / (short + 1) < long :=
        (Nat.div_lt_iff_lt_mul (Nat.succ_pos short)).mpr early
      omega
  · rw [if_neg early]
    by_cases isLong : chunkIndex < long
    · have size : (chunkIndex + 1) * (short + 1) ≤ long * (short + 1) :=
        Nat.mul_le_mul_right _ isLong
      have expand : (chunkIndex + 1) * (short + 1) =
        chunkIndex * short + chunkIndex + short + 1 := by
        ring
      rw [if_pos isLong]
      generalize (elementIndex - long * (short + 1)) / short = quotient
      omega
    · obtain ⟨further, rfl⟩ := Nat.exists_eq_add_of_le (not_lt.mp isLong)
      have positive : 0 < short := by
        by_contra zero
        obtain rfl : short = 0 := by omega
        omega
      have expand : (long + further) * short = long * short + further * short :=
        add_mul long further short
      rw [if_neg isLong, add_left_cancel_iff, Nat.div_eq_iff positive]
      omega

/-- Every element lies in a chunk. -/
theorem chunkIndex_lt {numElements numChunks elementIndex : ℕ} (positive : 0 < numChunks)
    (inside : elementIndex < numElements) :
    chunkIndexFromElementIndex numElements numChunks elementIndex < numChunks := by
  have total := Nat.div_add_mod numElements numChunks
  have rest := Nat.mod_lt numElements positive
  unfold chunkIndexFromElementIndex
  dsimp only
  generalize numElements / numChunks = short at *
  generalize numElements % numChunks = long at *
  have longSize : long * (short + 1) = long * short + long := Nat.mul_succ long short
  split
  next early => exact ((Nat.div_lt_iff_lt_mul (Nat.succ_pos short)).mpr early).trans rest
  next early =>
    obtain ⟨more, rfl⟩ := Nat.exists_eq_add_of_le rest.le
    have positive : 0 < short := by
      by_contra zero
      obtain rfl : short = 0 := by omega
      omega
    have expand : (long + more) * short = long * short + more * short := add_mul long more short
    refine Nat.add_lt_add_left ((Nat.div_lt_iff_lt_mul positive).mpr ?_) long
    omega

variable {utils : ChunkUtils}

/-- The index of a value. -/
theorem index_eq_some_iff {values : List ℕ} (nodup : values.Nodup) {value position : ℕ} :
    index values value = some position ↔ values[position]? = some value := by
  unfold index
  split
  next member =>
    constructor
    · intro found
      cases found
      exact getElem?_idxOf member
    · intro found
      obtain ⟨less, rfl⟩ := List.getElem?_eq_some_iff.mp found
      rw [nodup.idxOf_getElem]
  next absent =>
    constructor
    · intro located
      cases located
    · intro found
      exact absurd (mem_of_getElem? found) absent

/-- A sender lists exactly the receivers that ask it. -/
theorem mem_elementValues_iff (chunks : utils.chunkValues.Nodup)
    (elements : utils.elementValues.Nodup)
    {chunkValue : ℕ} (isChunk : chunkValue ∈ utils.chunkValues) :
    ∃ values, utils.elementValuesFromChunkValue chunkValue = some values ∧ values.Nodup ∧
      ∀ value, value ∈ values ↔ utils.chunkValueFromElementValue value = some chunkValue := by
  have nonempty : utils.chunkValues ≠ [] := ne_nil_of_mem isChunk
  unfold elementValuesFromChunkValue chunkValueFromElementValue
  by_cases empty : utils.elementValues = []
  · refine ⟨[], by rw [if_pos empty], nodup_nil, fun value => ?_⟩
    rw [index, empty]
    simp
  obtain ⟨chunk, chunkLess, isAt⟩ := getElem_of_mem isChunk
  have located : index utils.chunkValues chunkValue = some chunk :=
    (index_eq_some_iff chunks).mpr (List.getElem?_eq_some_iff.mpr ⟨chunkLess, isAt⟩)
  set slice := elementSliceFromChunkIndex utils.elementValues.length utils.chunkValues.length chunk
  refine ⟨(utils.elementValues.take slice.2).drop slice.1, ?_,
    (elements.sublist (take_sublist _ _)).sublist (drop_sublist _ _), fun value => ?_⟩
  · rw [if_neg empty, located]
    rfl
  rw [if_neg nonempty]
  have slots : value ∈ (utils.elementValues.take slice.2).drop slice.1 ↔
      ∃ position, utils.elementValues[position]? = some value ∧ slice.1 ≤ position ∧
        position < slice.2 := by
    rw [mem_iff_getElem?]
    constructor
    · rintro ⟨position, found⟩
      rw [getElem?_drop, getElem?_take] at found
      split at found
      next less => exact ⟨slice.1 + position, found, Nat.le_add_right _ _, less⟩
      · cases found
    · rintro ⟨position, found, low, high⟩
      refine ⟨position - slice.1, ?_⟩
      rw [getElem?_drop, Nat.add_sub_cancel' low, getElem?_take, if_pos high]
      exact found
  rw [slots]
  constructor
  · rintro ⟨position, found, low, high⟩
    have inside := (List.getElem?_eq_some_iff.mp found).1
    rw [(index_eq_some_iff elements).mpr found]
    change utils.chunkValues[chunkIndexFromElementIndex _ _ position]? = _
    rw [(chunkIndex_eq_iff inside chunkLess).mpr ⟨low, high⟩]
    exact List.getElem?_eq_some_iff.mpr ⟨chunkLess, isAt⟩
  · intro chosen
    obtain ⟨position, located, chosen⟩ := Option.bind_eq_some_iff.mp chosen
    have found := (index_eq_some_iff elements).mp located
    have inside := (List.getElem?_eq_some_iff.mp found).1
    obtain ⟨less, equal⟩ := List.getElem?_eq_some_iff.mp chosen
    have same : chunkIndexFromElementIndex utils.elementValues.length utils.chunkValues.length
        position = chunk := (chunks.getElem_inj_iff).mp (equal.trans isAt.symm)
    exact ⟨position, found, (chunkIndex_eq_iff inside chunkLess).mp same⟩

/-- A receiver finds a sender when there is one. -/
theorem exists_chunkValue (chunks : utils.chunkValues ≠ []) (elements : utils.elementValues.Nodup)
    {value : ℕ} (isElement : value ∈ utils.elementValues) :
    ∃ chunkValue ∈ utils.chunkValues, utils.chunkValueFromElementValue value = some chunkValue := by
  obtain ⟨position, less, isAt⟩ := getElem_of_mem isElement
  have located : index utils.elementValues value = some position :=
    (index_eq_some_iff elements).mpr (List.getElem?_eq_some_iff.mpr ⟨less, isAt⟩)
  have chunk := chunkIndex_lt (length_pos_iff.mpr chunks) less
  refine ⟨_, getElem_mem chunk, ?_⟩
  rw [chunkValueFromElementValue, if_neg chunks, located]
  exact getElem?_eq_getElem chunk

/-- The chosen value is a chunk value. -/
theorem mem_of_chunkValue {value chunkValue : ℕ}
    (chosen : utils.chunkValueFromElementValue value = some chunkValue) :
    value ∈ utils.elementValues ∧ chunkValue ∈ utils.chunkValues := by
  unfold chunkValueFromElementValue at chosen
  split at chosen
  · cases chosen
  obtain ⟨position, located, chosen⟩ := Option.bind_eq_some_iff.mp chosen
  refine ⟨?_, mem_of_getElem? chosen⟩
  unfold index at located
  split at located
  · assumption
  · cases located

end ChunkUtils

end AvaServe.Eplb
