import Mathlib
import AvaServe.Foundation.Paging

/-!
# Scattered writes

A memory after a list of addressed writes. Writes to different addresses may be carried out
in any order. A block of writes fills consecutive addresses, and a loop over blocks of a
fixed width, masked at the end, fills the same addresses as one block of the whole length.
-/

namespace AvaServe.Foundation

open List Function Prod

section Scatter

variable {κ ν : Type*} [DecidableEq κ]

/-- The memory after the writes, carried out in order. -/
def scatter (memory : κ → ν) (writes : List (κ × ν)) : κ → ν :=
  writes.foldl (fun memory write => update memory write.1 write.2) memory

variable (memory : κ → ν)

/-- No write. -/
@[simp] theorem scatter_nil : scatter memory [] = memory := rfl

/-- The first write. -/
theorem scatter_cons (write : κ × ν) (writes : List (κ × ν)) : scatter memory (write :: writes) =
      scatter (update memory write.1 write.2) writes := rfl

/-- Writes in two parts. -/
theorem scatter_append (first second : List (κ × ν)) :
    scatter memory (first ++ second) = scatter (scatter memory first) second :=
  foldl_append

variable {writes : List (κ × ν)}

/-- An address that is not written keeps its content. -/
theorem scatter_of_notMem {memory : κ → ν} {key : κ} (unwritten : key ∉ writes.map fst) :
    scatter memory writes key = memory key := by
  induction writes generalizing memory with
  | nil => rfl
  | cons write writes ih =>
    rw [map_cons, mem_cons, not_or] at unwritten
    rw [scatter_cons, ih unwritten.2, update_of_ne unwritten.1]

/-- Among writes to different addresses, each one is seen afterwards. -/
theorem scatter_of_mem {memory : κ → ν} {key : κ} {value : ν} (distinct : (writes.map fst).Nodup)
    (written : (key, value) ∈ writes) : scatter memory writes key = value := by
  induction writes generalizing memory with
  | nil => cases written
  | cons write writes ih =>
    rw [map_cons, nodup_cons] at distinct
    rw [scatter_cons]
    rcases mem_cons.mp written with rfl | later
    · rw [scatter_of_notMem distinct.1, update_self]
    · exact ih distinct.2 later

/-- An address is not written and keeps its content, or holds one of its writes. -/
theorem scatter_cases (writes : List (κ × ν)) (key : κ) :
    key ∉ writes.map fst ∧ scatter memory writes key = memory key ∨
      (key, scatter memory writes key) ∈ writes := by
  induction writes generalizing memory with
  | nil => exact .inl ⟨not_mem_nil, rfl⟩
  | cons write writes ih =>
    obtain ⟨unwritten, kept⟩ | written := ih (update memory write.1 write.2)
    · rw [scatter_cons, kept, map_cons, mem_cons]
      by_cases same : key = write.1
      · subst same
        rw [update_self]
        exact .inr mem_cons_self
      · exact .inl ⟨not_or.mpr ⟨same, unwritten⟩, update_of_ne same _ _⟩
    · exact .inr (mem_cons_of_mem _ written)

/-- Writes to different addresses may be carried out in any order. -/
theorem scatter_perm {memory : κ → ν} {other : List (κ × ν)} (distinct : (writes.map fst).Nodup)
    (perm : other.Perm writes) : scatter memory other = scatter memory writes := by
  have otherDistinct : (other.map fst).Nodup := ((perm.map fst).nodup_iff).mpr distinct
  funext key
  by_cases written : key ∈ writes.map fst
  · obtain ⟨⟨_, value⟩, member, rfl⟩ := mem_map.mp written
    rw [scatter_of_mem distinct member, scatter_of_mem otherDistinct (perm.mem_iff.mpr member)]
  · have unwritten : key ∉ other.map fst :=
      fun member => written ((perm.map fst).mem_iff.mp member)
    rw [scatter_of_notMem written, scatter_of_notMem unwritten]

end Scatter

section Blocks

variable {ν : Type*}

/-- The writes that put a list at consecutive addresses. -/
def blockWrites (base : ℕ) (values : List ν) : List (ℕ × ν) :=
  values.mapIdx fun offset value => (base + offset, value)

variable (base : ℕ)

/-- Blocks in two parts. -/
theorem blockWrites_append (first second : List ν) : blockWrites base (first ++ second) =
      blockWrites base first ++ blockWrites (base + first.length) second := by
  unfold blockWrites
  rw [mapIdx_append]
  congr 2
  funext offset value
  rw [add_comm offset, add_assoc]

/-- A block is contiguous. -/
theorem map_fst_blockWrites (values : List ν) :
    (blockWrites base values).map fst = range' base values.length := by
  refine ext_getElem (by simp [blockWrites]) fun i _ _ => ?_
  simp [blockWrites]

/-- It writes no key twice. -/
theorem nodup_blockWrites (values : List ν) : ((blockWrites base values).map fst).Nodup := by
  rw [map_fst_blockWrites]
  exact nodup_range'

/-- A block by offsets. -/
theorem blockWrites_map_range (count : ℕ) (value : ℕ → ν) :
    blockWrites base ((range count).map value) =
      (range count).map fun offset => (base + offset, value offset) := by
  refine ext_getElem (by simp [blockWrites]) fun i _ _ => ?_
  simp [blockWrites]

/-- The content of a block. -/
theorem scatter_blockWrites (memory : ℕ → ν) (base : ℕ) {values : List ν} {offset : ℕ}
    (inside : offset < values.length) :
    scatter memory (blockWrites base values) (base + offset) = values[offset] := by
  refine scatter_of_mem (nodup_blockWrites base values) ?_
  rw [mem_iff_getElem]
  refine ⟨offset, by simpa [blockWrites] using inside, by simp [blockWrites]⟩

/-- The writes of one masked store: the offsets below a limit. -/
def storeMasked (base : ℕ) (offsets : List ℕ) (limit : ℕ) (value : ℕ → ν) : List (ℕ × ν) :=
  (offsets.filter fun offset => decide (offset < limit)).map fun offset =>
    (base + offset, value offset)

/-- A mask is a shorter range. -/
theorem filter_lt_range {limit width : ℕ} (fits : limit ≤ width) :
    (range width).filter (fun offset => decide (offset < limit)) = range limit := by
  obtain ⟨rest, rfl⟩ := Nat.exists_eq_add_of_le fits
  rw [range_add, filter_append]
  have kept : (range limit).filter (fun offset => decide (offset < limit)) = range limit :=
    filter_eq_self.mpr fun offset member => decide_eq_true (mem_range.mp member)
  have cut : ((range rest).map (limit + ·)).filter (fun offset => decide (offset < limit)) =
      [] := by
    refine filter_eq_nil_iff.mpr fun offset member => ?_
    obtain ⟨_, _, rfl⟩ := mem_map.mp member
    simp
  rw [kept, cut, append_nil]

/-- A masked store is a block. -/
theorem storeMasked_range {limit width : ℕ} (fits : limit ≤ width) (value : ℕ → ν) :
    storeMasked base (range width) limit value =
      blockWrites base ((range limit).map value) := by
  rw [storeMasked, filter_lt_range fits, blockWrites_map_range]

/-- A masked loop over enough blocks stores what one block of the whole length does. -/
theorem flatMap_storeMasked {width blocks limit : ℕ} (covers : limit ≤ blocks * width) (base : ℕ)
    (value : ℕ → ν) : ((range blocks).flatMap fun block =>
        storeMasked base ((range width).map (block * width + ·)) limit value) =
      blockWrites base ((range limit).map value) := by
  unfold storeMasked
  rw [← map_flatMap, ← filter_flatMap, ← pageSlots, pageSlots_range, filter_lt_range covers,
    blockWrites_map_range]

end Blocks

end AvaServe.Foundation
