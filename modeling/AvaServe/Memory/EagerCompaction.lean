import Mathlib
import AvaServe.Foundation.ScatterWrites
import AvaServe.Memory.PoolAllocator

/-!
# Eager compaction of an end pool

The allocated pages of an end pool fill a band that starts at one end of a shared buffer, and
two tables bind them to virtual pages. Freeing in eager mode vacates as many pages next to the
watermark as are freed: the survivors there move into the freed pages of the rest of the
band. The band stays exactly the live pages, each with its content.
-/

namespace AvaServe.Memory

open Foundation List

/-- The end at which a pool grows. -/
inductive GrowDirection where
  | up
  | down

/-- An end pool in eager mode. The page id minus one is `none`; as a virtual page it is the
trailing sentinel of its table. -/
structure MultiEndedAllocator (α : Type*) where
  growDirection : GrowDirection
  pageSize : ℕ
  minPageIndex : ℕ
  numPages : ℕ
  isIdOwner : Bool
  watermarkPhysical : ℕ
  virtualToPhysical : Option ℕ → Option ℕ
  physicalToVirtual : ℕ → Option ℕ
  freeVirtualIds : List ℕ
  freeGroup : Option (List (List ℕ))
  inverseHistory : List (List (ℕ × ℕ) × List (Option ℕ))
  kvcache : ℕ → α

namespace MultiEndedAllocator

variable {α : Type*} (pool : MultiEndedAllocator α)

/-- Copy live pages, given as pairs of source and target, and bind their virtual pages to the
copies. -/
def movePagesAndRebind (moves : List (ℕ × ℕ)) : MultiEndedAllocator α :=
  { pool with
    kvcache := scatter pool.kvcache <| moves.flatMap fun move =>
      (range pool.pageSize).map fun offset =>
        (move.2 * pool.pageSize + offset, pool.kvcache (move.1 * pool.pageSize + offset))
    virtualToPhysical := scatter pool.virtualToPhysical <|
      moves.map fun move => (pool.physicalToVirtual move.1, some move.2)
    physicalToVirtual := scatter pool.physicalToVirtual <|
      moves.map fun move => (move.2, pool.physicalToVirtual move.1)
    inverseHistory := pool.inverseHistory ++
      [(moves, moves.map fun move => pool.physicalToVirtual move.1)] }

/-- Carry out the moves, if there are any, and wipe the vacated band. -/
def relocate (moves : List (ℕ × ℕ)) (vacated : List ℕ) (newWm : ℕ) : MultiEndedAllocator α :=
  let moved := if moves = [] then pool else pool.movePagesAndRebind moves
  { moved with
    watermarkPhysical := newWm
    physicalToVirtual := fun page => if page ∈ vacated then none else moved.physicalToVirtual page }

/-- Move the survivors of a vacated band into the freed pages of the kept one; `none` is a
failed assertion. -/
def vacate (freedSet : Finset ℕ) (vacated : List ℕ) (kept : ℕ → Bool) (newWm : ℕ) :
    Option (MultiEndedAllocator α) :=
  let srcList := vacated.filter (· ∉ freedSet)
  let dstList := (freedSet.filter (kept ·)).sort (· ≤ ·)
  if srcList.length ≠ dstList.length then none
  else some (pool.relocate (srcList.zip dstList) vacated newWm)

/-- Compact the band after the physical pages are freed. -/
def compactPending (freedPhysicalPages : List ℕ) : Option (MultiEndedAllocator α) :=
  let freedSet := freedPhysicalPages.toFinset
  let oldWm := pool.watermarkPhysical
  if freedSet = ∅ then some pool
  else
    match pool.growDirection with
    | .up =>
      let newWm := oldWm - freedSet.card
      if pool.minPageIndex + freedSet.card ≤ oldWm ∧
          ∀ page ∈ freedSet, pool.minPageIndex ≤ page ∧ page < oldWm then
        pool.vacate freedSet (range' newWm freedSet.card) (· < newWm) newWm
      else none
    | .down =>
      let newWm := oldWm + freedSet.card
      if newWm < pool.numPages ∧ ∀ page ∈ freedSet, oldWm < page ∧ page < pool.numPages then
        pool.vacate freedSet (range' (oldWm + 1) freedSet.card) (newWm < ·) newWm
      else none

/-- Unbind virtual pages, which their owner may hand out again. -/
def unmapPages (freeVPages : List ℕ) : MultiEndedAllocator α :=
  { pool with
    virtualToPhysical := fun page =>
      if page ∈ freeVPages.map some then none else pool.virtualToPhysical page
    freeVirtualIds :=
      if pool.isIdOwner then pool.freeVirtualIds ++ freeVPages else pool.freeVirtualIds }

/-- The virtual pages of a free, derived by the caller or from the tokens. -/
def freeVPages (freeIndex : List ℕ) (pages : Option (List ℕ)) : List ℕ :=
  pages.getD (uniquePages pool.pageSize freeIndex)

/-- Free virtual tokens. -/
def free (freeIndex : List ℕ) (pages : Option (List ℕ)) : Option (MultiEndedAllocator α) :=
  if freeIndex = [] then some pool
  else
    match pool.freeGroup with
    | some group => some { pool with freeGroup := some (group ++ [freeIndex]) }
    | none =>
      let freedPPages := (pool.freeVPages freeIndex pages).map fun page =>
        pool.virtualToPhysical (some page)
      if none ∈ freedPPages then none
      else (pool.unmapPages (pool.freeVPages freeIndex pages)).compactPending
        freedPPages.reduceOption

/-- The allocated pages. -/
def band : List ℕ :=
  match pool.growDirection with
  | .up => range' pool.minPageIndex (pool.watermarkPhysical - pool.minPageIndex)
  | .down => range' (pool.watermarkPhysical + 1) (pool.numPages - 1 - pool.watermarkPhysical)

/-- The tables are mutually inverse. -/
def Inverse : Prop :=
  ∀ virtual page, pool.virtualToPhysical (some virtual) = some page ↔
    pool.physicalToVirtual page = some virtual

/-- The live pages above the reserved ones are exactly the band. -/
structure Packed : Prop where
  inverse : pool.Inverse
  tight : ∀ page, page ∈ pool.band ↔ pool.minPageIndex ≤ page ∧ (pool.physicalToVirtual page).isSome

/-- What freeing virtual pages does: exactly the others stay bound, they keep their content, and
the pages that move do so out of each other's way. -/
structure Compacted (freed : List ℕ) (next : MultiEndedAllocator α) : Prop where
  bound : ∀ virtual, (next.virtualToPhysical (some virtual)).isSome ↔
    (pool.virtualToPhysical (some virtual)).isSome ∧ virtual ∉ freed
  content : ∀ virtual ∉ freed, ∀ page, pool.virtualToPhysical (some virtual) = some page →
    ∃ target, next.virtualToPhysical (some virtual) = some target ∧
      ∀ offset < pool.pageSize, next.kvcache (target * pool.pageSize + offset) =
        pool.kvcache (page * pool.pageSize + offset)
  disjoint : ∀ entry ∈ next.inverseHistory.drop pool.inverseHistory.length,
    (entry.1.map Prod.fst).Disjoint (entry.1.map Prod.snd)

/-- The moves take the survivors of the vacated pages to the freed pages of the rest. -/
structure Plan (freed : List ℕ) (freedSet : Finset ℕ) (vacated : List ℕ)
    (moves : List (ℕ × ℕ)) : Prop where
  inverse : pool.Inverse
  freed_iff : ∀ {virtual page}, pool.physicalToVirtual page = some virtual →
    (virtual ∈ freed ↔ page ∈ freedSet)
  occupied : ∀ page, page ∈ freedSet ∨ page ∈ vacated → (pool.physicalToVirtual page).isSome
  src : ∀ page, page ∈ moves.map Prod.fst ↔ page ∈ vacated ∧ page ∉ freedSet
  dst : ∀ page, page ∈ moves.map Prod.snd ↔ page ∈ freedSet ∧ page ∉ vacated
  srcNodup : (moves.map Prod.fst).Nodup
  dstNodup : (moves.map Prod.snd).Nodup

variable {pool} {freed vacated : List ℕ} {freedSet : Finset ℕ} {moves : List (ℕ × ℕ)} {newWm : ℕ}

/-- The tables and the content after a relocation, whether or not a page moves. -/
theorem relocate_tables :
    ((pool.relocate moves vacated newWm).virtualToPhysical = scatter pool.virtualToPhysical
      (moves.map fun move => (pool.physicalToVirtual move.1, some move.2))) ∧
    (∀ page, (pool.relocate moves vacated newWm).physicalToVirtual page =
      if page ∈ vacated then none else scatter pool.physicalToVirtual
        (moves.map fun move => (move.2, pool.physicalToVirtual move.1)) page) ∧
    (pool.relocate moves vacated newWm).kvcache = (pool.movePagesAndRebind moves).kvcache := by
  unfold relocate
  split
  next none =>
    subst none
    exact ⟨rfl, fun _ => rfl, rfl⟩
  · exact ⟨rfl, fun _ => rfl, rfl⟩

section

variable (plan : pool.Plan freed freedSet vacated moves)
include plan

/-- The survivors stay bound, to where the moves take their pages. -/
theorem Plan.virtual (virtual : ℕ) :
    ((pool.unmapPages freed).relocate moves vacated newWm).virtualToPhysical (some virtual) =
      if virtual ∈ freed then none
      else (pool.virtualToPhysical (some virtual)).map (scatter id moves) := by
  rw [relocate_tables.1]
  obtain ⟨unwritten, kept⟩ | written := scatter_cases (pool.unmapPages freed).virtualToPhysical
    (moves.map fun move => (pool.physicalToVirtual move.1, some move.2)) (some virtual)
  · have unmoved : (pool.virtualToPhysical (some virtual)).map (scatter id moves) =
        pool.virtualToPhysical (some virtual) := by
      cases found : pool.virtualToPhysical (some virtual) with
      | none => rfl
      | some page =>
        refine congrArg some (scatter_of_notMem fun member => unwritten ?_)
        obtain ⟨move, listed, rfl⟩ := mem_map.mp member
        exact mem_map.mpr ⟨_, mem_map_of_mem listed, (plan.inverse _ _).mp found⟩
    rw [unmoved]
    refine kept.trans ?_
    simp [unmapPages]
  · obtain ⟨move, member, pair⟩ := mem_map.mp written
    obtain ⟨bound, target⟩ := Prod.mk.inj pair
    have source := (plan.src _).mp (mem_map_of_mem member)
    rw [if_neg (mt (plan.freed_iff bound).mp source.2), (plan.inverse _ _).mpr bound,
      Option.map_some, scatter_of_mem plan.srcNodup member]
    exact target.symm

/-- A filled hole is bound to the page moved there. -/
theorem Plan.physical_target {move : ℕ × ℕ} (member : move ∈ moves) :
    ((pool.unmapPages freed).relocate moves vacated newWm).physicalToVirtual move.2 =
      pool.physicalToVirtual move.1 := by
  rw [relocate_tables.2.1, if_neg ((plan.dst _).mp (mem_map_of_mem member)).2]
  refine scatter_of_mem ?_ (mem_map_of_mem member)
  rw [map_map]
  exact plan.dstNodup

/-- A kept page that is not freed keeps its binding. -/
theorem Plan.physical_kept {page : ℕ} (outside : page ∉ vacated) (survives : page ∉ freedSet) :
    ((pool.unmapPages freed).relocate moves vacated newWm).physicalToVirtual page =
      pool.physicalToVirtual page := by
  rw [relocate_tables.2.1, if_neg outside]
  refine scatter_of_notMem ?_
  rw [map_map]
  exact fun target => survives ((plan.dst page).mp target).1

/-- The tables stay mutually inverse. -/
theorem Plan.inverse_relocate :
    ((pool.unmapPages freed).relocate moves vacated newWm).Inverse := by
  intro virtual page
  rw [plan.virtual, Option.ite_none_left_eq_some, Option.map_eq_some_iff]
  constructor
  · rintro ⟨survives, old, found, rfl⟩
    have bound := (plan.inverse _ _).mp found
    rw [plan.freed_iff bound] at survives
    by_cases moved : old ∈ moves.map Prod.fst
    · obtain ⟨move, member, rfl⟩ := mem_map.mp moved
      rw [scatter_of_mem plan.srcNodup member, plan.physical_target member, bound]
    · have outside : old ∉ vacated := fun left => moved ((plan.src old).mpr ⟨left, survives⟩)
      rw [scatter_of_notMem moved]
      exact (plan.physical_kept outside survives).trans bound
  · intro bound
    have outside : page ∉ vacated := by
      intro left
      rw [relocate_tables.2.1, if_pos left] at bound
      cases bound
    by_cases isFreed : page ∈ freedSet
    · obtain ⟨move, member, rfl⟩ := mem_map.mp ((plan.dst page).mpr ⟨isFreed, outside⟩)
      rw [plan.physical_target member] at bound
      have source := (plan.src _).mp (mem_map_of_mem member)
      exact ⟨mt (plan.freed_iff bound).mp source.2, move.1, (plan.inverse _ _).mpr bound,
        scatter_of_mem plan.srcNodup member⟩
    · rw [plan.physical_kept outside isFreed] at bound
      exact ⟨mt (plan.freed_iff bound).mp isFreed, page, (plan.inverse _ _).mpr bound,
        scatter_of_notMem fun source => outside ((plan.src page).mp source).1⟩

/-- The bound pages are the old ones without the vacated. -/
theorem Plan.isSome_relocate (page : ℕ) :
    (((pool.unmapPages freed).relocate moves vacated newWm).physicalToVirtual page).isSome ↔
      (pool.physicalToVirtual page).isSome ∧ page ∉ vacated := by
  by_cases left : page ∈ vacated
  · simp [relocate_tables.2.1, left]
  rw [and_iff_left left]
  by_cases isFreed : page ∈ freedSet
  · obtain ⟨move, member, rfl⟩ := mem_map.mp ((plan.dst page).mpr ⟨isFreed, left⟩)
    rw [plan.physical_target member]
    exact iff_of_true (plan.occupied _ (.inr ((plan.src _).mp (mem_map_of_mem member)).1))
      (plan.occupied _ (.inl isFreed))
  · rw [plan.physical_kept left isFreed]

/-- Carrying out a plan compacts the pool. -/
theorem Plan.compacted :
    pool.Compacted freed ((pool.unmapPages freed).relocate moves vacated newWm) where
  bound virtual := by
    rw [plan.virtual]
    split
    next member => simp [member]
    next survives => simp [survives]
  content := by
    intro virtual survives page found
    refine ⟨scatter id moves page, by rw [plan.virtual, if_neg survives, found]; rfl, ?_⟩
    intro offset inside
    have addresses : (moves.flatMap fun move => (range pool.pageSize).map fun offset =>
        (move.2 * pool.pageSize + offset, pool.kvcache (move.1 * pool.pageSize + offset))).map
          Prod.fst = pageSlots pool.pageSize (moves.map Prod.snd) := by
      simp [pageSlots, map_flatMap, flatMap_map, Function.comp_def]
    rw [relocate_tables.2.2]
    by_cases moved : page ∈ moves.map Prod.fst
    · obtain ⟨move, member, rfl⟩ := mem_map.mp moved
      rw [scatter_of_mem plan.srcNodup member]
      refine scatter_of_mem (addresses ▸ nodup_pageSlots plan.dstNodup) ?_
      exact mem_flatMap.mpr ⟨move, member, mem_map.mpr ⟨offset, mem_range.mpr inside, rfl⟩⟩
    · rw [scatter_of_notMem moved]
      refine scatter_of_notMem fun written => ?_
      have target : page * pool.pageSize + offset ∈
          pageSlots pool.pageSize (moves.map Prod.snd) := addresses ▸ written
      rw [mem_pageSlots (Nat.zero_lt_of_lt inside), slot_div inside] at target
      exact survives ((plan.freed_iff ((plan.inverse _ _).mp found)).mpr
        ((plan.dst page).mp target).1)
  disjoint := by
    intro entry member
    by_cases none : moves = []
    · simp [relocate, none, unmapPages] at member
    · obtain rfl : entry = (moves, moves.map fun move => pool.physicalToVirtual move.1) := by
        simpa [relocate, none, unmapPages, movePagesAndRebind] using member
      intro page source target
      exact ((plan.dst page).mp target).2 ((plan.src page).mp source).1

end

/-- Only the watermark moves the band. -/
theorem band_relocate : (pool.relocate moves vacated newWm).minPageIndex = pool.minPageIndex ∧
    (pool.relocate moves vacated newWm).band = { pool with watermarkPhysical := newWm }.band := by
  unfold relocate
  split <;> exact ⟨rfl, rfl⟩

/-- A compaction vacates as many pages of the band as are freed. -/
theorem exists_vacate {freedPhysicalPages : List ℕ}
    (inside : ∀ page ∈ freedPhysicalPages.toFinset, page ∈ pool.band) :
    ∃ vacated kept newWm, pool.compactPending freedPhysicalPages =
        pool.vacate freedPhysicalPages.toFinset vacated kept newWm ∧
      vacated.Nodup ∧ vacated.length = freedPhysicalPages.toFinset.card ∧
      (∀ page ∈ freedPhysicalPages.toFinset, kept page = true ↔ page ∉ vacated) ∧
      (∀ page ∈ vacated, page ∈ pool.band) ∧
      ∀ moves page, page ∈ (pool.relocate moves vacated newWm).band ↔
        page ∈ pool.band ∧ page ∉ vacated := by
  unfold compactPending
  simp only [band_relocate]
  split
  next empty =>
    refine ⟨[], fun _ => true, pool.watermarkPhysical, ?_⟩
    simp [empty, vacate, relocate]
  next nonempty =>
    have positive := Finset.card_pos.mpr (Finset.nonempty_iff_ne_empty.mpr nonempty)
    have count := (Finset.card_le_card
      fun page member => mem_toFinset.mpr (inside page member)).trans (toFinset_card_le _)
    cases direction : pool.growDirection with
    | up | down =>
      simp only [band, direction, length_range', mem_range'_1] at count inside ⊢
      rw [if_pos ⟨by omega, fun page member => by have := inside page member; omega⟩]
      refine ⟨_, _, _, rfl, nodup_range', length_range', fun page member => ?_, ?_, ?_⟩
      · have := inside page member
        simp only [decide_eq_true_eq, mem_range'_1]
        omega
      all_goals
        simp only [mem_range'_1]
        omega

/-- There are as many survivors in the vacated band as freed pages in the kept one. -/
theorem length_survivors {kept : ℕ → Bool} (nodup : vacated.Nodup)
    (count : vacated.length = freedSet.card)
    (cut : ∀ page ∈ freedSet, kept page = true ↔ page ∉ vacated) :
    (vacated.filter (· ∉ freedSet)).length = ((freedSet.filter (kept ·)).sort (· ≤ ·)).length := by
  have survivors : (vacated.filter (· ∉ freedSet)).toFinset = vacated.toFinset \ freedSet := by
    ext page
    simp
  have holes : freedSet.filter (kept ·) = freedSet \ vacated.toFinset := by
    ext page
    rw [Finset.mem_filter, Finset.mem_sdiff, mem_toFinset]
    exact and_congr_right (cut page)
  rw [Finset.length_sort, holes, ← toFinset_card_of_nodup (nodup.filter _), survivors]
  exact Finset.card_sdiff_comm ((toFinset_card_of_nodup nodup).trans count)

/-- Three live pages of one token. -/
def threePages : MultiEndedAllocator ℕ where
  growDirection := .up
  pageSize := 1
  minPageIndex := 1
  numPages := 8
  isIdOwner := true
  watermarkPhysical := 4
  virtualToPhysical page := page.filter (· ∈ [1, 2, 3])
  physicalToVirtual page := (some page).filter (· ∈ [1, 2, 3])
  freeVirtualIds := []
  freeGroup := none
  inverseHistory := []
  kvcache := id

end MultiEndedAllocator

end AvaServe.Memory
