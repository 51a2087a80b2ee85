import Mathlib

/-!
# The staging ring of the decode side

One buffer is handed out region by region, wrapping to its start when the end is
too short. A region is named by a number, an offset and the round it was cut in.
Assignment overcommits: it never waits for older regions. What may be written is
decided from the watermark, the position of the oldest region that is not freed.
-/

namespace AvaServe.Disaggregation

open List Option Finmap

/-- The value kept for an allocation: `(offset, size, round)`. -/
structure Region where
  offset : ℕ
  size : ℕ
  round : ℕ
deriving DecidableEq, Repr

namespace Region

/-- The bytes of the ring the region covers. -/
def bytes (region : Region) : Set ℕ := Set.Ico region.offset (region.offset + region.size)

/-- The place where the region was cut, in the order of rounds and offsets. -/
def position (region : Region) : ℕ ×ₗ ℕ := toLex (region.round, region.offset)

/-- `later` was cut after the end of `earlier`, in its round or a later one. -/
def Before (earlier later : Region) : Prop :=
  earlier.round < later.round ∨
    earlier.round = later.round ∧ earlier.offset + earlier.size ≤ later.offset

/-- Positions grow. -/
theorem Before.position_le {earlier later : Region} (before : earlier.Before later) :
    earlier.position ≤ later.position := by
  rw [position, position, Prod.Lex.toLex_le_toLex]
  obtain round | ⟨round, offset⟩ := before
  · exact .inl round
  · exact .inr ⟨round, (Nat.le_add_right _ _).trans offset⟩

/-- Regions of one round are apart. -/
theorem Before.disjoint_of_round_eq {earlier later : Region} (before : earlier.Before later)
    (round : earlier.round = later.round) : Disjoint later.bytes earlier.bytes := by
  obtain less | ⟨_, offset⟩ := before
  · omega
  · rw [bytes, bytes, Set.Ico_disjoint_Ico]
    omega

end Region

/-- The ring with its live allocations; `watermark` holds `watermark_round` and
`watermark_tail`. -/
structure StagingAllocator where
  totalSize : ℕ
  head : ℕ
  round : ℕ
  allocations : Finmap fun _ : ℕ => Region
  allocOrder : List ℕ
  nextAllocId : ℕ
  watermark : ℕ ×ₗ ℕ

namespace StagingAllocator

/-- An empty ring. -/
def new (totalSize : ℕ) : StagingAllocator :=
  { totalSize := totalSize
    head := 0
    round := 0
    allocations := ∅
    allocOrder := []
    nextAllocId := 0
    watermark := toLex (0, 0) }

variable (ring : StagingAllocator)

/-- Where the next region goes: the offset, the round and the new head. -/
def place (requiredBytes : ℕ) : ℕ × ℕ × ℕ :=
  if requiredBytes ≤ ring.totalSize - ring.head then
    (ring.head, ring.round, ring.head + requiredBytes)
  else
    (0, ring.round + 1, requiredBytes)

/-- Allocate a region. The answer is `(alloc_id, offset, round)`, or `none` when
the ring is too small. -/
def assign (requiredBytes : ℕ) : Option (ℕ × ℕ × ℕ) × StagingAllocator :=
  if ring.totalSize < requiredBytes then
    (none, ring)
  else
    let (offset, round, head) := ring.place requiredBytes
    (some (ring.nextAllocId, offset, round), { ring with
        head := head
        round := round
        allocations := ring.allocations.insert ring.nextAllocId ⟨offset, requiredBytes, round⟩
        allocOrder := ring.allocOrder ++ [ring.nextAllocId]
        nextAllocId := ring.nextAllocId + 1 })

/-- Set the watermark after an allocation was popped: a fresh round when nothing
is left, the oldest live region otherwise. -/
def advance : StagingAllocator :=
  if ring.allocations = ∅ then
    { ring with
      round := ring.round + 1
      head := 0
      watermark := toLex (ring.round + 1, 0) }
  else
    match ring.allocOrder.head?.bind ring.allocations.lookup with
    | some oldest => { ring with watermark := oldest.position }
    | none => ring

/-- Free an allocation and advance the watermark past consecutive freed entries. -/
def free (allocId : ℕ) : StagingAllocator :=
  if allocId ∈ ring.allocations then
    let allocations := ring.allocations.erase allocId
    { ring with
      allocations := allocations
      allocOrder := ring.allocOrder.dropWhile fun id => decide (id ∉ allocations) }.advance
  else
    ring

/-- `get_watermark`. -/
def getWatermark : ℕ ×ₗ ℕ := ring.watermark

/-- The region of a live allocation. -/
def live (allocId : ℕ) : Option Region := ring.allocations.lookup allocId

/-- The order of the live regions and the place of the watermark. -/
structure Ordered (ring : StagingAllocator) : Prop where
  sorted : ring.allocOrder.Pairwise (· < ·)
  numbered : ∀ id ∈ ring.allocOrder, id < ring.nextAllocId
  listed : ∀ id region, ring.live id = some region → id ∈ ring.allocOrder
  front : ∀ id, ring.allocOrder.head? = some id → ∃ region, ring.live id = some region ∧
    ring.watermark = region.position
  idle : ring.allocOrder = [] → ring.head = 0 ∧ ring.watermark = toLex (ring.round, 0)
  cut : ∀ id region, ring.live id = some region → region.round < ring.round ∨
      region.round = ring.round ∧ region.offset + region.size ≤ ring.head
  before : ∀ older newer earlier later, older < newer → ring.live older = some earlier →
    ring.live newer = some later → earlier.Before later

/-- A new ring is ordered. -/
theorem ordered_new (totalSize : ℕ) : (new totalSize).Ordered := by
  have empty : ∀ id, (new totalSize).live id = none := lookup_empty
  exact
    { sorted := Pairwise.nil
      numbered := forall_mem_nil _
      listed := fun id region found => by rw [empty id] at found; cases found
      front := nofun
      idle := fun _ => ⟨rfl, rfl⟩
      cut := fun id region found => by rw [empty id] at found; cases found
      before := fun older _ _ _ _ found => by rw [empty older] at found; cases found }

variable {region : Region} {id : ℕ}

/-- The watermark is the position of a live region that is at least as old as any other. -/
theorem Ordered.exists_oldest {ring : StagingAllocator} (ordered : ring.Ordered)
    (found : ring.live id = some region) :
    ∃ oldest first, ring.live oldest = some first ∧ ring.watermark = first.position ∧
      (oldest = id ∨ oldest < id) := by
  have listed := ordered.listed id region found
  cases order : ring.allocOrder with
  | nil =>
    rw [order] at listed
    exact absurd listed not_mem_nil
  | cons oldest rest =>
    obtain ⟨first, foundFirst, watermark⟩ := ordered.front oldest (by rw [order]; rfl)
    have sorted := ordered.sorted
    rw [order] at listed sorted
    exact ⟨oldest, first, foundFirst, watermark,
      (mem_cons.mp listed).imp Eq.symm (rel_of_pairwise_cons sorted)⟩

/-- No live region lies before the watermark. -/
theorem Ordered.watermark_le {ring : StagingAllocator} (ordered : ring.Ordered)
    (found : ring.live id = some region) : ring.watermark ≤ region.position := by
  obtain ⟨oldest, first, foundFirst, watermark, rfl | older⟩ := ordered.exists_oldest found
  · rw [watermark, some.inj (foundFirst.symm.trans found)]
  · rw [watermark]
    exact (ordered.before oldest id first region older foundFirst found).position_le

/-- The watermark is the position of the oldest live region. -/
theorem Ordered.watermark_eq {ring : StagingAllocator} (ordered : ring.Ordered)
    (found : ring.live id = some region) (oldest : ∀ other < id, ring.live other = none) :
    ring.watermark = region.position := by
  obtain ⟨front, first, foundFirst, watermark, rfl | older⟩ := ordered.exists_oldest found
  · rw [watermark, some.inj (foundFirst.symm.trans found)]
  · rw [oldest front older] at foundFirst
    cases foundFirst

section Assign

variable {ring : StagingAllocator} {requiredBytes : ℕ}

/-- The region an assignment cuts. -/
def nextRegion (ring : StagingAllocator) (requiredBytes : ℕ) : Region :=
  ⟨(ring.place requiredBytes).1, requiredBytes, (ring.place requiredBytes).2.1⟩

/-- A region goes to the head or wraps. -/
theorem place_cases (ring : StagingAllocator) (requiredBytes : ℕ) :
    ring.place requiredBytes = (ring.head, ring.round, ring.head + requiredBytes) ∨
      ring.totalSize - ring.head < requiredBytes ∧
        ring.place requiredBytes = (0, ring.round + 1, requiredBytes) := by
  unfold place
  split
  · exact .inl rfl
  next short => exact .inr ⟨not_le.mp short, rfl⟩

/-- A region that fits is assigned. -/
theorem assign_of_fits (fits : requiredBytes ≤ ring.totalSize) : (ring.assign requiredBytes).2 =
      { ring with
        head := (ring.place requiredBytes).2.2
        round := (ring.place requiredBytes).2.1
        allocations := ring.allocations.insert ring.nextAllocId (ring.nextRegion requiredBytes)
        allocOrder := ring.allocOrder ++ [ring.nextAllocId]
        nextAllocId := ring.nextAllocId + 1 } := by
  rw [assign, if_neg (not_lt.mpr fits)]
  rfl

/-- One that never fits is refused. -/
theorem assign_of_oversized (oversized : ring.totalSize < requiredBytes) :
    ring.assign requiredBytes = (none, ring) := by
  rw [assign, if_pos oversized]

/-- It is live. -/
theorem live_assign (fits : requiredBytes ≤ ring.totalSize) (id : ℕ) :
    (ring.assign requiredBytes).2.live id =
      if id = ring.nextAllocId then some (ring.nextRegion requiredBytes) else ring.live id := by
  rw [assign_of_fits fits]
  split
  next same =>
    subst same
    exact lookup_insert _
  next other => exact lookup_insert_of_ne _ other

/-- The watermark stays. -/
theorem watermark_assign (ring : StagingAllocator) (requiredBytes : ℕ) :
    (ring.assign requiredBytes).2.watermark = ring.watermark := by
  obtain fits | oversized := le_or_gt requiredBytes ring.totalSize
  · rw [assign_of_fits fits]
  · rw [assign_of_oversized oversized]

/-- The cut region lies after everything that ends at the head or before. -/
theorem before_nextRegion
    (cut : region.round < ring.round ∨ region.round = ring.round ∧ region.offset + region.size ≤
      ring.head) : region.Before (ring.nextRegion requiredBytes) := by
  unfold nextRegion Region.Before
  obtain placed | ⟨_, placed⟩ := ring.place_cases requiredBytes <;> rw [placed] <;> dsimp only <;>
    omega

/-- On an idle ring the cut region starts the current round. -/
theorem nextRegion_of_idle (ordered : ring.Ordered) (none : ring.allocOrder = [])
    (fits : requiredBytes ≤ ring.totalSize) :
    (ring.nextRegion requiredBytes).position = ring.watermark := by
  obtain ⟨head, watermark⟩ := ordered.idle none
  obtain placed | ⟨short, _⟩ := ring.place_cases requiredBytes
  · rw [watermark, nextRegion, Region.position, placed, head]
  · omega

/-- The ring stays ordered. -/
theorem Ordered.assign (ordered : ring.Ordered) (requiredBytes : ℕ) :
    (ring.assign requiredBytes).2.Ordered := by
  obtain fits | oversized := le_or_gt requiredBytes ring.totalSize
  swap
  · rw [assign_of_oversized oversized]
    exact ordered
  have old : ∀ id region, (ring.assign requiredBytes).2.live id = some region →
      id = ring.nextAllocId ∧ region = ring.nextRegion requiredBytes ∨
        id < ring.nextAllocId ∧ ring.live id = some region := by
    intro id region found
    rw [live_assign fits] at found
    split at found
    next same => exact .inl ⟨same, (some.inj found).symm⟩
    · exact .inr ⟨ordered.numbered id (ordered.listed id region found), found⟩
  have fields := assign_of_fits fits
  have order : (ring.assign requiredBytes).2.allocOrder =
      ring.allocOrder ++ [ring.nextAllocId] := by rw [fields]
  exact
    { sorted := by
        rw [order]
        refine pairwise_append.mpr ⟨ordered.sorted, pairwise_singleton _ _, ?_⟩
        intro id member last found
        rw [mem_singleton.mp found]
        exact ordered.numbered id member
      numbered id member := by
        rw [order] at member
        have next : (ring.assign requiredBytes).2.nextAllocId = ring.nextAllocId + 1 := by
          rw [fields]
        rw [next]
        obtain earlier | new := mem_append.mp member
        · exact (ordered.numbered id earlier).trans (Nat.lt_succ_self _)
        · rw [mem_singleton.mp new]
          exact Nat.lt_succ_self _
      listed id region found := by
        rw [order]
        obtain ⟨rfl, _⟩ | ⟨_, found⟩ := old id region found
        · exact mem_append_right _ (mem_singleton_self _)
        · exact mem_append_left _ (ordered.listed id region found)
      front id first := by
        rw [order] at first
        rw [watermark_assign]
        cases empty : ring.allocOrder with
        | nil =>
          rw [empty] at first
          cases first
          refine ⟨_, (live_assign fits _).trans (if_pos rfl), ?_⟩
          exact (nextRegion_of_idle ordered empty fits).symm
        | cons oldest rest =>
          rw [empty] at first
          obtain rfl := some.inj first
          obtain ⟨region, found, watermark⟩ := ordered.front oldest (by rw [empty]; rfl)
          have below : oldest < ring.nextAllocId :=
            ordered.numbered oldest (by rw [empty]; exact mem_cons_self)
          exact ⟨region, by rw [live_assign fits, if_neg below.ne, found], watermark⟩
      idle none := by
        rw [order] at none
        exact absurd none (append_ne_nil_of_right_ne_nil _ (cons_ne_nil _ _))
      cut id region found := by
        rw [fields]
        obtain ⟨_, rfl⟩ | ⟨_, found⟩ := old id region found
        · unfold nextRegion
          obtain placed | ⟨_, placed⟩ := ring.place_cases requiredBytes <;> rw [placed] <;>
            dsimp only <;> omega
        · have cut := ordered.cut id region found
          obtain placed | ⟨_, placed⟩ := ring.place_cases requiredBytes <;> rw [placed] <;>
            dsimp only <;> omega
      before older newer earlier later less foundOlder foundNewer := by
        obtain ⟨newest, rfl⟩ | ⟨below, foundNewer⟩ := old newer later foundNewer
        · obtain ⟨same, _⟩ | ⟨_, foundOlder⟩ := old older earlier foundOlder
          · omega
          · exact before_nextRegion (ordered.cut older earlier foundOlder)
        · obtain ⟨same, _⟩ | ⟨_, foundOlder⟩ := old older earlier foundOlder
          · omega
          · exact ordered.before older newer earlier later less foundOlder foundNewer }

end Assign

section Free

variable {ring : StagingAllocator} {allocId : ℕ}

/-- The ring after the pops of `free`, before its watermark is set. -/
def popped (ring : StagingAllocator) (allocId : ℕ) : StagingAllocator :=
  { ring with
    allocations := ring.allocations.erase allocId
    allocOrder := ring.allocOrder.dropWhile fun id => decide (id ∉ ring.allocations.erase allocId) }

/-- A known region is popped. -/
theorem free_of_mem (member : allocId ∈ ring.allocations) :
    ring.free allocId = (ring.popped allocId).advance := by
  rw [free, if_pos member]
  rfl

/-- It is no longer live. -/
theorem live_popped (ring : StagingAllocator) (allocId id : ℕ) :
    (ring.popped allocId).live id = if id = allocId then none else ring.live id := by
  split
  next same =>
    subst same
    exact lookup_erase _ _
  next other => exact lookup_erase_ne other

/-- What is live after the pops was live before. -/
theorem live_of_popped (found : (ring.popped allocId).live id = some region) :
    ring.live id = some region := by
  rw [live_popped] at found
  split at found
  · cases found
  · exact found

/-- The pops leave the entries from the oldest live one on. -/
theorem head_popped (first : (ring.popped allocId).allocOrder.head? = some id) :
    ∃ region, (ring.popped allocId).live id = some region := by
  have kept := head?_dropWhile_not
    (fun id => decide (id ∉ ring.allocations.erase allocId)) ring.allocOrder
  change (ring.allocOrder.dropWhile _).head? = some id at first
  rw [first] at kept
  have member : id ∈ ring.allocations.erase allocId := by simpa using kept
  exact isSome_iff_exists.mp (lookup_isSome.mpr member)

/-- The live ones are in order. -/
theorem mem_popped (ordered : ring.Ordered) (found : (ring.popped allocId).live id = some region) :
    id ∈ (ring.popped allocId).allocOrder := by
  have listed := ordered.listed id region (live_of_popped found)
  rw [← takeWhile_append_dropWhile (l := ring.allocOrder)
    (p := fun id => decide (id ∉ ring.allocations.erase allocId))] at listed
  obtain skipped | kept := mem_append.mp listed
  · have absent := mem_takeWhile_imp skipped
    simp only [decide_eq_true_eq] at absent
    have present : (ring.popped allocId).allocations.lookup id = some region := found
    have member : id ∈ (ring.popped allocId).allocations := by
      rw [← lookup_isSome, present]
      rfl
    exact absurd member absent
  · exact kept

/-- The ring has no live allocation exactly when its order is exhausted. -/
theorem popped_empty_iff (ordered : ring.Ordered) :
    (ring.popped allocId).allocations = ∅ ↔ (ring.popped allocId).allocOrder = [] := by
  constructor
  · intro empty
    cases order : (ring.popped allocId).allocOrder with
    | nil => rfl
    | cons oldest rest =>
      obtain ⟨region, found⟩ := head_popped (by rw [order]; rfl)
      rw [live, empty] at found
      cases found
  · intro exhausted
    refine ext_lookup fun id => ?_
    cases found : (ring.popped allocId).allocations.lookup id with
    | none => rw [lookup_empty]
    | some region =>
      have member := mem_popped ordered found
      rw [exhausted] at member
      exact absurd member not_mem_nil

/-- A free that finds its allocation leaves the ring idle in a fresh round, or
puts the watermark at the oldest live region. -/
theorem free_cases (ordered : ring.Ordered) (member : allocId ∈ ring.allocations) :
    ((ring.popped allocId).allocOrder = [] ∧ ring.free allocId = { ring.popped allocId with
          round := ring.round + 1
          head := 0
          watermark := toLex (ring.round + 1, 0) }) ∨
    ∃ oldest region, (ring.popped allocId).allocOrder.head? = some oldest ∧
      (ring.popped allocId).live oldest = some region ∧
      ring.free allocId = { ring.popped allocId with watermark := region.position } := by
  rw [free_of_mem member]
  cases order : (ring.popped allocId).allocOrder with
  | nil =>
    have empty := (popped_empty_iff ordered).mpr order
    exact .inl ⟨rfl, by rw [advance, if_pos empty]; rfl⟩
  | cons oldest rest =>
    have nonempty : (ring.popped allocId).allocations ≠ ∅ := by
      intro empty
      rw [(popped_empty_iff ordered).mp empty] at order
      cases order
    obtain ⟨region, found⟩ := head_popped
      (show (ring.popped allocId).allocOrder.head? = some oldest by rw [order]; rfl)
    refine .inr ⟨oldest, region, rfl, found, ?_⟩
    have lookup : (ring.popped allocId).allocations.lookup oldest = some region := found
    have front : (ring.popped allocId).allocOrder.head?.bind
        (ring.popped allocId).allocations.lookup = some region := by
      rw [order, head?_cons, bind_some, lookup]
    rw [advance, if_neg nonempty, front]

/-- Freeing ends one region. -/
theorem live_free (ordered : ring.Ordered) (allocId id : ℕ) :
    (ring.free allocId).live id = if id = allocId then none else ring.live id := by
  by_cases member : allocId ∈ ring.allocations
  · rw [← live_popped]
    obtain ⟨_, freed⟩ | ⟨_, _, _, _, freed⟩ := free_cases ordered member <;>
      rw [freed] <;> rfl
  · rw [free, if_neg member]
    split
    next same =>
      rw [same]
      exact lookup_eq_none.mpr member
    · rfl

/-- The next id stays. -/
theorem nextAllocId_free (ring : StagingAllocator) (allocId : ℕ) :
    (ring.free allocId).nextAllocId = ring.nextAllocId := by
  unfold free advance
  dsimp only
  split
  · split
    · rfl
    · split <;> rfl
  · rfl

/-- The watermark only moves forward. -/
theorem watermark_le_free (ordered : ring.Ordered) (allocId : ℕ) :
    ring.watermark ≤ (ring.free allocId).watermark := by
  by_cases member : allocId ∈ ring.allocations
  swap
  · rw [free, if_neg member]
  obtain ⟨freed, found⟩ := isSome_iff_exists.mp (lookup_isSome.mpr member)
  obtain ⟨_, result⟩ | ⟨_, later, _, foundNext, result⟩ := free_cases ordered member <;> rw [result]
  · refine (ordered.watermark_le found).trans ?_
    rw [Region.position, Prod.Lex.toLex_le_toLex]
    have cut := ordered.cut allocId freed found
    omega
  · exact ordered.watermark_le (live_of_popped foundNext)

/-- The ring stays ordered. -/
theorem Ordered.free (ordered : ring.Ordered) (allocId : ℕ) : (ring.free allocId).Ordered := by
  by_cases member : allocId ∈ ring.allocations
  swap
  · rw [StagingAllocator.free, if_neg member]
    exact ordered
  have suffix : (ring.popped allocId).allocOrder.Sublist ring.allocOrder := dropWhile_sublist _
  obtain ⟨exhausted, result⟩ | ⟨oldest, region, first, found, result⟩ :=
    free_cases ordered member <;> rw [result] <;>
    refine ⟨ordered.sorted.sublist suffix,
      fun id inside => ordered.numbered id (suffix.subset inside),
      fun id region found => mem_popped ordered found, fun id front => ?_, fun none => ?_,
      fun id region found => ?_, fun older newer earlier later less foundOlder foundNewer =>
        ordered.before older newer earlier later less (live_of_popped foundOlder)
          (live_of_popped foundNewer)⟩
  · cases (congrArg head? exhausted).symm.trans front
  · exact ⟨rfl, rfl⟩
  · have cut := ordered.cut id region (live_of_popped found)
    exact .inl (by dsimp only; omega)
  · obtain rfl := some.inj (first.symm.trans front)
    exact ⟨region, found, rfl⟩
  · cases first.symm.trans (congrArg head? none)
  · exact ordered.cut id region (live_of_popped found)

end Free

end StagingAllocator

end AvaServe.Disaggregation
