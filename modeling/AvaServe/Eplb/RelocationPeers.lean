import AvaServe.Eplb.Relocation

/-!
# Who sends and who receives an expert

A rank that wants an expert it does not hold asks one rank that holds it, on its own node
if there is one. A rank that holds an expert computes the ranks it sends it to from its
own side, and these are exactly the ranks that ask it.
-/

namespace AvaServe.Eplb

open List

/-! ### Deduplication of sorted lists -/

/-- The loop keeps the output ascending and loses nothing. -/
theorem deduplicateOrdered_loop {output arr : List ℕ} (ascending : output.Pairwise (· < ·))
    (sorted : arr.Pairwise (· ≤ ·)) (below : ∀ x ∈ output, ∀ y ∈ arr, x ≤ y) :
    (arr.foldl (fun output item =>
        if output = [] ∨ output.getLast? ≠ some item then output ++ [item] else output)
      output).Pairwise (· < ·) ∧
    ∀ x, x ∈ arr.foldl (fun output item =>
        if output = [] ∨ output.getLast? ≠ some item then output ++ [item] else output) output ↔
      x ∈ output ∨ x ∈ arr := by
  induction arr generalizing output with
  | nil => exact ⟨ascending, fun x => by simp⟩
  | cons item rest ih =>
    obtain ⟨first, sorted⟩ := pairwise_cons.mp sorted
    rw [foldl_cons]
    split
    next new =>
      have less : ∀ x ∈ output, x < item := by
        intro x member
        obtain rfl | ⟨front, last, rfl⟩ := eq_nil_or_concat' output
        · cases member
        have differs : last ≠ item := by simpa using new
        have above := below last (mem_append_right _ (mem_singleton_self last)) item mem_cons_self
        obtain before | same := mem_append.mp member
        · have less := (pairwise_append.mp ascending).2.2 x before last (mem_singleton_self last)
          omega
        · rw [mem_singleton.mp same]
          omega
      obtain ⟨pairwise, mem⟩ := @ih (output ++ [item])
        (pairwise_append.mpr ⟨ascending, pairwise_singleton _ _, fun x member y last => by
          rw [mem_singleton.mp last]
          exact less x member⟩) sorted (fun x member y later => by
            obtain old | last := mem_append.mp member
            · exact below x old y (mem_cons_of_mem _ later)
            · rw [mem_singleton.mp last]
              exact first y later)
      refine ⟨pairwise, fun x => ?_⟩
      rw [mem, mem_append, mem_singleton, mem_cons, or_assoc]
    next old =>
      obtain ⟨pairwise, mem⟩ := ih ascending sorted fun x member y later =>
        below x member y (mem_cons_of_mem _ later)
      refine ⟨pairwise, fun x => ?_⟩
      rw [mem, mem_cons]
      have present : item ∈ output := by
        by_contra absent
        refine old (.inr fun isLast => absent ?_)
        exact mem_of_getLast? isLast
      constructor
      · exact Or.imp_right Or.inr
      · rintro (member | rfl | member)
        · exact .inl member
        · exact .inl present
        · exact .inr member

/-- A sorted list is left without duplicates. -/
theorem nodup_deduplicateOrdered {arr : List ℕ} (sorted : arr.Pairwise (· ≤ ·)) :
    (deduplicateOrdered arr).Nodup :=
  (deduplicateOrdered_loop Pairwise.nil sorted fun _ none =>
    absurd none not_mem_nil).1.imp ne_of_lt

/-- Nothing is lost. -/
theorem mem_deduplicateOrdered {arr : List ℕ} (sorted : arr.Pairwise (· ≤ ·)) (x : ℕ) :
    x ∈ deduplicateOrdered arr ↔ x ∈ arr := by
  refine ((deduplicateOrdered_loop Pairwise.nil sorted fun _ none =>
    absurd none not_mem_nil).2 x).trans ?_
  simp

namespace Relocation

variable {layer : Relocation} {worldSize : ℕ}

/-- What the callers grant: the maps cover the slots of all ranks and every expert of the
new map occurs in the old one. -/
structure Valid (layer : Relocation) (worldSize : ℕ) : Prop where
  gpus : layer.numGpuPerNode ≠ 0
  chunk : layer.batchChunkSize ≠ 0
  old_length : layer.oldPhysicalToLogicalMap.length = worldSize * layer.numLocalPhysicalExperts
  new_length : layer.newPhysicalToLogicalMap.length = worldSize * layer.numLocalPhysicalExperts
  covered : ∀ e ∈ layer.newPhysicalToLogicalMap, e ∈ layer.oldPhysicalToLogicalMap

/-- The experts to be placed have ids below the number of physical experts. -/
def Bounded (layer : Relocation) : Prop :=
  ∀ e ∈ layer.newPhysicalToLogicalMap, e < layer.numPhysicalExperts

/-- A rank has a slot of an expert under a map. -/
def Lists (layer : Relocation) (map : List ℕ) (rank e : ℕ) : Prop :=
  ∃ x ∈ layer.localExpertLocations rank, map[x]? = some e

/-- A rank holds an expert before the relocation. -/
def Holds (layer : Relocation) (rank e : ℕ) : Prop :=
  layer.Lists layer.oldPhysicalToLogicalMap rank e

/-- A rank has to hold an expert after the relocation. -/
def Wants (layer : Relocation) (rank e : ℕ) : Prop :=
  layer.Lists layer.newPhysicalToLogicalMap rank e

variable {rank x : ℕ}

/-- The locations of a rank. -/
theorem mem_local_iff : x ∈ layer.localExpertLocations rank ↔
      rank * layer.numLocalPhysicalExperts ≤ x ∧
        x < (rank + 1) * layer.numLocalPhysicalExperts := by
  rw [localExpertLocations, mem_range'_1, Nat.succ_mul]

/-- They are those of its quotient. -/
theorem mem_local_iff_div (positive : 0 < layer.numLocalPhysicalExperts) :
    x ∈ layer.localExpertLocations rank ↔ x / layer.numLocalPhysicalExperts = rank := by
  rw [mem_local_iff, Nat.div_eq_iff positive, Nat.succ_mul]
  omega

/-- A location of the rank has a local index. -/
theorem getLocal_of_mem (member : x ∈ layer.localExpertLocations rank) :
    layer.getLocalExpertLocation rank x = some (x % layer.numLocalPhysicalExperts) := by
  rw [getLocalExpertLocation, if_pos (mem_local_iff.mp member)]

/-- The locations of a rank have different local locations. -/
theorem local_injective {y : ℕ} (first : x ∈ layer.localExpertLocations rank)
    (second : y ∈ layer.localExpertLocations rank)
    (same : x % layer.numLocalPhysicalExperts = y % layer.numLocalPhysicalExperts) : x = y := by
  have positive : 0 < layer.numLocalPhysicalExperts := by
    obtain ⟨low, high⟩ := mem_local_iff.mp first
    by_contra zero
    rw [Nat.eq_zero_of_not_pos zero] at high
    omega
  have one := Nat.div_add_mod x layer.numLocalPhysicalExperts
  have other := Nat.div_add_mod y layer.numLocalPhysicalExperts
  rw [(mem_local_iff_div positive).mp first] at one
  rw [(mem_local_iff_div positive).mp second] at other
  omega

/-- The ranks of an expert are sorted. -/
theorem sorted_ranksOf (layer : Relocation) (map : List ℕ) (e : ℕ) :
    (layer.ranksOf map e).Pairwise (· ≤ ·) := by
  unfold ranksOf
  rw [pairwise_map]
  exact (pairwise_lt_range.filter _).imp fun less => Nat.div_le_div_right less.le

namespace Valid

variable (valid : layer.Valid worldSize)
include valid

variable {map : List ℕ} (length : map.length = layer.numPhysicalExperts) {e : ℕ}
  (found : map[x]? = some e)

include length found in
/-- An assigned location is in the world. -/
theorem lt_of_getElem? : x < worldSize * layer.numLocalPhysicalExperts := by
  rw [← valid.old_length, ← numPhysicalExperts, ← length]
  exact (List.getElem?_eq_some_iff.mp found).1

include length found in
/-- A slot of an expert is on the rank that its location gives. -/
theorem mem_local_iff_of_getElem? : x ∈ layer.localExpertLocations rank ↔
      x / layer.numLocalPhysicalExperts = rank := by
  have less := valid.lt_of_getElem? length found
  exact mem_local_iff_div (pos_of_ne_zero fun zero => by simp [zero] at less)

include length in
/-- The ranks of an expert list it. -/
theorem mem_ranksOf : rank ∈ layer.ranksOf map e ↔ layer.Lists map rank e := by
  unfold ranksOf Lists
  rw [mem_map]
  constructor
  · rintro ⟨x, member, rfl⟩
    have found := of_decide_eq_true (mem_filter.mp member).2
    exact ⟨x, (valid.mem_local_iff_of_getElem? length found).mpr rfl, found⟩
  · rintro ⟨x, member, found⟩
    refine ⟨x, mem_filter.mpr ⟨mem_range.mpr ?_, decide_eq_true found⟩,
      (valid.mem_local_iff_of_getElem? length found).mp member⟩
    rw [← length]
    exact (List.getElem?_eq_some_iff.mp found).1

/-- The sources hold the expert. -/
theorem mem_allSrcRanks : rank ∈ layer.allSrcRanks e ↔ layer.Holds rank e := by
  rw [allSrcRanks, mem_deduplicateOrdered (layer.sorted_ranksOf _ e)]
  exact valid.mem_ranksOf rfl

/-- The targets want it and lack it. -/
theorem mem_needCommDstRanks :
    rank ∈ layer.needCommDstRanks e ↔ layer.Wants rank e ∧ ¬layer.Holds rank e := by
  rw [needCommDstRanks, mem_deduplicateOrdered ((layer.sorted_ranksOf _ e).filter _),
    mem_filter, decide_eq_true_eq, valid.mem_allSrcRanks]
  exact and_congr_left' (valid.mem_ranksOf (valid.new_length.trans valid.old_length.symm))

include length in
/-- Ranks with a slot of an expert are ranks of the world. -/
theorem rank_lt (lists : layer.Lists map rank e) : rank < worldSize := by
  obtain ⟨x, member, found⟩ := lists
  have low := (mem_local_iff.mp member).1
  exact Nat.lt_of_mul_lt_mul_right (low.trans_lt (valid.lt_of_getElem? length found))

/-- A wanted expert has a holder. -/
theorem exists_holder (wants : layer.Wants rank e) : ∃ holder, layer.Holds holder e := by
  obtain ⟨x, -, found⟩ := wants
  obtain ⟨y, held⟩ := mem_iff_getElem?.mp (valid.covered e (mem_of_getElem? found))
  exact ⟨_, y, (valid.mem_local_iff_of_getElem? rfl held).mpr rfl, held⟩

end Valid

/-- A source is listed once. -/
theorem nodup_allSrcRanks (layer : Relocation) (e : ℕ) : (layer.allSrcRanks e).Nodup :=
  nodup_deduplicateOrdered (layer.sorted_ranksOf _ e)

/-- So is a target. -/
theorem nodup_needCommDstRanks (layer : Relocation) (e : ℕ) : (layer.needCommDstRanks e).Nodup :=
  nodup_deduplicateOrdered ((layer.sorted_ranksOf _ e).filter _)

/-! ### Both sides of a choice -/

/-- Some rank on the node of a rank holds an expert. -/
def HeldNearby (layer : Relocation) (rank e : ℕ) : Prop :=
  ∃ holder, layer.Holds holder e ∧ holder / layer.numGpuPerNode = rank / layer.numGpuPerNode

/-- A rank asks another one for an expert. -/
def Asks (layer : Relocation) (rank e holder : ℕ) : Prop :=
  layer.chosenSource rank e = some (.sameNode holder) ∨
    layer.chosenSource rank e = some (.crossNode holder)

section Choice

variable (valid : layer.Valid worldSize) {rank e : ℕ}
include valid

variable {holder : ℕ}

/-- The sources on the node. -/
theorem mem_selfNodeSrcRanks : holder ∈ (layer.computeCommInfo rank e).sameNodeMapping.chunkValues ↔
      layer.Holds holder e ∧ holder / layer.numGpuPerNode = rank / layer.numGpuPerNode := by
  change holder ∈ (layer.allSrcRanks e).filter _ ↔ _
  rw [mem_filter, valid.mem_allSrcRanks, decide_eq_true_eq]

/-- The targets on the node. -/
theorem mem_needCommSelfNodeDstRanks {other : ℕ} :
    other ∈ (layer.computeCommInfo rank e).needCommSelfNodeDstRanks ↔
      layer.HeldNearby rank e ∧ (layer.Wants other e ∧ ¬layer.Holds other e) ∧
        other / layer.numGpuPerNode = rank / layer.numGpuPerNode := by
  have nearby : 0 < (layer.computeCommInfo rank e).sameNodeMapping.chunkValues.length ↔
      layer.HeldNearby rank e := by
    rw [length_pos_iff_exists_mem]
    exact exists_congr fun holder => mem_selfNodeSrcRanks valid
  change other ∈ (if 0 < (layer.computeCommInfo rank e).sameNodeMapping.chunkValues.length then
    (layer.needCommDstRanks e).filter _ else []) ↔ _
  rw [← nearby]
  split
  next positive =>
    rw [mem_filter, valid.mem_needCommDstRanks, decide_eq_true_eq]
    exact (and_iff_right positive).symm
  next none => exact ⟨fun member => absurd member not_mem_nil, fun both => absurd both.1 none⟩

/-- The targets without a source nearby. -/
theorem mem_crossElements {other : ℕ} :
    other ∈ (layer.computeCommInfo rank e).crossNodeMapping.elementValues ↔
      (layer.Wants other e ∧ ¬layer.Holds other e) ∧ ¬layer.HeldNearby other e := by
  change other ∈ (layer.needCommDstRanks e).filter _ ↔ _
  rw [mem_filter, valid.mem_needCommDstRanks, decide_eq_true_eq, mem_map]
  refine and_congr_right' (not_congr (exists_congr fun holder => ?_))
  rw [valid.mem_allSrcRanks]

omit valid in
/-- The plan is the same on a node. -/
theorem computeCommInfo_congr {other : ℕ}
    (same : other / layer.numGpuPerNode = rank / layer.numGpuPerNode) :
    layer.computeCommInfo other e = layer.computeCommInfo rank e := by
  unfold computeCommInfo
  rw [same]

omit valid in
/-- A target of the node is listed once. -/
theorem nodup_sameElements :
    (layer.computeCommInfo rank e).sameNodeMapping.elementValues.Nodup := by
  unfold computeCommInfo
  dsimp only
  split
  · exact (layer.nodup_needCommDstRanks e).filter _
  · exact nodup_nil

omit valid in
/-- So is a target across nodes. -/
theorem nodup_crossElements : (layer.computeCommInfo rank e).crossNodeMapping.elementValues.Nodup :=
  (layer.nodup_needCommDstRanks e).filter _

/-- A rank that wants an expert it does not hold asks a rank that holds it. -/
theorem exists_asks (wants : layer.Wants rank e) (lacks : ¬layer.Holds rank e) :
    ∃ holder, layer.Asks rank e holder := by
  unfold Asks chosenSource
  by_cases nearby : layer.HeldNearby rank e
  · have member := (mem_needCommSelfNodeDstRanks valid).mpr ⟨nearby, ⟨wants, lacks⟩, rfl⟩
    obtain ⟨near, nearMem⟩ : ∃ near, near ∈
        (layer.computeCommInfo rank e).sameNodeMapping.chunkValues :=
      nearby.imp fun holder held => (mem_selfNodeSrcRanks valid).mpr held
    obtain ⟨holder, -, chosen⟩ := ChunkUtils.exists_chunkValue (ne_nil_of_mem nearMem)
      nodup_sameElements member
    exact ⟨holder, .inl (by rw [if_pos member, chosen]; rfl)⟩
  · have member := (@mem_crossElements layer worldSize valid rank e rank).mpr
      ⟨⟨wants, lacks⟩, nearby⟩
    have far : rank ∉ (layer.computeCommInfo rank e).needCommSelfNodeDstRanks := fun inside =>
      nearby ((mem_needCommSelfNodeDstRanks valid).mp inside).1
    obtain ⟨holder, holds⟩ := valid.exists_holder wants
    have some_holder : (layer.computeCommInfo rank e).crossNodeMapping.chunkValues ≠ [] :=
      ne_nil_of_mem (valid.mem_allSrcRanks.mpr holds)
    obtain ⟨chosen, -, found⟩ := ChunkUtils.exists_chunkValue some_holder nodup_crossElements member
    exact ⟨chosen, .inr (by rw [if_neg far, found]; rfl)⟩

omit valid in
/-- The two ways of asking, in terms of the mappings. -/
theorem asks_iff : layer.Asks rank e holder ↔
      (rank ∈ (layer.computeCommInfo rank e).needCommSelfNodeDstRanks ∧
        (layer.computeCommInfo rank e).sameNodeMapping.chunkValueFromElementValue rank =
          some holder) ∨
      (rank ∉ (layer.computeCommInfo rank e).needCommSelfNodeDstRanks ∧
        (layer.computeCommInfo rank e).crossNodeMapping.chunkValueFromElementValue rank =
          some holder) := by
  unfold Asks chosenSource
  by_cases near : rank ∈ (layer.computeCommInfo rank e).needCommSelfNodeDstRanks
  · simp [near]
  · simp [near]

/-- Who asks lacks the expert and asks a holder. -/
theorem Asks.spec (asks : layer.Asks rank e holder) :
    (layer.Wants rank e ∧ ¬layer.Holds rank e) ∧ layer.Holds holder e := by
  obtain ⟨near, chosen⟩ | ⟨-, chosen⟩ := asks_iff.mp asks
  · have sides := ChunkUtils.mem_of_chunkValue chosen
    exact ⟨((mem_needCommSelfNodeDstRanks valid).mp near).2.1,
      ((mem_selfNodeSrcRanks valid).mp sides.2).1⟩
  · have sides := ChunkUtils.mem_of_chunkValue chosen
    exact ⟨((mem_crossElements valid).mp sides.1).1, valid.mem_allSrcRanks.mp sides.2⟩

/-- A rank that holds an expert sends it to exactly the ranks that ask it, to each once. -/
theorem allDstRanks_spec (holds : layer.Holds rank e) :
    ∃ dstRanks, layer.allDstRanks rank e = some dstRanks ∧ dstRanks.Nodup ∧
      ∀ other, other ∈ dstRanks ↔ layer.Asks other e rank := by
  have chunks : (layer.computeCommInfo rank e).sameNodeMapping.chunkValues.Nodup :=
    (layer.nodup_allSrcRanks e).filter _
  have selfMem : rank ∈ (layer.computeCommInfo rank e).sameNodeMapping.chunkValues :=
    (mem_selfNodeSrcRanks valid).mpr ⟨holds, rfl⟩
  obtain ⟨same, sameEq, sameNodup, sameIff⟩ :=
    ChunkUtils.mem_elementValues_iff chunks nodup_sameElements selfMem
  obtain ⟨cross, crossEq, crossNodup, crossIff⟩ :=
    @ChunkUtils.mem_elementValues_iff (layer.computeCommInfo rank e).crossNodeMapping
      (layer.nodup_allSrcRanks e) nodup_crossElements rank (valid.mem_allSrcRanks.mpr holds)
  have sameNear : ∀ other ∈ same,
      other ∈ (layer.computeCommInfo rank e).needCommSelfNodeDstRanks := fun other member =>
    (ChunkUtils.mem_of_chunkValue ((sameIff other).mp member)).1
  have crossFar : ∀ other ∈ cross, ¬layer.HeldNearby other e := fun other member =>
    ((mem_crossElements valid).mp (ChunkUtils.mem_of_chunkValue ((crossIff other).mp member)).1).2
  have nodeOf : ∀ other ∈ same, layer.HeldNearby other e ∧
      other / layer.numGpuPerNode = rank / layer.numGpuPerNode := by
    intro other member
    obtain ⟨⟨holder, held, node⟩, -, same⟩ :=
      (mem_needCommSelfNodeDstRanks valid).mp (sameNear other member)
    exact ⟨⟨holder, held, node.trans same.symm⟩, same⟩
  refine ⟨same ++ cross, ?_, ?_, fun other => ?_⟩
  · rw [allDstRanks, sameEq, crossEq]
    rfl
  · refine nodup_append.mpr ⟨sameNodup, crossNodup, ?_⟩
    rintro other inSame other' inCross rfl
    exact crossFar other inCross (nodeOf other inSame).1
  rw [mem_append, asks_iff]
  constructor
  · rintro (member | member)
    · have info := @computeCommInfo_congr layer rank e other (nodeOf other member).2
      rw [info]
      exact .inl ⟨sameNear other member, (sameIff other).mp member⟩
    · refine .inr ⟨fun near => ?_, (crossIff other).mp member⟩
      exact crossFar other member ((mem_needCommSelfNodeDstRanks valid).mp near).1
  · rintro (⟨near, chosen⟩ | ⟨-, chosen⟩)
    · have node := ((mem_selfNodeSrcRanks valid).mp (ChunkUtils.mem_of_chunkValue chosen).2).2
      rw [@computeCommInfo_congr layer rank e other node.symm] at chosen
      exact .inl ((sameIff other).mpr chosen)
    · exact .inr ((crossIff other).mpr chosen)

end Choice

end Relocation

end AvaServe.Eplb
