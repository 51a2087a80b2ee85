import Mathlib
import AvaServe.Foundation.Path
import AvaServe.Foundation.ScatterWrites
import AvaServe.Memory.SwaAllocator

/-!
# Full pages and their sliding-window peers

The table of the hybrid allocator is sound when it is a pairing of pages: a full
page with a live entry has one sliding-window page, that page belongs to no
other full page, both are allocated, and a token has the same offset in both.
The moves of the allocator are moves of such a pairing, and callers that respect
ownership keep it in every run, as long as they continue a partially filled page
only while its peer is live.
-/

namespace AvaServe.Memory

open Foundation List Function

/-! ## The pairing of pages -/

/-- The entries of the table relate the pages of a full slot and of its peer. -/
def Peers (pageSize : ℕ) (mapping : ℕ → ℕ) (fullPage swaPage : ℕ) : Prop :=
  ∃ index, mapping index ≠ 0 ∧ index / pageSize = fullPage ∧ mapping index / pageSize = swaPage

/-- The table pairs allocated pages one to one. Three lists of slots wait for
the end of a group: `pendingFree` releases both sides, `pendingFull` the full
side of pages without entries, `pendingSwa` the peers of cleared entries. -/
structure Paired (pageSize : ℕ) (full swa : PoolAllocator) (mapping : ℕ → ℕ)
    (pendingFree pendingFull pendingSwa : List ℕ) : Prop where
  positive : 0 < pageSize
  fullPageSize : full.pageSize = pageSize
  swaPageSize : swa.pageSize = pageSize
  fullUngrouped : full.freeGroup = none
  swaUngrouped : swa.freeGroup = none
  fullSound : full.Sound
  swaSound : swa.Sound
  offset : ∀ index, mapping index ≠ 0 → mapping index % pageSize = index % pageSize
  unique : Relator.BiUnique (Peers pageSize mapping)
  fullPeer : ∀ fullPage swaPage, Peers pageSize mapping fullPage swaPage → full.Taken fullPage
  swaPeer : ∀ fullPage swaPage, Peers pageSize mapping fullPage swaPage → swa.Taken swaPage
  freeTaken : ∀ index ∈ pendingFree, full.Taken (index / pageSize)
  freeNodup : pendingFree.Nodup
  fullTaken : ∀ index ∈ pendingFull, full.Taken (index / pageSize)
  fullNodup : pendingFull.Nodup
  fullReleased : ∀ index ∈ pendingFull, ∀ swaPage,
    ¬ Peers pageSize mapping (index / pageSize) swaPage
  pendingDisjoint : ∀ left ∈ pendingFree, ∀ right ∈ pendingFull, left / pageSize ≠ right / pageSize
  swaTaken : ∀ index ∈ pendingSwa, swa.Taken (index / pageSize)
  swaNodup : pendingSwa.Nodup
  swaReleased : ∀ index ∈ pendingSwa, ∀ fullPage,
    ¬ Peers pageSize mapping fullPage (index / pageSize)

section Pairing

variable {pageSize : ℕ} {full swa nextFull nextSwa : PoolAllocator} {mapping next : ℕ → ℕ}
  {pendingFree pendingFull pendingSwa indices : List ℕ}

/-- An entry makes its pages peers. -/
theorem Peers.of_ne_zero (pageSize : ℕ) {index : ℕ} (live : mapping index ≠ 0) :
    Peers pageSize mapping (index / pageSize) (mapping index / pageSize) :=
  ⟨index, live, rfl, rfl⟩

/-- The peers of the slots whose entries are cleared. -/
theorem mem_clearedPeers {swaIndex : ℕ} (member : swaIndex ∈ (indices.map mapping).filter (0 < ·)) :
    ∃ index ∈ indices, mapping index ≠ 0 ∧ mapping index = swaIndex := by
  obtain ⟨member, live⟩ := mem_filter.mp member
  obtain ⟨index, inside, rfl⟩ := mem_map.mp member
  exact ⟨index, inside, (of_decide_eq_true live).ne', rfl⟩

variable (paired : Paired pageSize full swa mapping pendingFree pendingFull pendingSwa)
include paired

/-- Live entries of a pairing are injective. -/
theorem Paired.injective {left right : ℕ} (live : mapping left ≠ 0)
    (same : mapping left = mapping right) : left = right := by
  have liveRight : mapping right ≠ 0 := same ▸ live
  have page : left / pageSize = right / pageSize := by
    refine paired.unique.1 (Peers.of_ne_zero pageSize live) ?_
    rw [same]
    exact Peers.of_ne_zero pageSize liveRight
  have offset : left % pageSize = right % pageSize := by
    rw [← paired.offset left live, ← paired.offset right liveRight, same]
  rw [← Nat.div_add_mod left pageSize, page, offset, Nat.div_add_mod]

/-- Allocation: every new entry continues a paired page or lies in a pair of
pages that were just taken, each in one such pair. -/
theorem Paired.grow {fullPages swaPages : List ℕ} (tookFull : full.Took nextFull fullPages)
    (tookSwa : swa.Took nextSwa swaPages) {fresh : ℕ → ℕ → Prop}
    (freshUnique : Relator.BiUnique fresh)
    (freshTaken : ∀ fullPage swaPage, fresh fullPage swaPage →
      fullPage ∈ fullPages ∧ swaPage ∈ swaPages)
    (entries : ∀ index, next index ≠ 0 → next index % pageSize = index % pageSize ∧
      (Peers pageSize mapping (index / pageSize) (next index / pageSize) ∨
        fresh (index / pageSize) (next index / pageSize))) :
    Paired pageSize nextFull nextSwa next pendingFree pendingFull pendingSwa := by
  have split : ∀ fullPage swaPage, Peers pageSize next fullPage swaPage →
      Peers pageSize mapping fullPage swaPage ∨ fresh fullPage swaPage := by
    rintro fullPage swaPage ⟨index, live, rfl, rfl⟩
    exact (entries index live).2
  -- old pairs are in the callers' hands, fresh ones come out of the pools
  have apartFull : ∀ {fullPage left right}, Peers pageSize mapping fullPage left →
      ¬ fresh fullPage right := fun old new =>
    tookFull.not_mem_of_taken (paired.fullPeer _ _ old) (freshTaken _ _ new).1
  have apartSwa : ∀ {left right swaPage}, Peers pageSize mapping left swaPage →
      ¬ fresh right swaPage := fun old new =>
    tookSwa.not_mem_of_taken (paired.swaPeer _ _ old) (freshTaken _ _ new).2
  refine
    { paired with
      fullPageSize := tookFull.shape.pageSize.trans paired.fullPageSize
      swaPageSize := tookSwa.shape.pageSize.trans paired.swaPageSize
      fullUngrouped := tookFull.shape.freeGroup.trans paired.fullUngrouped
      swaUngrouped := tookSwa.shape.freeGroup.trans paired.swaUngrouped
      fullSound := tookFull.sound paired.fullSound
      swaSound := tookSwa.sound paired.swaSound
      offset := fun index live => (entries index live).1
      unique := ⟨?_, ?_⟩
      fullPeer := ?_
      swaPeer := ?_
      freeTaken := fun index member => tookFull.taken (paired.freeTaken index member)
      fullTaken := fun index member => tookFull.taken (paired.fullTaken index member)
      fullReleased := ?_
      swaTaken := fun index member => tookSwa.taken (paired.swaTaken index member)
      swaReleased := ?_ }
  · intro left right swaPage first second
    obtain first | first := split _ _ first <;> obtain second | second := split _ _ second
    · exact paired.unique.1 first second
    · exact absurd second (apartSwa first)
    · exact absurd first (apartSwa second)
    · exact freshUnique.1 first second
  · intro fullPage left right first second
    obtain first | first := split _ _ first <;> obtain second | second := split _ _ second
    · exact paired.unique.2 first second
    · exact absurd second (apartFull first)
    · exact absurd first (apartFull second)
    · exact freshUnique.2 first second
  · intro fullPage swaPage peers
    obtain old | new := split _ _ peers
    · exact tookFull.taken (paired.fullPeer _ _ old)
    · exact tookFull.taken_of_mem paired.fullSound (freshTaken _ _ new).1
  · intro fullPage swaPage peers
    obtain old | new := split _ _ peers
    · exact tookSwa.taken (paired.swaPeer _ _ old)
    · exact tookSwa.taken_of_mem paired.swaSound (freshTaken _ _ new).2
  · intro index member swaPage peers
    obtain old | new := split _ _ peers
    · exact paired.fullReleased index member swaPage old
    · exact tookFull.not_mem_of_taken (paired.fullTaken index member) (freshTaken _ _ new).1
  · intro index member fullPage peers
    obtain old | new := split _ _ peers
    · exact paired.swaReleased index member fullPage old
    · exact tookSwa.not_mem_of_taken (paired.swaTaken index member) (freshTaken _ _ new).2

/-- Pages may leave the pools, and entries may be cleared. -/
theorem Paired.take {fullPages swaPages : List ℕ} (tookFull : full.Took nextFull fullPages)
    (tookSwa : swa.Took nextSwa swaPages)
    (kept : ∀ index, next index ≠ 0 → next index = mapping index) :
    Paired pageSize nextFull nextSwa next pendingFree pendingFull pendingSwa := by
  have unique : Relator.BiUnique fun _ _ : ℕ => False :=
    ⟨fun _ _ _ absurd => absurd.elim, fun _ _ _ absurd => absurd.elim⟩
  refine paired.grow tookFull tookSwa unique (fun _ _ absurd => absurd.elim) fun index live => ?_
  have same := kept index live
  rw [same] at live ⊢
  exact ⟨paired.offset index live, .inl (Peers.of_ne_zero pageSize live)⟩

/-- Cleared entries pair nothing. -/
theorem Paired.clear (indices : List ℕ) :
    Paired pageSize full swa (fun index => if index ∈ indices then 0 else mapping index)
      pendingFree pendingFull pendingSwa := by
  refine paired.take (PoolAllocator.refused_refl _).took (PoolAllocator.refused_refl _).took
    fun index live => if_neg fun inside => live (if_pos inside)

variable (nodup : indices.Nodup)
  (closed : ∀ left ∈ indices, ∀ right, left / pageSize = right / pageSize → right ∈ indices)

include nodup closed in
/-- The peers of cleared entries may wait on the sliding-window side. -/
theorem Paired.detach :
    Paired pageSize full swa (fun index => if index ∈ indices then 0 else mapping index)
      pendingFree pendingFull (pendingSwa ++ (indices.map mapping).filter (0 < ·)) := by
  have cleared := paired.clear indices
  refine { cleared with swaTaken := ?_, swaNodup := ?_, swaReleased := ?_ }
  · intro swaIndex member
    obtain member | member := mem_append.mp member
    · exact paired.swaTaken swaIndex member
    · obtain ⟨index, -, live, rfl⟩ := mem_clearedPeers member
      exact paired.swaPeer _ _ (Peers.of_ne_zero pageSize live)
  · refine nodup_append'.mpr ⟨paired.swaNodup, ?_, ?_⟩
    · rw [filter_map]
      refine Nodup.map_on ?_ (nodup.filter _)
      intro left leftMem right _ same
      have live : 0 < mapping left := of_decide_eq_true (mem_filter.mp leftMem).2
      exact paired.injective live.ne' same
    · intro swaIndex waiting member
      obtain ⟨index, -, live, rfl⟩ := mem_clearedPeers member
      exact paired.swaReleased _ waiting _ (Peers.of_ne_zero pageSize live)
  · intro swaIndex member fullPage peers
    obtain member | member := mem_append.mp member
    · exact cleared.swaReleased swaIndex member fullPage peers
    · obtain ⟨index, inside, live, rfl⟩ := mem_clearedPeers member
      obtain ⟨other, otherLive, -, page⟩ := peers
      dsimp only at otherLive page
      split at otherLive
      · exact absurd rfl otherLive
      next outside =>
        rw [if_neg outside] at page
        have same : index / pageSize = other / pageSize := by
          refine paired.unique.1 (Peers.of_ne_zero pageSize live) ?_
          rw [← page]
          exact Peers.of_ne_zero pageSize otherLive
        exact outside (closed index inside other same)

/-- Slots in the callers' hands may wait for the release of both sides. -/
theorem Paired.deferFree (nodup : indices.Nodup)
    (taken : ∀ index ∈ indices, full.Taken (index / pageSize))
    (notFree : ∀ left ∈ indices, ∀ right ∈ pendingFree, left / pageSize ≠ right / pageSize)
    (notFull : ∀ left ∈ indices, ∀ right ∈ pendingFull, left / pageSize ≠ right / pageSize) :
    Paired pageSize full swa mapping (pendingFree ++ indices) pendingFull pendingSwa :=
  { paired with
    freeTaken := fun index member =>
      (mem_append.mp member).elim (paired.freeTaken index) (taken index)
    freeNodup := nodup_append'.mpr ⟨paired.freeNodup, nodup,
      fun index waiting member => notFree index member index waiting rfl⟩
    pendingDisjoint := fun left member =>
      (mem_append.mp member).elim (paired.pendingDisjoint left) (notFull left) }

/-- Slots without peers may wait for the release of the full side. -/
theorem Paired.deferFull (nodup : indices.Nodup)
    (taken : ∀ index ∈ indices, full.Taken (index / pageSize))
    (released : ∀ index ∈ indices, ∀ swaPage, ¬ Peers pageSize mapping (index / pageSize) swaPage)
    (notFree : ∀ left ∈ indices, ∀ right ∈ pendingFree, left / pageSize ≠ right / pageSize)
    (notFull : ∀ left ∈ indices, ∀ right ∈ pendingFull, left / pageSize ≠ right / pageSize) :
    Paired pageSize full swa mapping pendingFree (pendingFull ++ indices) pendingSwa :=
  { paired with
    fullTaken := fun index member =>
      (mem_append.mp member).elim (paired.fullTaken index) (taken index)
    fullNodup := nodup_append'.mpr ⟨paired.fullNodup, nodup,
      fun index waiting member => notFull index member index waiting rfl⟩
    fullReleased := fun index member =>
      (mem_append.mp member).elim (paired.fullReleased index) (released index)
    pendingDisjoint := fun left waiting right member =>
      (mem_append.mp member).elim (paired.pendingDisjoint left waiting right)
        fun member => (notFree right member left waiting).symm }

/-- A group that is begun anew forgets what waited in it. -/
theorem Paired.forget : Paired pageSize full swa mapping [] [] [] :=
  { paired with
    freeTaken := forall_mem_nil _
    freeNodup := nodup_nil
    fullTaken := forall_mem_nil _
    fullNodup := nodup_nil
    fullReleased := forall_mem_nil _
    pendingDisjoint := forall_mem_nil _
    swaTaken := forall_mem_nil _
    swaNodup := nodup_nil
    swaReleased := forall_mem_nil _ }

/-- The full pool takes back pages without entries that wait nowhere. -/
theorem Paired.returnFull (taken : ∀ index ∈ indices, full.Taken (index / pageSize))
    (released : ∀ index ∈ indices, ∀ swaPage, ¬ Peers pageSize mapping (index / pageSize) swaPage)
    (notFree : ∀ left ∈ pendingFree, ∀ right ∈ indices, left / pageSize ≠ right / pageSize)
    (notFull : ∀ left ∈ pendingFull, ∀ right ∈ indices, left / pageSize ≠ right / pageSize)
    (returned : full.Returned nextFull (uniquePages pageSize indices)) :
    Paired pageSize nextFull swa mapping pendingFree pendingFull pendingSwa :=
  { paired with
    fullPageSize := returned.shape.pageSize.trans paired.fullPageSize
    fullUngrouped := returned.shape.freeGroup.trans paired.fullUngrouped
    fullSound := returned.sound_of_indices paired.fullSound taken
    fullPeer fullPage swaPage peers := by
      refine returned.taken_of_indices (paired.fullPeer _ _ peers) ?_
      rintro index inside rfl
      exact released index inside swaPage peers
    freeTaken := fun index member =>
      returned.taken_of_indices (paired.freeTaken index member) (notFree index member)
    fullTaken := fun index member =>
      returned.taken_of_indices (paired.fullTaken index member) (notFull index member) }

/-- The sliding-window pool takes back pages of cleared entries that wait nowhere. -/
theorem Paired.returnSwa (taken : ∀ index ∈ indices, swa.Taken (index / pageSize))
    (released : ∀ index ∈ indices, ∀ fullPage, ¬ Peers pageSize mapping fullPage (index / pageSize))
    (notSwa : ∀ left ∈ pendingSwa, ∀ right ∈ indices, left / pageSize ≠ right / pageSize)
    (returned : swa.Returned nextSwa (uniquePages pageSize indices)) :
    Paired pageSize full nextSwa mapping pendingFree pendingFull pendingSwa :=
  { paired with
    swaPageSize := returned.shape.pageSize.trans paired.swaPageSize
    swaUngrouped := returned.shape.freeGroup.trans paired.swaUngrouped
    swaSound := returned.sound_of_indices paired.swaSound taken
    swaPeer fullPage swaPage peers := by
      refine returned.taken_of_indices (paired.swaPeer _ _ peers) ?_
      rintro index inside rfl
      exact released index inside fullPage peers
    swaTaken := fun index member =>
      returned.taken_of_indices (paired.swaTaken index member) (notSwa index member) }

include nodup closed in
/-- Outside a group, the peers of cleared entries go back at once, next to those
that still wait. -/
theorem Paired.releaseSwa
    (returned :
      swa.Returned nextSwa (uniquePages pageSize ((indices.map mapping).filter (0 < ·)))) :
    Paired pageSize full nextSwa (fun index => if index ∈ indices then 0 else mapping index)
      pendingFree pendingFull pendingSwa := by
  have detached := paired.detach nodup closed
  refine (paired.clear indices).returnSwa
    (fun index member => detached.swaTaken index (mem_append_right _ member))
    (fun index member => detached.swaReleased index (mem_append_right _ member)) ?_ returned
  intro left leftWaiting right cleared same
  obtain ⟨index, -, live, rfl⟩ := mem_clearedPeers cleared
  refine paired.swaReleased left leftWaiting (index / pageSize) ?_
  rw [same]
  exact Peers.of_ne_zero pageSize live

end Pairing

/-! ## The entries of an allocation -/

/-- Lists without duplicates pair one to one. -/
theorem biUnique_zip {left right : List ℕ} (leftNodup : left.Nodup) (rightNodup : right.Nodup) :
    Relator.BiUnique fun a b => (a, b) ∈ left.zip right := by
  have unique {left right : List ℕ} (nodup : left.Nodup) :
      Relator.RightUnique fun a b => (a, b) ∈ left.zip right := by
    intro a b c first second
    obtain ⟨i, iBound, iEq⟩ := mem_iff_getElem.mp first
    obtain ⟨j, jBound, jEq⟩ := mem_iff_getElem.mp second
    rw [getElem_zip, Prod.mk.injEq] at iEq jEq
    have same : i = j := (nodup.getElem_inj_iff).mp (iEq.1.trans jEq.1.symm)
    subst same
    exact iEq.2.symm.trans jEq.2
  refine ⟨fun a c b first second => ?_, unique leftNodup⟩
  rw [← zip_swap] at first second
  exact unique rightNodup ((mem_map_swap ..).mp first) ((mem_map_swap ..).mp second)

/-- Entries of one position are paired. -/
theorem getD_mem_zip {left right : List ℕ} {i : ℕ} (leftBound : i < left.length)
    (rightBound : i < right.length) : (left.getD i 0, right.getD i 0) ∈ left.zip right := by
  have bound : i < (left.zip right).length := by
    rw [length_zip]
    exact lt_min leftBound rightBound
  refine mem_iff_getElem.mpr ⟨i, bound, ?_⟩
  simp [getElem?_eq_getElem leftBound,
    getElem?_eq_getElem rightBound]

variable {reqs : List ExtendReq} {translate : ExtendReq → ExtendReq} {pageSize : ℕ}

/-- Paired slots of extended sequences are the slots of one new token of one
sequence, computed from its blocks on both sides. -/
theorem mem_zip_rows
    (sameLens : ∀ req, (translate req).prefixLen = req.prefixLen ∧ (translate req).seqLen =
      req.seqLen) {fullBlocks swaBlocks : List (List ℕ)}
    (fullLens : Forall₂ (fun block req => block.length = req.numNewPages pageSize) fullBlocks reqs)
    (swaLens : Forall₂ (fun block req => block.length = req.numNewPages pageSize) swaBlocks
      (reqs.map translate)) {pair : ℕ × ℕ}
    (member : pair ∈ (zipWith (extendSlots pageSize) fullBlocks reqs).flatten.zip
      (zipWith (extendSlots pageSize) swaBlocks (reqs.map translate)).flatten) :
    ∃ req ∈ reqs, ∃ fullBlock swaBlock : List ℕ, fullBlock.length = req.numNewPages pageSize ∧
      swaBlock.length = req.numNewPages pageSize ∧
      fullBlock.zip swaBlock ⊆ fullBlocks.flatten.zip swaBlocks.flatten ∧
      ∃ k < req.seqLen - req.prefixLen, pair = (extendSlot pageSize fullBlock req k,
          extendSlot pageSize swaBlock (translate req) k) := by
  induction reqs generalizing fullBlocks swaBlocks with
  | nil =>
    rw [zipWith_nil_right, flatten_nil] at member
    exact absurd member not_mem_nil
  | cons req rest ih =>
    cases fullLens with
    | cons fullLen fullLens =>
      rename_i fullBlock fullBlocks
      cases swaLens with
      | cons swaLen swaLens =>
        rename_i swaBlock swaBlocks
        have swaLen : swaBlock.length = req.numNewPages pageSize := by
          rw [swaLen]
          unfold ExtendReq.numNewPages
          rw [(sameLens req).1, (sameLens req).2]
        have rowLens : (extendSlots pageSize fullBlock req).length =
            (extendSlots pageSize swaBlock (translate req)).length := by
          unfold extendSlots
          rw [length_map, length_map, length_range, length_range,
            (sameLens req).1, (sameLens req).2]
        rw [map_cons, zipWith_cons_cons, zipWith_cons_cons, flatten_cons,
          flatten_cons, zip_append rowLens] at member
        rw [flatten_cons, flatten_cons, zip_append (fullLen.trans swaLen.symm)]
        obtain here | later := mem_append.mp member
        · refine ⟨req, mem_cons_self, fullBlock, swaBlock, fullLen, swaLen,
            subset_append_left _ _, ?_⟩
          unfold extendSlots at here
          rw [(sameLens req).1, (sameLens req).2, zip_map'] at here
          obtain ⟨k, bound, same⟩ := mem_map.mp here
          exact ⟨k, mem_range.mp bound, same.symm⟩
        · obtain ⟨found, foundMem, left, right, leftLen, rightLen, inside, entry⟩ :=
            ih fullLens swaLens later
          exact ⟨found, mem_cons_of_mem _ foundMem, left, right, leftLen, rightLen,
            Subset.trans inside (subset_append_right _ _), entry⟩

/-- Behind a slot that is not the last one of its page, the page goes on. -/
theorem slot_add_of_lt {index k : ℕ} (inside : index % pageSize + k < pageSize) :
    (index + k) / pageSize = index / pageSize ∧ (index + k) % pageSize = index % pageSize + k := by
  have position : index + k = index / pageSize * pageSize + (index % pageSize + k) := by
    rw [← add_assoc, Nat.div_add_mod']
  rw [position, slot_div inside, slot_mod inside]
  exact ⟨rfl, rfl⟩

variable {req : ExtendReq}

/-- Both slots of a new token have one offset, and their pages are peers
already or stand at the same place in the two blocks of new pages. -/
theorem extendSlot_pair {mapping : ℕ → ℕ} (positive : 0 < pageSize)
    (offset : ∀ index, mapping index ≠ 0 → mapping index % pageSize = index % pageSize)
    {swaReq : ExtendReq} (samePrefix : swaReq.prefixLen = req.prefixLen)
    (continues : req.prefixLen % pageSize ≠ 0 → ∃ index : ℕ, req.lastLoc = index ∧ swaReq.lastLoc =
      mapping index ∧ mapping index ≠ 0 ∧ (index + 1) % pageSize = req.prefixLen % pageSize)
    {fullBlock swaBlock : List ℕ} (fullLen : fullBlock.length = req.numNewPages pageSize)
    (swaLen : swaBlock.length = req.numNewPages pageSize) {k : ℕ}
    (bound : k < req.seqLen - req.prefixLen) : extendSlot pageSize swaBlock swaReq k % pageSize =
        extendSlot pageSize fullBlock req k % pageSize ∧
      (Peers pageSize mapping (extendSlot pageSize fullBlock req k / pageSize)
          (extendSlot pageSize swaBlock swaReq k / pageSize) ∨
        (extendSlot pageSize fullBlock req k / pageSize,
          extendSlot pageSize swaBlock swaReq k / pageSize) ∈ fullBlock.zip swaBlock) := by
  unfold extendSlot
  rw [samePrefix]
  split
  next inside =>
    have partialPage : req.prefixLen % pageSize ≠ 0 := by
      intro aligned
      have := (pageCount_mul_of_dvd positive (Nat.dvd_of_mod_eq_zero aligned)).le
      omega
    obtain ⟨index, loc, swaLoc, live, position⟩ := continues partialPage
    have indexSmall := Nat.mod_lt index positive
    have step : index % pageSize + 1 = req.prefixLen % pageSize := by
      by_cases last : index % pageSize + 1 = pageSize
      · rw [← Nat.mod_add_mod, last, Nat.mod_self] at position
        exact absurd position.symm partialPage
      · rwa [← Nat.mod_add_mod, Nat.mod_eq_of_lt (by omega)] at position
    have room : req.prefixLen % pageSize + k < pageSize := by
      rw [pageCount_of_mod_pos positive (pos_of_ne_zero partialPage), Nat.succ_mul] at inside
      have := Nat.div_add_mod' req.prefixLen pageSize
      omega
    have fullSlot : (req.lastLoc + 1).toNat + k = index + (1 + k) := by omega
    have swaSlot : (swaReq.lastLoc + 1).toNat + k = mapping index + (1 + k) := by omega
    have fullPage := slot_add_of_lt (by omega : index % pageSize + (1 + k) < pageSize)
    have swaPage : (mapping index + (1 + k)) / pageSize = mapping index / pageSize ∧
        (mapping index + (1 + k)) % pageSize = mapping index % pageSize + (1 + k) :=
      slot_add_of_lt (by rw [offset index live]; omega)
    rw [fullSlot, swaSlot, fullPage.1, fullPage.2, swaPage.1, swaPage.2, offset index live]
    exact ⟨rfl, .inl (Peers.of_ne_zero pageSize live)⟩
  next past =>
    have small := Nat.mod_lt (req.prefixLen + k) positive
    have low := (pageCount_le_div_iff positive).mpr (not_lt.mp past)
    have high : (req.prefixLen + k) / pageSize < pageCount pageSize req.seqLen :=
      div_lt_pageCount positive (by omega)
    have index : (req.prefixLen + k) / pageSize - pageCount pageSize req.prefixLen <
        req.numNewPages pageSize := by
      unfold ExtendReq.numNewPages
      omega
    rw [slot_mod small, slot_mod small, slot_div small, slot_div small]
    exact ⟨rfl, .inr (getD_mem_zip (by omega) (by omega))⟩

section Allocation

variable {pageSize : ℕ} {full swa nextFull nextSwa : PoolAllocator} {mapping : ℕ → ℕ}
  {pendingFree pendingFull pendingSwa : List ℕ}

section

variable (paired : Paired pageSize full swa mapping pendingFree pendingFull pendingSwa)
include paired

/-- Written entries continue paired pages or pair pages just taken. -/
theorem Paired.record {fullPages swaPages left : List ℕ} (tookFull : full.Took nextFull fullPages)
    (tookSwa : swa.Took nextSwa swaPages) (fresh : left.Sublist fullPages) {writes : List (ℕ × ℕ)}
    (entries : ∀ index value, (index, value) ∈ writes → value % pageSize = index % pageSize ∧
      (Peers pageSize mapping (index / pageSize) (value / pageSize) ∨
        (index / pageSize, value / pageSize) ∈ left.zip swaPages)) :
    Paired pageSize nextFull nextSwa (scatter mapping writes) pendingFree pendingFull
      pendingSwa := by
  refine paired.grow tookFull tookSwa
    (biUnique_zip ((tookFull.nodup paired.fullSound).sublist fresh) (tookSwa.nodup paired.swaSound))
    (fun _ _ member => (of_mem_zip member).imp_left (fresh.subset ·)) fun index live => ?_
  obtain ⟨-, kept⟩ | written := scatter_cases mapping _ index
  · rw [kept] at live ⊢
    exact ⟨paired.offset index live, .inl (Peers.of_ne_zero pageSize live)⟩
  · exact entries index _ written

/-- Extending sequences on both sides keeps the pairing, provided every partial
page that is continued has a live peer. -/
theorem Paired.extend
    (sameLens : ∀ req, (translate req).prefixLen = req.prefixLen ∧ (translate req).seqLen =
      req.seqLen)
    (continues : ∀ req ∈ reqs, req.prefixLen % pageSize ≠ 0 → ∃ index : ℕ, req.lastLoc = index ∧
      (translate req).lastLoc = mapping index ∧ mapping index ≠ 0 ∧ (index + 1) % pageSize =
      req.prefixLen % pageSize) {fullBlocks swaBlocks : List (List ℕ)}
    (tookFull : full.Took nextFull fullBlocks.flatten)
    (tookSwa : swa.Took nextSwa swaBlocks.flatten)
    (fullLens : Forall₂ (fun block req => block.length = req.numNewPages pageSize) fullBlocks reqs)
    (swaLens : Forall₂ (fun block req => block.length = req.numNewPages pageSize) swaBlocks
      (reqs.map translate)) : Paired pageSize nextFull nextSwa
      (scatter mapping ((zipWith (extendSlots pageSize) fullBlocks reqs).flatten.zip
        (zipWith (extendSlots pageSize) swaBlocks (reqs.map translate)).flatten))
      pendingFree pendingFull pendingSwa := by
  refine paired.record tookFull tookSwa (Sublist.refl _) fun index value written => ?_
  obtain ⟨req, member, fullBlock, swaBlock, fullLen, swaLen, inside, k, bound, entry⟩ :=
    mem_zip_rows sameLens fullLens swaLens written
  obtain ⟨rfl, rfl⟩ := Prod.mk.inj entry
  have pair := extendSlot_pair paired.positive paired.offset (sameLens req).1
    (continues req member) fullLen swaLen bound
  exact ⟨pair.1, pair.2.imp_right fun fresh => inside fresh⟩

/-- Tokens that leave the two pools together are paired one by one. -/
theorem Paired.pairTokens (single : pageSize = 1) {fullPages swaPages : List ℕ}
    (tookFull : full.Took nextFull fullPages) (tookSwa : swa.Took nextSwa swaPages) :
    Paired pageSize nextFull nextSwa (scatter mapping (fullPages.zip swaPages))
      pendingFree pendingFull pendingSwa := by
  subst single
  refine paired.record tookFull tookSwa (Sublist.refl _) fun index value written => ?_
  rw [Nat.mod_one, Nat.mod_one, Nat.div_one, Nat.div_one]
  exact ⟨rfl, .inr written⟩

end

/-- The slots of the last tokens of a sequence. -/
theorem drop_extendSlots {pages : List ℕ} {tailLen : ℕ}
    (fits : tailLen ≤ req.seqLen - req.prefixLen) :
    (extendSlots pageSize pages req).drop ((extendSlots pageSize pages req).length - tailLen) =
      (range tailLen).map fun k =>
        extendSlot pageSize pages req (req.seqLen - req.prefixLen - tailLen + k) := by
  have count : req.seqLen - req.prefixLen = req.seqLen - req.prefixLen - tailLen + tailLen := by
    omega
  unfold extendSlots
  rw [length_map, length_range, count, range_add, map_append,
    drop_left' (by rw [length_map, length_range]; omega), map_map]
  exact map_congr_left fun k _ => by rw [comp_apply, Nat.add_sub_cancel]

/-- Extending one sequence and giving peers only to a tail that starts on a page
boundary keeps the pairing, whatever entries are cleared besides. -/
theorem Paired.extendTail
    (paired : Paired pageSize full swa mapping pendingFree pendingFull pendingSwa) {swaTailLen : ℕ}
    (grows : req.prefixLen ≤ req.seqLen) (fits : swaTailLen ≤ req.seqLen - req.prefixLen)
    (aligned : (req.seqLen - swaTailLen) % pageSize = 0) {fullBlock swaBlock : List ℕ}
    (tookFull : full.Took nextFull fullBlock) (tookSwa : swa.Took nextSwa swaBlock)
    (fullLen : fullBlock.length = req.numNewPages pageSize)
    (swaLen : swaBlock.length = pageCount pageSize swaTailLen) (cleared : List ℕ) :
    Paired pageSize nextFull nextSwa
      (fun index => if index ∈ cleared then 0 else
        scatter mapping (((extendSlots pageSize fullBlock req).drop
            ((extendSlots pageSize fullBlock req).length - swaTailLen)).zip
          (extendSlots pageSize swaBlock ⟨0, swaTailLen, -1⟩)) index)
      pendingFree pendingFull pendingSwa := by
  have positive := paired.positive
  rw [drop_extendSlots fits]
  obtain ⟨pages, boundary⟩ := Nat.dvd_of_mod_eq_zero aligned
  rw [mul_comm] at boundary
  have behind : pageCount pageSize req.prefixLen ≤ pages := by
    rw [pageCount_le_iff positive]
    omega
  refine (paired.record tookFull tookSwa
    (drop_sublist (pages - pageCount pageSize req.prefixLen) fullBlock)
    fun index value written => ?_).clear cleared
  change _ ∈ zip _ ((range swaTailLen).map _) at written
  rw [zip_map'] at written
  obtain ⟨k, bound, same⟩ := mem_map.mp written
  obtain ⟨slot, swaSlot⟩ := Prod.mk.inj same
  have small := Nat.mod_lt k positive
  have inTail := mem_range.mp bound
  have position : req.seqLen - req.prefixLen - swaTailLen + k =
      pageCount pageSize req.prefixLen * pageSize - req.prefixLen +
        ((pages - pageCount pageSize req.prefixLen) * pageSize + k) := by
    have covered := le_pageCount_mul positive req.prefixLen
    have whole := Nat.mul_le_mul_right pageSize behind
    rw [Nat.sub_mul]
    omega
  rw [position, extendSlot_new_page positive, Nat.mul_add_mod_self_right,
    add_comm _ k, Nat.add_mul_div_right _ _ positive] at slot
  have first := extendSlot_new_page positive swaBlock ⟨0, swaTailLen, -1⟩ k
  rw [pageCount_zero positive, zero_mul, Nat.zero_sub, zero_add, swaSlot] at first
  rw [first, ← slot, slot_mod small, slot_mod small, slot_div small, slot_div small]
  have shifted : fullBlock.getD (k / pageSize + (pages - pageCount pageSize req.prefixLen)) 0 =
      (fullBlock.drop (pages - pageCount pageSize req.prefixLen)).getD (k / pageSize) 0 := by
    simp [add_comm]
  rw [shifted]
  have inBlock : pages + k / pageSize < pageCount pageSize req.seqLen := by
    rw [lt_pageCount_iff positive, Nat.add_mul]
    have := Nat.div_mul_le_self k pageSize
    omega
  refine ⟨rfl, .inr (getD_mem_zip ?_ (swaLen ▸ div_lt_pageCount positive inTail))⟩
  rw [length_drop, fullLen]
  unfold ExtendReq.numNewPages
  omega

end Allocation

/-! ## Callers -/

/-- The calls that move pages or entries. -/
inductive SwaCall where
  | alloc (needSize : ℕ)
  | allocExtend (reqs : List ExtendReq)
  | allocExtendSwaTail (req : ExtendReq) (swaTailLen : ℕ)
  | allocDecode (reqs : List DecodeReq)
  | free (freeIndex : List ℕ)
  | freeSwa (freeIndex : List ℕ)
  | freeFull (freeIndex : List ℕ)
  | freeGroupBegin
  | freeGroupEnd

namespace SwaTokenToKVPoolAllocator

variable (allocator : SwaTokenToKVPoolAllocator)

/-- The allocator after a call that passes its assertions. -/
def exec : SwaCall → Option SwaTokenToKVPoolAllocator
  | .alloc needSize => (allocator.alloc needSize).map Prod.snd
  | .allocExtend reqs => (allocator.allocExtend reqs).map Prod.snd
  | .allocExtendSwaTail req swaTailLen => (allocator.allocExtendSwaTail req swaTailLen).map Prod.snd
  | .allocDecode reqs => (allocator.allocDecode reqs).map Prod.snd
  | .free freeIndex => allocator.free freeIndex
  | .freeSwa freeIndex => some (allocator.freeSwa freeIndex)
  | .freeFull freeIndex => allocator.freeFull freeIndex
  | .freeGroupBegin => some allocator.freeGroupBegin
  | .freeGroupEnd => allocator.freeGroupEnd

/-- The full slots whose release waits for the end of the group. -/
def pendingIndices : List ℕ :=
  (allocator.freeGroup.getD []).flatten ++ allocator.fullFreeGroup.flatten

/-- A slot in the callers' hands: its page is in the full pool, not on its free
lists, and no release of it is waiting. -/
def Owned (index : ℕ) : Prop :=
  (1 ≤ index / allocator.pageSize ∧
      index / allocator.pageSize ≤ allocator.fullAttnAllocator.numPages) ∧
    index / allocator.pageSize ∉ allocator.fullAttnAllocator.freePages ++
      allocator.fullAttnAllocator.releasePages ∧
    ∀ waiting ∈ allocator.pendingIndices, index / allocator.pageSize ≠ waiting / allocator.pageSize

instance (index : ℕ) : Decidable (allocator.Owned index) := inferInstanceAs (Decidable (_ ∧ _ ∧ _))

/-- A sequence grows, and behind a partially filled page it names the slot of
its last token, which the caller owns. -/
def Extends (req : ExtendReq) : Prop :=
  req.prefixLen ≤ req.seqLen ∧ (req.prefixLen % allocator.pageSize ≠ 0 → 0 ≤ req.lastLoc ∧
      (req.lastLoc.toNat + 1) % allocator.pageSize = req.prefixLen % allocator.pageSize ∧
      allocator.Owned req.lastLoc.toNat)

instance (req : ExtendReq) : Decidable (allocator.Extends req) :=
  inferInstanceAs (Decidable (_ ∧ _))

/-- What callers promise: they release slots they own, each once, the full side
alone only for pages without entries, and the tail of an allocation starts on a
page boundary. -/
def Permitted : SwaCall → Prop
  | .alloc _ => True
  | .allocExtend reqs => ∀ req ∈ reqs, allocator.Extends req
  | .allocExtendSwaTail req swaTailLen => allocator.Extends req ∧
      (swaTailLen ≠ 0 → (req.seqLen - swaTailLen) % allocator.pageSize = 0)
  | .allocDecode reqs => ∀ req ∈ reqs, 0 < req.seqLen ∧ allocator.Extends req.toExtendReq
  | .free freeIndex => freeIndex.Nodup ∧ ∀ index ∈ freeIndex, allocator.Owned index
  | .freeSwa freeIndex => freeIndex.Nodup ∧ ∀ index ∈ freeIndex, allocator.Owned index
  | .freeFull freeIndex => freeIndex.Nodup ∧ (∀ index ∈ freeIndex, allocator.Owned index) ∧
      ∀ index ∈ expandToFullPages allocator.pageSize freeIndex,
        allocator.fullToSwaIndexMapping index = 0
  | .freeGroupBegin => True
  | .freeGroupEnd => True

instance : (call : SwaCall) → Decidable (allocator.Permitted call)
  | .alloc _ => inferInstanceAs (Decidable True)
  | .allocExtend reqs => inferInstanceAs (Decidable (∀ req ∈ reqs, allocator.Extends req))
  | .allocExtendSwaTail _ _ => inferInstanceAs (Decidable (_ ∧ _))
  | .allocDecode reqs => inferInstanceAs
      (Decidable (∀ req ∈ reqs, 0 < req.seqLen ∧ allocator.Extends req.toExtendReq))
  | .free freeIndex => inferInstanceAs
      (Decidable (freeIndex.Nodup ∧ ∀ index ∈ freeIndex, allocator.Owned index))
  | .freeSwa freeIndex => inferInstanceAs
      (Decidable (freeIndex.Nodup ∧ ∀ index ∈ freeIndex, allocator.Owned index))
  | .freeFull _ => inferInstanceAs (Decidable (_ ∧ _ ∧ _))
  | .freeGroupBegin => inferInstanceAs (Decidable True)
  | .freeGroupEnd => inferInstanceAs (Decidable True)

/-- The peer of the last token is live whenever its page is continued. -/
def PeerLive (req : ExtendReq) : Prop :=
  req.prefixLen % allocator.pageSize ≠ 0 → allocator.fullToSwaIndexMapping req.lastLoc.toNat ≠ 0

instance (req : ExtendReq) : Decidable (allocator.PeerLive req) :=
  inferInstanceAs (Decidable (_ → _))

/-- The further promise: a partially filled page is continued on both sides only
while the sliding-window side has it. -/
def ContinuesLivePages : SwaCall → Prop
  | .allocExtend reqs => ∀ req ∈ reqs, allocator.PeerLive req
  | .allocDecode reqs => ∀ req ∈ reqs, allocator.PeerLive req.toExtendReq
  | _ => True

instance : (call : SwaCall) → Decidable (allocator.ContinuesLivePages call)
  | .allocExtend reqs => inferInstanceAs (Decidable (∀ req ∈ reqs, allocator.PeerLive req))
  | .allocDecode reqs => inferInstanceAs
      (Decidable (∀ req ∈ reqs, allocator.PeerLive req.toExtendReq))
  | .alloc _ | .allocExtendSwaTail _ _ | .free _ | .freeSwa _ | .freeFull _
  | .freeGroupBegin | .freeGroupEnd => inferInstanceAs (Decidable True)

/-! ## The invariant of the allocator -/

/-- The table is a pairing of pages, and slots wait only inside a group. -/
structure Consistent (allocator : SwaTokenToKVPoolAllocator) : Prop where
  paired : Paired allocator.pageSize allocator.fullAttnAllocator allocator.swaAttnAllocator
    allocator.fullToSwaIndexMapping (allocator.freeGroup.getD []).flatten
    allocator.fullFreeGroup.flatten allocator.swaFreeGroup.flatten
  idle : allocator.freeGroup = none → allocator.fullFreeGroup = [] ∧ allocator.swaFreeGroup = []

variable {allocator : SwaTokenToKVPoolAllocator}

/-- A cleared allocator is consistent. -/
theorem consistent_clear (sizeFull sizeSwa : ℕ) (needSort : Bool) (positive : 0 < pageSize) :
    Consistent (clear sizeFull sizeSwa pageSize needSort) where
  paired :=
    have none : ∀ fullPage swaPage, ¬ Peers pageSize (fun _ => 0) fullPage swaPage :=
      fun _ _ ⟨_, live, _⟩ => live rfl
    { positive := positive
      fullPageSize := rfl
      swaPageSize := rfl
      fullUngrouped := rfl
      swaUngrouped := rfl
      fullSound := PoolAllocator.sound_clear ..
      swaSound := PoolAllocator.sound_clear ..
      offset := fun _ live => absurd rfl live
      unique := ⟨fun _ _ _ peers => absurd peers (none _ _),
        fun _ _ _ peers => absurd peers (none _ _)⟩
      fullPeer := fun _ _ peers => absurd peers (none _ _)
      swaPeer := fun _ _ peers => absurd peers (none _ _)
      freeTaken := forall_mem_nil _
      freeNodup := nodup_nil
      fullTaken := forall_mem_nil _
      fullNodup := nodup_nil
      fullReleased := forall_mem_nil _
      pendingDisjoint := forall_mem_nil _
      swaTaken := forall_mem_nil _
      swaNodup := nodup_nil
      swaReleased := forall_mem_nil _ }
  idle := fun _ => ⟨rfl, rfl⟩

variable {next : SwaTokenToKVPoolAllocator} {freeIndex : List ℕ} {answer : Option (List ℕ)}
  {index : ℕ}

/-- An owned slot is in the callers' hands. -/
theorem Owned.taken (owned : allocator.Owned index) :
    allocator.fullAttnAllocator.Taken (index / allocator.pageSize) :=
  ⟨owned.1, fun held => owned.2.1 (mem_append.mpr (Multiset.mem_add.mp held))⟩

/-- An owned page does not wait to be freed. -/
theorem Owned.not_pending {waiting : ℕ} (owned : allocator.Owned index)
    (member : waiting ∈ allocator.pendingIndices) :
    index / allocator.pageSize ≠ waiting / allocator.pageSize :=
  owned.2.2 waiting member

variable (consistent : Consistent allocator)

include consistent in
/-- Tokens are paired as they come out of the two pools. -/
theorem Consistent.alloc {needSize : ℕ}
    (called : allocator.alloc needSize = some (answer, next)) : Consistent next := by
  unfold SwaTokenToKVPoolAllocator.alloc at called
  split at called
  · cases called
  next single =>
    split at called
    · cases called
      exact consistent
    split at called
    · cases called
      exact consistent
    split at called
    next _ _ fullIndices full swaIndices swa fullEq swaEq =>
      cases called
      have fullOutcome := allocator.fullAttnAllocator.tokenAlloc_outcome needSize
      have swaOutcome := allocator.swaAttnAllocator.tokenAlloc_outcome needSize
      rw [fullEq] at fullOutcome
      rw [swaEq] at swaOutcome
      cases fullOutcome with
      | took fullPages tookFull _ =>
        cases swaOutcome with
        | took swaPages tookSwa _ =>
          exact ⟨consistent.paired.pairTokens (not_not.mp single) tookFull tookSwa, consistent.idle⟩
    · cases called

/-- The lengths are those of the request. -/
theorem swaReq_lens (allocator : SwaTokenToKVPoolAllocator) (req : ExtendReq) :
    (allocator.swaReq req).prefixLen = req.prefixLen ∧ (allocator.swaReq req).seqLen = req.seqLen :=
  ⟨rfl, rfl⟩

/-- A sequence that continues a page continues it behind a live peer. -/
theorem continues_of_live (extended : allocator.Extends req) (live : allocator.PeerLive req)
    (partialPage : req.prefixLen % allocator.pageSize ≠ 0) : ∃ index : ℕ, req.lastLoc = index ∧
      (allocator.swaReq req).lastLoc = allocator.fullToSwaIndexMapping index ∧
      allocator.fullToSwaIndexMapping index ≠ 0 ∧
      (index + 1) % allocator.pageSize = req.prefixLen % allocator.pageSize := by
  obtain ⟨nonneg, position, -⟩ := extended.2 partialPage
  refine ⟨req.lastLoc.toNat, (Int.toNat_of_nonneg nonneg).symm, ?_, live partialPage, position⟩
  exact if_neg (not_lt.mpr nonneg)

section

include consistent

/-- An extension keeps it. -/
theorem Consistent.allocExtend (permitted : ∀ req ∈ reqs, allocator.Extends req)
    (live : ∀ req ∈ reqs, allocator.PeerLive req)
    (called : allocator.allocExtend reqs = some (answer, next)) : Consistent next := by
  have paired := consistent.paired
  unfold SwaTokenToKVPoolAllocator.allocExtend at called
  dsimp only at called
  split at called
  · cases called
  split at called
  · cases called
    exact consistent
  split at called
  next _ _ fullIndices full swaIndices swa fullEq swaEq =>
    cases called
    have grows : ∀ req ∈ reqs, req.prefixLen ≤ req.seqLen := fun req member =>
      (permitted req member).1
    have swaGrows : ∀ req ∈ reqs.map allocator.swaReq, req.prefixLen ≤ req.seqLen := by
      intro swaReq member
      obtain ⟨req, reqMember, rfl⟩ := mem_map.mp member
      exact grows req reqMember
    have fullOutcome := PoolAllocator.allocExtend_outcome
      (paired.positive.trans_eq paired.fullPageSize.symm) grows
    have swaOutcome := PoolAllocator.allocExtend_outcome
      (paired.positive.trans_eq paired.swaPageSize.symm) swaGrows
    rw [fullEq] at fullOutcome
    rw [swaEq] at swaOutcome
    cases fullOutcome with
    | took fullBlocks tookFull fullLens =>
      cases swaOutcome with
      | took swaBlocks tookSwa swaLens =>
        rw [paired.fullPageSize] at fullLens
        rw [paired.swaPageSize] at swaLens
        rw [paired.fullPageSize, paired.swaPageSize]
        exact ⟨paired.extend allocator.swaReq_lens
          (fun req member => continues_of_live (permitted req member) (live req member))
          tookFull tookSwa fullLens swaLens, consistent.idle⟩
  · cases called

/-- So does one with a window tail. -/
theorem Consistent.allocExtendSwaTail {swaTailLen : ℕ} (permitted : allocator.Extends req)
    (boundary : swaTailLen ≠ 0 → (req.seqLen - swaTailLen) % allocator.pageSize = 0)
    (called : allocator.allocExtendSwaTail req swaTailLen = some (answer, next)) :
    Consistent next := by
  have paired := consistent.paired
  unfold SwaTokenToKVPoolAllocator.allocExtendSwaTail at called
  dsimp only at called
  split at called
  · cases called
  next asserted =>
    obtain ⟨-, fits⟩ := not_or.mp asserted
    split at called
    · cases called
      exact consistent
    split at called
    · cases called
    next _ _ fullRows full fullEq =>
      have fullOutcome := PoolAllocator.allocExtend_one
        (paired.positive.trans_eq paired.fullPageSize.symm) permitted.1 fullEq
      obtain ⟨fullBlock, tookFull, fullLen, rfl⟩ := fullOutcome
      rw [paired.fullPageSize] at fullLen called
      split at called
      · cases called
        exact ⟨paired.take tookFull (PoolAllocator.refused_refl _).took fun _ _ => rfl,
          consistent.idle⟩
      next nonzero =>
        split at called
        · cases called
        next _ _ swaRows swa swaEq =>
          obtain ⟨swaBlock, tookSwa, swaLen, rfl⟩ := PoolAllocator.allocExtend_one
            (paired.positive.trans_eq paired.swaPageSize.symm) (Nat.zero_le _) swaEq
          rw [paired.swaPageSize] at swaLen called
          have swaCount : swaBlock.length = pageCount allocator.pageSize swaTailLen := by
            rw [swaLen]
            unfold ExtendReq.numNewPages
            rw [pageCount_zero paired.positive, Nat.sub_zero]
          have extended (cleared : List ℕ) := paired.extendTail permitted.1 (not_lt.mp fits)
            (boundary nonzero) tookFull tookSwa fullLen swaCount cleared
          cases called
          rw [flatten_cons, flatten_nil, append_nil, flatten_cons, flatten_nil, append_nil]
          split
          · exact ⟨extended _, consistent.idle⟩
          · have kept := extended []
            exact ⟨kept, consistent.idle⟩

end

/-- A decode step is an extension on both sides. -/
theorem map_swaDecodeReq (allocator : SwaTokenToKVPoolAllocator) (reqs : List DecodeReq) :
    (reqs.map allocator.swaDecodeReq).map DecodeReq.toExtendReq =
      (reqs.map DecodeReq.toExtendReq).map allocator.swaReq := by
  rw [map_map, map_map]
  rfl

include consistent in
/-- A decode step keeps it. -/
theorem Consistent.allocDecode {reqs : List DecodeReq}
    (permitted : ∀ req ∈ reqs, 0 < req.seqLen ∧ allocator.Extends req.toExtendReq)
    (live : ∀ req ∈ reqs, allocator.PeerLive req.toExtendReq)
    (called : allocator.allocDecode reqs = some (answer, next)) : Consistent next := by
  have paired := consistent.paired
  unfold SwaTokenToKVPoolAllocator.allocDecode at called
  dsimp only at called
  split at called
  · cases called
  next large =>
    have fullOutcome := PoolAllocator.allocDecode_outcome
      ((not_le.mp large).trans_eq paired.fullPageSize.symm)
      fun req member => (permitted req member).1
    have swaNonempty : ∀ req ∈ reqs.map allocator.swaDecodeReq, 0 < req.seqLen :=
      forall_mem_map.mpr fun req member => (permitted req member).1
    have swaOutcome := PoolAllocator.allocDecode_outcome
      ((not_le.mp large).trans_eq paired.swaPageSize.symm) swaNonempty
    rw [map_swaDecodeReq] at swaOutcome
    split at called
    next fullIndices swaIndices fullEq swaEq =>
      cases called
      rw [fullEq, Option.map_some] at fullOutcome
      rw [swaEq, Option.map_some] at swaOutcome
      generalize fullRows : fullIndices.map (fun slot => [slot]) = rows at fullOutcome
      generalize swaRows : swaIndices.map (fun slot => [slot]) = rows at swaOutcome
      cases fullOutcome with
      | took fullBlocks tookFull fullLens =>
        cases swaOutcome with
        | took swaBlocks tookSwa swaLens =>
          rw [paired.fullPageSize] at fullLens fullRows
          rw [paired.swaPageSize] at swaLens swaRows
          have extended := paired.extend allocator.swaReq_lens
            (forall_mem_map.mpr fun req member =>
              continues_of_live (permitted req member).2 (live req member))
            tookFull tookSwa fullLens swaLens
          rw [← fullRows, ← swaRows, ← flatMap_def, ← flatMap_def,
            flatMap_singleton', flatMap_singleton'] at extended
          exact ⟨extended, consistent.idle⟩
    · cases called
      obtain ⟨_, tookFull⟩ := fullOutcome.exists_took
      obtain ⟨_, tookSwa⟩ := swaOutcome.exists_took
      exact ⟨paired.take tookFull tookSwa fun _ _ => rfl, consistent.idle⟩

/-- The indices of the freed pages. -/
theorem mem_mappingIndices (positive : 0 < allocator.pageSize) :
    index ∈ allocator.mappingIndices freeIndex ↔
      ∃ freed ∈ freeIndex, freed / allocator.pageSize = index / allocator.pageSize := by
  unfold mappingIndices
  split
  next single => simp only [single, Nat.div_one, exists_eq_right]
  · rw [mem_expandToFullPages positive, mem_uniquePages]

/-- They are listed once. -/
theorem nodup_mappingIndices (allocator : SwaTokenToKVPoolAllocator) (nodup : freeIndex.Nodup) :
    (allocator.mappingIndices freeIndex).Nodup := by
  unfold mappingIndices
  split
  · exact nodup
  · exact nodup_expandToFullPages _

/-- They are whole pages. -/
theorem mappingIndices_closed (positive : 0 < allocator.pageSize) (freeIndex : List ℕ) :
    ∀ left ∈ allocator.mappingIndices freeIndex, ∀ right,
      left / allocator.pageSize = right / allocator.pageSize →
        right ∈ allocator.mappingIndices freeIndex := by
  intro left member right same
  obtain ⟨freed, inside, page⟩ := (mem_mappingIndices positive).mp member
  exact (mem_mappingIndices positive).mpr ⟨freed, inside, page.trans same⟩

variable (nodup : freeIndex.Nodup)

include consistent nodup in
/-- Freeing the window part keeps it. -/
theorem Consistent.freeSwa : Consistent (allocator.freeSwa freeIndex) := by
  have paired := consistent.paired
  have indicesNodup := nodup_mappingIndices allocator nodup
  have closed := mappingIndices_closed paired.positive freeIndex
  unfold SwaTokenToKVPoolAllocator.freeSwa
  split
  · exact consistent
  split
  next group grouped =>
    have detached := paired.detach indicesNodup closed
    refine ⟨?_, fun idle => absurd (grouped.symm.trans idle) (Option.some_ne_none group)⟩
    rw [flatten_append, flatten_cons, flatten_nil, append_nil]
    exact detached
  next ungrouped =>
    have detached := paired.forget.detach indicesNodup closed
    have returned := PoolAllocator.returned_freeIndices paired.swaUngrouped detached.swaNodup
    rw [paired.swaPageSize] at returned
    exact ⟨paired.releaseSwa indicesNodup closed returned, consistent.idle⟩

/-- Outside a group, a free returns the pages of its slots and the peers of
their entries, and leaves what still waits. -/
theorem paired_free {pendingFull pendingSwa : List ℕ}
    (called : allocator.free freeIndex = some next)
    (paired : Paired allocator.pageSize allocator.fullAttnAllocator allocator.swaAttnAllocator
      allocator.fullToSwaIndexMapping [] pendingFull pendingSwa)
    (ungrouped : allocator.freeGroup = none) (nodup : freeIndex.Nodup)
    (taken : ∀ index ∈ freeIndex, allocator.fullAttnAllocator.Taken (index / allocator.pageSize))
    (notFull : ∀ left ∈ pendingFull, ∀ right ∈ freeIndex,
      left / allocator.pageSize ≠ right / allocator.pageSize) :
    Paired allocator.pageSize next.fullAttnAllocator next.swaAttnAllocator
        next.fullToSwaIndexMapping [] pendingFull pendingSwa ∧
      next.pageSize = allocator.pageSize ∧ next.freeGroup = none ∧
      next.fullFreeGroup = allocator.fullFreeGroup ∧
      next.swaFreeGroup = allocator.swaFreeGroup := by
  unfold SwaTokenToKVPoolAllocator.free at called
  split at called
  · cases called
    exact ⟨paired, rfl, ungrouped, rfl, rfl⟩
  next nonempty =>
    rw [ungrouped] at called
    dsimp only at called
    split at called
    · cases called
      have indicesNodup := nodup_mappingIndices allocator nodup
      have closed := mappingIndices_closed paired.positive freeIndex
      have detached := paired.forget.detach indicesNodup closed
      have returnedSwa := PoolAllocator.returned_freeIndices paired.swaUngrouped detached.swaNodup
      have returnedFull := PoolAllocator.returned_freeIndices paired.fullUngrouped nodup
      rw [paired.swaPageSize] at returnedSwa
      rw [paired.fullPageSize] at returnedFull
      have swaSide := paired.releaseSwa indicesNodup closed returnedSwa
      have released : ∀ index ∈ freeIndex, ∀ swaPage, ¬ Peers allocator.pageSize
            (fun index => if index ∈ allocator.mappingIndices freeIndex then 0
              else allocator.fullToSwaIndexMapping index)
            (index / allocator.pageSize) swaPage := by
        rintro index inside swaPage ⟨other, live, page, -⟩
        exact live (if_pos ((mem_mappingIndices paired.positive).mpr ⟨index, inside, page.symm⟩))
      have bothSides := swaSide.returnFull taken released
        (forall_mem_nil _) notFull returnedFull
      unfold SwaTokenToKVPoolAllocator.freeSwa
      rw [if_neg nonempty]
      exact ⟨bothSides, rfl, rfl, rfl, rfl⟩
    · cases called

variable (owned : ∀ index ∈ freeIndex, allocator.Owned index)

include consistent nodup owned in
/-- So does a free. -/
theorem Consistent.free (called : allocator.free freeIndex = some next) : Consistent next := by
  cases grouped : allocator.freeGroup with
  | none =>
    obtain ⟨fullIdle, swaIdle⟩ := consistent.idle grouped
    obtain ⟨paired, pageSize, group, fullGroup, swaGroup⟩ :=
      paired_free called consistent.paired.forget grouped nodup
        (fun index inside => (owned index inside).taken)
        (forall_mem_nil _)
    rw [← pageSize] at paired
    refine ⟨?_, fun _ => ⟨fullGroup.trans fullIdle, swaGroup.trans swaIdle⟩⟩
    rw [group, fullGroup, swaGroup, fullIdle, swaIdle]
    exact paired
  | some group =>
    have paired := consistent.paired
    unfold SwaTokenToKVPoolAllocator.free at called
    rw [grouped] at called paired
    split at called
    · cases called
      exact consistent
    dsimp only at called
    split at called
    · cases called
      refine ⟨?_, fun idle => absurd idle (Option.some_ne_none _)⟩
      have deferred := paired.deferFree nodup (fun index inside => (owned index inside).taken)
        (fun left inside right waiting => (owned left inside).not_pending
          (mem_append_left _ (grouped ▸ waiting)))
        (fun left inside right waiting => (owned left inside).not_pending
          (mem_append_right _ waiting))
      change Paired _ _ _ _ (group ++ [freeIndex]).flatten _ _
      rw [flatten_append, flatten_cons, flatten_nil, append_nil]
      exact deferred
    · cases called

/-- Outside a group, the full side alone returns the pages of its slots. -/
theorem consistent_freeFull (called : allocator.freeFull freeIndex = some next)
    (consistent : Consistent allocator) (ungrouped : allocator.freeGroup = none)
    (nodup : freeIndex.Nodup)
    (taken : ∀ index ∈ freeIndex, allocator.fullAttnAllocator.Taken (index / allocator.pageSize))
    (released : ∀ index ∈ freeIndex, ∀ swaPage, ¬ Peers allocator.pageSize
      allocator.fullToSwaIndexMapping (index / allocator.pageSize) swaPage) :
    Consistent next := by
  have paired := consistent.paired
  obtain ⟨fullIdle, swaIdle⟩ := consistent.idle ungrouped
  unfold SwaTokenToKVPoolAllocator.freeFull at called
  split at called
  · cases called
    exact consistent
  rw [ungrouped] at called
  dsimp only at called
  split at called
  · cases called
    have returned := PoolAllocator.returned_freeIndices paired.fullUngrouped nodup
    rw [paired.fullPageSize] at returned
    refine ⟨?_, fun _ => ⟨fullIdle, swaIdle⟩⟩
    rw [fullIdle, swaIdle]
    exact paired.forget.returnFull taken released
      (forall_mem_nil _)
      (forall_mem_nil _) returned
  · cases called

section

variable (consistent : Consistent allocator)
include consistent

include nodup owned in
/-- So does freeing the full part alone. -/
theorem Consistent.freeFull
    (noEntry : ∀ index ∈ expandToFullPages allocator.pageSize freeIndex,
      allocator.fullToSwaIndexMapping index = 0)
    (called : allocator.freeFull freeIndex = some next) : Consistent next := by
  have paired := consistent.paired
  have released : ∀ index ∈ freeIndex, ∀ swaPage,
      ¬ Peers allocator.pageSize allocator.fullToSwaIndexMapping
        (index / allocator.pageSize) swaPage := by
    rintro index inside swaPage ⟨other, live, page, -⟩
    refine live (noEntry other ?_)
    rw [mem_expandToFullPages paired.positive, mem_uniquePages]
    exact ⟨index, inside, page.symm⟩
  cases grouped : allocator.freeGroup with
  | none =>
    exact consistent_freeFull called consistent grouped nodup
      (fun index inside => (owned index inside).taken) released
  | some group =>
    unfold SwaTokenToKVPoolAllocator.freeFull at called
    rw [grouped] at called
    split at called
    · cases called
      exact consistent
    dsimp only at called
    split at called
    · cases called
      refine ⟨?_, fun idle => absurd idle (Option.some_ne_none group)⟩
      have deferred := paired.deferFull nodup (fun index inside => (owned index inside).taken)
        released
        (fun left inside right waiting => (owned left inside).not_pending
          (mem_append_left _ waiting))
        (fun left inside right waiting => (owned left inside).not_pending
          (mem_append_right _ waiting))
      rw [flatten_append, flatten_cons, flatten_nil, append_nil, ← grouped]
      exact deferred
    · cases called

/-- So does the start of a group. -/
theorem Consistent.freeGroupBegin : Consistent allocator.freeGroupBegin :=
  ⟨consistent.paired.forget, fun _ => ⟨rfl, rfl⟩⟩

/-- So does its end. -/
theorem Consistent.freeGroupEnd
    (called : allocator.freeGroupEnd = some next) : Consistent next := by
  have paired := consistent.paired
  obtain ⟨freed, freeCalled, called⟩ := Option.bind_eq_some_iff.mp called
  have waiting : Paired allocator.pageSize allocator.fullAttnAllocator
      allocator.swaAttnAllocator allocator.fullToSwaIndexMapping []
      allocator.fullFreeGroup.flatten allocator.swaFreeGroup.flatten :=
    { paired with
      freeTaken := forall_mem_nil _
      freeNodup := nodup_nil
      pendingDisjoint := forall_mem_nil _ }
  have swapped : ∀ left ∈ allocator.fullFreeGroup.flatten,
      ∀ right ∈ (allocator.freeGroup.getD []).flatten,
      left / allocator.pageSize ≠ right / allocator.pageSize :=
    fun left leftWaiting right rightWaiting =>
      (paired.pendingDisjoint right rightWaiting left leftWaiting).symm
  obtain ⟨afterFree, pageSize, group, fullGroup, swaGroup⟩ :=
    paired_free freeCalled waiting rfl paired.freeNodup paired.freeTaken swapped
  rw [fullGroup, swaGroup] at called
  rw [← pageSize] at afterFree
  have returned := PoolAllocator.returned_freeIndices afterFree.swaUngrouped afterFree.swaNodup
  rw [afterFree.swaPageSize] at returned
  have swept := afterFree.forget.returnSwa afterFree.swaTaken afterFree.swaReleased
    (forall_mem_nil _) returned
  refine consistent_freeFull called ⟨?_, fun _ => ⟨rfl, rfl⟩⟩ group afterFree.fullNodup
    afterFree.fullTaken afterFree.fullReleased
  rw [group]
  exact swept

/-! ## Runs -/

/-- A call by a caller who respects ownership. -/
def CallerStep (allocator : SwaTokenToKVPoolAllocator) (call : SwaCall)
    (next : SwaTokenToKVPoolAllocator) : Prop :=
  allocator.Permitted call ∧ allocator.exec call = some next

/-- A call that moreover continues only pages with live peers. -/
def LiveStep (allocator : SwaTokenToKVPoolAllocator) (call : SwaCall)
    (next : SwaTokenToKVPoolAllocator) : Prop :=
  allocator.CallerStep call next ∧ allocator.ContinuesLivePages call

/-- **So does every call.** -/
theorem Consistent.step {call : SwaCall}
    (step : allocator.LiveStep call next) : Consistent next := by
  obtain ⟨⟨permitted, executed⟩, live⟩ := step
  cases call with
  | alloc needSize =>
    obtain ⟨⟨answer, state⟩, called, rfl⟩ := Option.map_eq_some_iff.mp executed
    exact consistent.alloc called
  | allocExtend reqs =>
    obtain ⟨⟨answer, state⟩, called, rfl⟩ := Option.map_eq_some_iff.mp executed
    exact consistent.allocExtend permitted live called
  | allocExtendSwaTail req swaTailLen =>
    obtain ⟨⟨answer, state⟩, called, rfl⟩ := Option.map_eq_some_iff.mp executed
    exact consistent.allocExtendSwaTail permitted.1 permitted.2 called
  | allocDecode reqs =>
    obtain ⟨⟨answer, state⟩, called, rfl⟩ := Option.map_eq_some_iff.mp executed
    exact consistent.allocDecode permitted live called
  | free freeIndex => exact consistent.free permitted.1 permitted.2 executed
  | freeSwa freeIndex =>
    cases executed
    exact consistent.freeSwa permitted.1
  | freeFull freeIndex => exact consistent.freeFull permitted.1 permitted.2.1 permitted.2.2 executed
  | freeGroupBegin =>
    cases executed
    exact consistent.freeGroupBegin
  | freeGroupEnd => exact consistent.freeGroupEnd executed

end

/-- The pages on the free lists of a pool. -/
def freeLists (pool : PoolAllocator) : List ℕ := pool.freePages ++ pool.releasePages

/-- The free lists are the held pages. -/
theorem freeLists_eq_heldPages (pool : PoolAllocator) :
    (freeLists pool : Multiset ℕ) = pool.heldPages :=
  (Multiset.coe_add _ _).symm

/-- No page is free twice. -/
theorem nodup_freeLists {pool : PoolAllocator} (sound : pool.Sound) : (freeLists pool).Nodup := by
  exact sound.nodup

/-- The padding page is never free. -/
theorem zero_not_mem_freeLists {pool : PoolAllocator} (sound : pool.Sound) :
    0 ∉ freeLists pool := by
  intro held
  exact absurd (sound.inRange 0 held).1 (by decide)

/-- In every run in which partially filled pages are continued only behind live
peers, the live entries of the table are injective, the pages of their peers are
off the sliding-window free lists, their own pages are allocated full pages, and
no free list repeats a page or holds the padding page. -/
theorem swa_pairing {sizeFull sizeSwa pageSize : ℕ} {needSort : Bool} (positive : 0 < pageSize)
    {calls : List SwaCall} {final : SwaTokenToKVPoolAllocator}
    (run : Path LiveStep (clear sizeFull sizeSwa pageSize needSort) calls final) :
    (∀ left right, final.fullToSwaIndexMapping left ≠ 0 →
        final.fullToSwaIndexMapping left = final.fullToSwaIndexMapping right → left = right) ∧
      (∀ index, final.fullToSwaIndexMapping index ≠ 0 →
        final.fullToSwaIndexMapping index / final.pageSize ∉ freeLists final.swaAttnAllocator) ∧
      (∀ index, final.fullToSwaIndexMapping index ≠ 0 → (1 ≤ index / final.pageSize ∧
          index / final.pageSize ≤ final.fullAttnAllocator.numPages) ∧
        index / final.pageSize ∉ freeLists final.fullAttnAllocator) ∧
      ((freeLists final.fullAttnAllocator).Nodup ∧ 0 ∉ freeLists final.fullAttnAllocator) ∧
      (freeLists final.swaAttnAllocator).Nodup ∧ 0 ∉ freeLists final.swaAttnAllocator := by
  have consistent : Consistent final :=
    Path.invariant Consistent (fun _ _ _ step held => held.step step) run
      (consistent_clear sizeFull sizeSwa needSort positive)
  have paired := consistent.paired
  refine ⟨fun left right live same => paired.injective live same, fun index live held => ?_,
    fun index live => ?_, ⟨nodup_freeLists paired.fullSound,
      zero_not_mem_freeLists paired.fullSound⟩, nodup_freeLists paired.swaSound,
    zero_not_mem_freeLists paired.swaSound⟩
  · rw [← Multiset.mem_coe, freeLists_eq_heldPages] at held
    exact (paired.swaPeer _ _ (Peers.of_ne_zero _ live)).notHeld held
  · have taken := paired.fullPeer _ _ (Peers.of_ne_zero _ live)
    refine ⟨taken.inRange, fun held => taken.notHeld ?_⟩
    rwa [← Multiset.mem_coe, freeLists_eq_heldPages] at held

/-- A sequence of three tokens decodes a fourth one behind its live peer, and its
first page is released on the sliding-window side inside a group. -/
theorem swa_pairing_decode : ∃ final, Path LiveStep (clear 4 4 2 false)
        [.allocExtend [⟨0, 3, -1⟩], .allocDecode [⟨4, 4⟩], .freeGroupBegin, .freeSwa [2],
          .freeGroupEnd] final ∧
      final.fullToSwaIndexMapping 5 = 5 ∧ freeLists final.swaAttnAllocator = [1] ∧
      (∀ left right, final.fullToSwaIndexMapping left ≠ 0 →
        final.fullToSwaIndexMapping left = final.fullToSwaIndexMapping right → left = right) := by
  refine Exists.imp (fun final (found : _ ∧ _ ∧ _) => ⟨found.1, found.2.1, found.2.2,
    (swa_pairing (by decide) found.1).1⟩) ?_
  refine ⟨_, .cons ⟨⟨?_, rfl⟩, ?_⟩ (.cons ⟨⟨?_, rfl⟩, ?_⟩ (.cons ⟨⟨?_, rfl⟩, ?_⟩
    (.cons ⟨⟨?_, rfl⟩, ?_⟩ (.cons ⟨⟨?_, rfl⟩, ?_⟩ (.nil _))))), ?_⟩ <;> decide

/-- Releasing the peer of a partially filled page and then continuing the page
gives its next token a slot in the padding page, and releasing that token puts
the padding page on the sliding-window free list. -/
theorem swa_pairing_padding_freed : ∃ final, Path CallerStep (clear 4 4 2 false)
        [.allocExtend [⟨0, 1, -1⟩], .freeSwa [2], .allocExtend [⟨1, 2, 2⟩], .freeSwa [3]] final ∧
      0 ∈ freeLists final.swaAttnAllocator := by
  refine ⟨_, .cons ⟨?_, rfl⟩ (.cons ⟨?_, rfl⟩ (.cons ⟨?_, rfl⟩ (.cons ⟨?_, rfl⟩ (.nil _)))), ?_⟩
    <;> decide

end SwaTokenToKVPoolAllocator

end AvaServe.Memory
