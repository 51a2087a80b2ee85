import AvaServe.Indexer.PrefixRule
import AvaServe.Indexer.PrefixViews
import AvaServe.Unified.MatchWalk

/-!
# The indexer's page scan and the engine's node walk

Scanning a path of the unified cache page by page finds the boundary that the walk over
its nodes finds: within a node the sliding-window run only grows, so the last boundary
of the scan is the end of a node, and the validator's infinite start is the unbroken head.
-/

namespace AvaServe.Indexer

open AvaServe.Unified List Nat

namespace RuleScan

variable {spec : WorkerCacheSpec} {scan : RuleScan} {block : Option BlockComponents}

variable (active : scan.active = true) (full : spec.fullAvailable block = true)
  (declared : spec.declares componentSwa = true)

section

include active full declared

/-- Pages that lack the sliding window. -/
theorem foldl_replicate_absent (absent : spec.swaAvailable block = false) (pages : ℕ) :
    (replicate (pages + 1) block).foldl (push spec) scan =
      { processed := scan.processed + (pages + 1)
        active := true
        best := scan.best
        swaRun := 0
        swaHeadBroken := true } := by
  have step {scan : RuleScan} (active : scan.active = true) : scan.push spec block =
      { processed := scan.processed + 1
        best := scan.best
        swaHeadBroken := true } := by
    rw [push_of_full active full, pushSwa, if_pos declared, absent]
    rfl
  induction pages with
  | zero => exact step active
  | succ pages ih =>
    rw [replicate_succ', foldl_append, ih, foldl_cons, step rfl]
    rfl

/-- Pages that have the sliding window: the last one decides. -/
theorem foldl_replicate_present (plain : spec.declares componentMamba = false)
    (present : spec.swaAvailable block = true) (pages : ℕ) :
    (replicate (pages + 1) block).foldl (push spec) scan =
      { processed := scan.processed + (pages + 1)
        active := true
        best :=
          if scan.swaHeadBroken = false ∨
              spec.swaWindowTokens.toNat ≤ scan.swaRun + (pages + 1) * tokensOf block then
            scan.processed + (pages + 1)
          else scan.best
        swaRun := scan.swaRun + (pages + 1) * tokensOf block
        swaHeadBroken := scan.swaHeadBroken } := by
  have step {scan : RuleScan} (active : scan.active = true) : scan.push spec block =
      { processed := scan.processed + 1
        best :=
          if scan.swaHeadBroken = false ∨
              spec.swaWindowTokens.toNat ≤ scan.swaRun + tokensOf block then
            scan.processed + 1
          else scan.best
        swaRun := scan.swaRun + tokensOf block
        swaHeadBroken := scan.swaHeadBroken } := by
    rw [push_of_full active full, pushSwa, if_pos declared, if_pos present, plain]
    simp
  induction pages with
  | zero =>
    rw [zero_add, one_mul]
    exact step active
  | succ pages ih =>
    have longer : scan.swaRun + (pages + 1) * tokensOf block + tokensOf block =
        scan.swaRun + (pages + 1 + 1) * tokensOf block := by
      rw [succ_mul (pages + 1), add_assoc]
    rw [replicate_succ', foldl_append, ih, foldl_cons, foldl_nil, step rfl]
    rw [longer, add_assoc]
    by_cases reaches : scan.swaHeadBroken = false ∨
        spec.swaWindowTokens.toNat ≤ scan.swaRun + (pages + 1 + 1) * tokensOf block
    · rw [if_pos reaches, if_pos reaches]
    · rw [if_neg reaches, if_neg reaches, if_neg]
      rintro (whole | enough)
      · exact reaches (.inl whole)
      · exact reaches (.inr (by omega))

end

end RuleScan

variable {pageSize : ℕ}

/-- The pages of a path, each block as its node has it. -/
def pathBlocks (block : UnifiedTreeNode pageSize → Option BlockComponents)
    (path : List (UnifiedTreeNode pageSize)) : List (Option BlockComponents) :=
  path.flatMap fun node => replicate node.pages (block node)

/-- The indexer's picture of the nodes of a cache: FULL on every page, the sliding window
where the node has it, pages of the cache's size, and the engine's window. -/
structure Pictures (core : TreeCore) (deviceOnly : Bool) (spec : WorkerCacheSpec)
    (block : UnifiedTreeNode pageSize → Option BlockComponents) : Prop where
  usable : spec.Usable
  declared : spec.declares componentSwa = true
  plain : spec.declares componentMamba = false
  window : spec.swaWindowTokens.toNat = core.slidingWindowSize
  full : ∀ node, spec.fullAvailable (block node) = true
  swa : ∀ node, spec.swaAvailable (block node) = UnifiedTreeNode.present deviceOnly node.swa
  tokens : ∀ node, tokensOf (block node) = pageSize

/-- The scan of the pages and the walk of the nodes agree so far. -/
structure Agree (pageSize : ℕ) (scan : RuleScan) (walked : TreeCore.Validated) : Prop where
  active : scan.active = true
  processed : scan.processed * pageSize = walked.length
  best : scan.best * pageSize = walked.best
  len : walked.len = if scan.swaHeadBroken then (scan.swaRun : ℕ∞) else ⊤

/-- They agree at the start. -/
theorem agree_start : Agree pageSize {} {} := ⟨rfl, zero_mul _, zero_mul _, rfl⟩

variable {block : UnifiedTreeNode pageSize → Option BlockComponents} {spec : WorkerCacheSpec}
  {deviceOnly : Bool}

/-- Both take a node alike. -/
theorem Agree.node {core : TreeCore} (pictures : Pictures core deviceOnly spec block)
    (gated : core.swaDeviceOnlyHicache = false) {scan : RuleScan} {walked : TreeCore.Validated}
    (agree : Agree pageSize scan walked) (node : UnifiedTreeNode pageSize) :
    Agree pageSize ((replicate node.pages (block node)).foldl (RuleScan.push spec) scan)
      (core.validate deviceOnly walked node) := by
  obtain ⟨pages, isPages⟩ := exists_eq_add_one_of_ne_zero node.pages_pos.ne'
  have tokens : (pages + 1) * pageSize = node.key.length := isPages ▸ node.pages_mul
  have total : (scan.processed + (pages + 1)) * pageSize = walked.length + node.key.length := by
    rw [add_mul, agree.processed, tokens]
  have presence : (node.swa.value.isNone && (deviceOnly || node.swa.hostValue.isNone)) =
      !UnifiedTreeNode.present deviceOnly node.swa := by
    unfold UnifiedTreeNode.present
    cases node.swa.value <;> cases deviceOnly <;> cases node.swa.hostValue <;> rfl
  rw [isPages]
  cases present : UnifiedTreeNode.present deviceOnly node.swa with
  | false =>
    rw [RuleScan.foldl_replicate_absent agree.active (pictures.full node) pictures.declared
      ((pictures.swa node).trans present)]
    refine ⟨rfl, total, ?_, ?_⟩ <;>
      simp [TreeCore.validate, TreeCore.swaValidator, presence, present, gated, agree.best]
  | true =>
    rw [RuleScan.foldl_replicate_present agree.active (pictures.full node) pictures.declared
      pictures.plain ((pictures.swa node).trans present), pictures.tokens node, tokens,
      pictures.window]
    have validated : core.swaValidator deviceOnly walked.len node =
        (decide ((core.slidingWindowSize : ℕ∞) ≤ walked.len + node.key.length),
          walked.len + node.key.length) := by
      rw [TreeCore.swaValidator, presence, present]
      rfl
    have valid : (core.slidingWindowSize : ℕ∞) ≤ walked.len + node.key.length ↔
        scan.swaHeadBroken = false ∨ core.slidingWindowSize ≤ scan.swaRun + node.key.length := by
      rw [agree.len]
      cases scan.swaHeadBroken with
      | false => simp
      | true =>
        rw [if_pos rfl, ← cast_add, cast_le]
        simp
    refine ⟨rfl, total, ?_, ?_⟩
    · unfold TreeCore.validate
      rw [validated]
      simp only [decide_eq_true_eq, valid]
      split
      · exact total
      · exact agree.best
    · unfold TreeCore.validate
      rw [validated, agree.len]
      dsimp only
      split
      · exact (cast_add ..).symm
      · exact top_add _

/-- They agree along a path. -/
theorem agree_path {core : TreeCore} (pictures : Pictures core deviceOnly spec block)
    (gated : core.swaDeviceOnlyHicache = false) (path : List (UnifiedTreeNode pageSize)) :
    Agree pageSize ((pathBlocks block path).foldl (RuleScan.push spec) {})
      (path.foldl (core.validate deviceOnly) {}) := by
  induction path using reverseRecOn with
  | nil => exact agree_start
  | append_singleton path node ih =>
    rw [pathBlocks, flatMap_append, foldl_append, foldl_append]
    rw [flatMap_singleton]
    exact ih.node pictures gated node

/-- The page scan of a path finds the boundary of the sliding-window validator. -/
theorem scan_eq_validated {core : TreeCore} (pictures : Pictures core deviceOnly spec block)
    (gated : core.swaDeviceOnlyHicache = false) {path : List (UnifiedTreeNode pageSize)}
    (fits : (pathBlocks block path).length < 2 ^ 32) :
    (computeWorkerPrefix (some spec) (pathBlocks block path)).toNat * pageSize =
      (path.foldl (core.validate deviceOnly) {}).best := by
  rw [toNat_computeWorkerPrefix pictures.usable fits]
  exact (agree_path pictures gated path).best

/-! ### The picture a worker reports -/

/-- The spec of a worker with a sliding window, served from the device. -/
def swaSpec (window : UInt32) : WorkerCacheSpec where
  version := 1
  components := componentFull ||| componentSwa
  swaWindowTokens := window
  fullTierMask := 1 <<< TierType.tierHbm.code.toUInt32
  swaTierMask := 1 <<< TierType.tierHbm.code.toUInt32
  mambaTierMask := 0

/-- A page of a node as a worker reports it. -/
def pageBlock (deviceOnly : Bool) (node : UnifiedTreeNode pageSize) : Option BlockComponents :=
  some
    { tokenCount := UInt32.ofNat pageSize
      tierMasks := [(TierType.tierHbm.code,
        if UnifiedTreeNode.present deviceOnly node.swa then componentFull ||| componentSwa
        else componentFull)] }

/-- A block with one placement. -/
theorem componentAvailable_singleton (tokenCount : UInt32) (tier : Int32)
    (mask component specTierMask : UInt32) :
    componentAvailable (some ⟨tokenCount, [(tier, mask)]⟩) component specTierMask =
      (mask &&& component != 0 && tierInMask servableTierMask tier &&
        tierInMask specTierMask tier) :=
  Bool.or_false _

/-- The pages a worker reports picture its cache. -/
theorem pictures_pageBlock {core : TreeCore} {window : UInt32} (deviceOnly : Bool)
    (positive : window ≠ 0) (same : window.toNat = core.slidingWindowSize)
    (fits : pageSize < 2 ^ 32) : Pictures core deviceOnly (swaSpec window)
      (pageBlock deviceOnly : UnifiedTreeNode pageSize → Option BlockComponents) where
  usable :=
    ⟨show componentFull ||| componentSwa ≠ 0 by decide,
      show (1 : UInt32) ≤ supportedSpecVersion by decide, fun _ => positive⟩
  declared := show ((componentFull ||| componentSwa) &&& componentSwa != 0) = true by decide
  plain := show ((componentFull ||| componentSwa) &&& componentMamba != 0) = false by decide
  window := same
  full := fun node => by
    rw [WorkerCacheSpec.fullAvailable, pageBlock, componentAvailable_singleton]
    cases UnifiedTreeNode.present deviceOnly node.swa <;> simp only [swaSpec] <;> decide
  swa := fun node => by
    rw [WorkerCacheSpec.swaAvailable, pageBlock, componentAvailable_singleton]
    cases UnifiedTreeNode.present deviceOnly node.swa <;> simp only [swaSpec] <;> decide
  tokens := fun node => mod_eq_of_lt fits

/-! ### The answers of the indexer -/

/-- Prefix answers agree with their definition and with the engine. -/
theorem prefix_answers_agree :
    (∀ (order other : PlacementOrder) (state : State) (req : MatchExternalKvPrefixRequest),
      (doMatchPrefix order state req).reported = (matchExternalKvPrefix other state req).reported) ∧
    (∀ (spec : WorkerCacheSpec) (blocks : List (Option BlockComponents)), spec.Usable →
      blocks.length < 2 ^ 32 →
      IsGreatest (boundaries spec blocks) (computeWorkerPrefix (some spec) blocks).toNat) ∧
    ∀ (pageSize : ℕ) (core : TreeCore) (spec : WorkerCacheSpec)
      (block : UnifiedTreeNode pageSize → Option BlockComponents)
      (path : List (UnifiedTreeNode pageSize)),
      core.swaDeviceOnlyHicache = false → (pathBlocks block path).length < 2 ^ 32 →
      (Pictures core (!core.enableHicache) spec block →
        (∀ node ∈ path, UnifiedTreeNode.present (!core.enableHicache) node.full) →
        (computeWorkerPrefix (some spec) (pathBlocks block path)).toNat * pageSize =
          keyLength (path.take (core.matchPrefixHelper {} path).bestMatchNode)) ∧
      (Pictures core true spec block → (∀ node ∈ path, UnifiedTreeNode.present true node.full) →
        (computeWorkerPrefix (some spec) (pathBlocks block path)).toNat * pageSize =
          keyLength (path.take (core.matchPrefixHelper {} path).bestMatchDeviceNode)) := by
  refine ⟨reported_doMatchPrefix_eq, fun spec blocks usable fits => ?_, ?_⟩
  · rw [toNat_computeWorkerPrefix usable fits]
    exact (RuleScan.sees_foldl spec blocks).best
  intro pageSize core spec block path gated fits
  constructor
  · intro pictures holds
    rw [core.keyLength_bestMatchNode holds]
    exact scan_eq_validated pictures gated fits
  · intro pictures holds
    rw [core.keyLength_bestMatchDeviceNode holds]
    exact scan_eq_validated pictures gated fits

namespace OneNode

/-- A node of one token, with the sliding window or without it. -/
def node (swa : Option (List ℕ)) : UnifiedTreeNode 1 where
  key := [5]
  full := { value := some [3] }
  swa := { value := swa }
  nonempty := cons_ne_nil _ _
  aligned := one_dvd _

/-- A cache with a window of two tokens. -/
def core : TreeCore := ⟨false, false, 2⟩

/-- A path with a gap in the sliding window; behind it the window is not full. -/
def gapped : List (UnifiedTreeNode 1) := [node (some [4]), node none, node (some [4])]

/-- An index with one block of one worker. -/
def indexed : State where
  blocks := Finmap.singleton 7 { tokenCount := 1, placements := Finmap.singleton ("w", 1) 3 }
  workers := Finmap.singleton "w"
    { address := "a", spec := some (swaSpec 2), holdings := Finmap.singleton 1 {7} }

/-- A path with a gap in the window. -/
theorem prefix_answers_agree_gap :
    (doMatchPrefix (fun _ => Foundation.Listing.some) indexed ⟨[7, 8], 0⟩).reported =
      (matchExternalKvPrefix (fun _ => Foundation.Listing.some) indexed ⟨[7, 8], 0⟩).reported ∧
    IsGreatest (boundaries (swaSpec 2) (pathBlocks (pageBlock true) gapped))
      (computeWorkerPrefix (some (swaSpec 2)) (pathBlocks (pageBlock true) gapped)).toNat ∧
    (computeWorkerPrefix (some (swaSpec 2)) (pathBlocks (pageBlock true) gapped)).toNat * 1 =
      keyLength (gapped.take (core.matchPrefixHelper {} gapped).bestMatchNode) ∧
    (computeWorkerPrefix (some (swaSpec 2)) (pathBlocks (pageBlock true) gapped)).toNat * 1 =
      keyLength (gapped.take (core.matchPrefixHelper {} gapped).bestMatchDeviceNode) ∧
    keyLength (gapped.take (core.matchPrefixHelper {} gapped).bestMatchNode) = 1 := by
  obtain ⟨queries, greatest, walks⟩ := prefix_answers_agree
  have pictures : Pictures core true (swaSpec 2)
      (pageBlock true : UnifiedTreeNode 1 → Option BlockComponents) :=
    pictures_pageBlock true (by decide) rfl (by decide)
  have holds : ∀ other ∈ gapped, UnifiedTreeNode.present true other.full := by decide
  obtain ⟨best, device⟩ := walks 1 core (swaSpec 2) (pageBlock true) gapped rfl (by decide)
  exact ⟨queries _ _ _ _, greatest _ _ pictures.usable (by decide), best pictures holds,
    device pictures holds, by decide⟩

/-- Without a host pool for the sliding window a host-tiered cache matches a node that the
scan does not, and with an empty window so does any cache. -/
theorem scan_misses_node :
    ((computeWorkerPrefix (some (swaSpec 1)) (pathBlocks (pageBlock true) [node none])).toNat * 1 =
        0 ∧
      keyLength ([node none].take
        ((TreeCore.mk true false 1).matchPrefixHelper {} [node none]).bestMatchNode) = 1) ∧
    (computeWorkerPrefix (some (swaSpec 0))
        (pathBlocks (pageBlock true) [node (some [4])])).toNat * 1 = 0 ∧
      keyLength ([node (some [4])].take
        ((TreeCore.mk false false 0).matchPrefixHelper {} [node (some [4])]).bestMatchNode) =
          1 := by
  refine ⟨⟨?_, ?_⟩, ?_, ?_⟩ <;> decide

end OneNode

end AvaServe.Indexer
