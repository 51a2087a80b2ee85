import Mathlib

/-!
# The match walk of the unified cache

`UnifiedTreeCore._match_prefix_helper` on the path it follows, with the validators of
the FULL and the sliding-window component. The path is what the loop visits: a node
that matches in part has been split, so every node on the path matches as a whole.
-/

namespace AvaServe.Unified

open List

/-- `ComponentData`, as far as a match reads it. -/
structure ComponentData where
  value : Option (List ℕ) := none
  hostValue : Option (List ℕ) := none
  deriving DecidableEq, Repr

/-- `UnifiedTreeNode`, below the root of a cache with the given page size. -/
structure UnifiedTreeNode (pageSize : ℕ) where
  key : List ℕ
  full : ComponentData
  swa : ComponentData
  nonempty : key ≠ []
  aligned : pageSize ∣ key.length

/-- What a match reads of `UnifiedTreeCore`. -/
structure TreeCore where
  enableHicache : Bool
  hasSwaHostPool : Bool
  slidingWindowSize : ℕ
  deriving DecidableEq, Repr

variable {pageSize : ℕ}

namespace UnifiedTreeNode

variable (node : UnifiedTreeNode pageSize)

/-- `UnifiedTreeNode.backuped`. -/
def backuped : Bool := node.full.hostValue.isSome

/-- `UnifiedTreeNode.evicted`. -/
def evicted : Bool := node.full.value.isNone

/-- A component is present on the device, or on the host where that counts. -/
def present (matchDeviceOnly : Bool) (component : ComponentData) : Bool :=
  component.value.isSome || (!matchDeviceOnly && component.hostValue.isSome)

/-- The number of pages of a node. -/
def pages : ℕ := node.key.length / pageSize

/-- Keys are whole pages. -/
theorem pages_mul (node : UnifiedTreeNode pageSize) : node.pages * pageSize = node.key.length :=
  Nat.div_mul_cancel node.aligned

/-- Every node has a page. -/
theorem pages_pos (node : UnifiedTreeNode pageSize) : 0 < node.pages := by
  have length : 0 < node.pages * pageSize := by
    rw [node.pages_mul]
    exact length_pos_iff.mpr node.nonempty
  exact Nat.pos_of_mul_pos_right length

end UnifiedTreeNode

namespace TreeCore

variable (core : TreeCore)

/-- `swa_device_only_hicache` of the sliding-window validator. -/
def swaDeviceOnlyHicache : Bool := !core.hasSwaHostPool && core.enableHicache

/-- `FullComponent.create_match_validator`. -/
def fullValidator (matchDeviceOnly : Bool) (node : UnifiedTreeNode pageSize) : Bool :=
  if matchDeviceOnly then node.full.value.isSome
  else node.full.value.isSome || node.backuped

/-- `SWAComponent.create_match_validator`, with the length it keeps. -/
def swaValidator (matchDeviceOnly : Bool) (len : ℕ∞)
    (node : UnifiedTreeNode pageSize) : Bool × ℕ∞ :=
  if node.swa.value.isNone && (matchDeviceOnly || node.swa.hostValue.isNone) then
    (core.swaDeviceOnlyHicache && (node.backuped || !node.evicted), 0)
  else
    let len := len + node.key.length
    (decide (core.slidingWindowSize ≤ len), len)

/-- The state of `_match_prefix_helper`. Nodes are named by their depth on the path, the
root by zero, and `value` is counted. -/
structure Walk where
  depth : ℕ := 0
  valueLen : ℕ := 0
  bestMatchNode : ℕ := 0
  bestMatchDeviceNode : ℕ := 0
  bestMatchDeviceValueLen : ℕ := 0
  fullKvHitLength : ℕ := 0
  swaLen : ℕ∞ := ⊤
  swaDeviceLen : ℕ∞ := ⊤

/-- `_update_best_if_valid`. -/
def updateBestIfValid (walk : Walk) (node : UnifiedTreeNode pageSize) : Walk :=
  let deviceOnly := !core.enableHicache
  let (swaValid, swaLen) := core.swaValidator deviceOnly walk.swaLen node
  let matched := fullValidator deviceOnly node && swaValid
  let walk := { walk with
    swaLen
    bestMatchNode := if matched then walk.depth else walk.bestMatchNode }
  if !core.enableHicache then
    if matched then
      { walk with
        bestMatchDeviceValueLen := walk.valueLen
        bestMatchDeviceNode := walk.depth }
    else walk
  else
    let (swaValid, swaDeviceLen) := core.swaValidator true walk.swaDeviceLen node
    if fullValidator true node && swaValid then
      { walk with
        swaDeviceLen
        bestMatchDeviceValueLen := walk.valueLen
        bestMatchDeviceNode := walk.depth }
    else { walk with swaDeviceLen }

/-- One node of the path. -/
def visit (walk : Walk) (child : UnifiedTreeNode pageSize) : Walk :=
  core.updateBestIfValid
    { walk with
      depth := walk.depth + 1
      fullKvHitLength := walk.fullKvHitLength + child.key.length
      valueLen := if !child.evicted then walk.valueLen + 1 else walk.valueLen }
    child

/-- `_match_prefix_helper` along a path. -/
def matchPrefixHelper (core : TreeCore) (walk : Walk) : List (UnifiedTreeNode pageSize) → Walk
  | [] => walk
  | child :: path =>
    if child.evicted && !child.backuped then walk
    else core.matchPrefixHelper (core.visit walk child) path

end TreeCore

/-- The tokens of a path. -/
def keyLength (path : List (UnifiedTreeNode pageSize)) : ℕ :=
  (path.map fun node => node.key.length).sum

/-- Lengths add up. -/
theorem keyLength_append (first second : List (UnifiedTreeNode pageSize)) :
    keyLength (first ++ second) = keyLength first + keyLength second := by
  rw [keyLength, map_append, sum_append]
  rfl

/-! ### The walk where FULL is held throughout -/

namespace TreeCore

/-- The sliding-window validator alone: the tokens walked, those up to the last valid
node, and the length it keeps. -/
structure Validated where
  length : ℕ := 0
  best : ℕ := 0
  len : ℕ∞ := ⊤

/-- One node of the path for the sliding-window validator. -/
def validate (core : TreeCore) (deviceOnly : Bool) (walked : Validated)
    (node : UnifiedTreeNode pageSize) : Validated :=
  let (valid, len) := core.swaValidator deviceOnly walked.len node
  { length := walked.length + node.key.length
    best := if valid then walked.length + node.key.length else walked.best
    len }

variable {path : List (UnifiedTreeNode pageSize)}

/-- Over live nodes the walk is a fold. -/
theorem matchPrefixHelper_eq_foldl (core : TreeCore) (walk : Walk)
    (alive : ∀ node ∈ path, (node.evicted && !node.backuped) = false) :
    core.matchPrefixHelper walk path = path.foldl core.visit walk := by
  induction path generalizing walk with
  | nil => rfl
  | cons child path ih =>
    obtain ⟨head, tail⟩ := forall_mem_cons.mp alive
    rw [matchPrefixHelper, if_neg (by rw [head]; decide), ih _ tail]
    rfl

/-- The walk keeps what the sliding-window validator alone finds. -/
structure Keeps (path : List (UnifiedTreeNode pageSize)) (best : ℕ) (len : ℕ∞)
    (walked : Validated) : Prop where
  length : walked.length = keyLength path
  inside : best ≤ path.length
  best : keyLength (path.take best) = walked.best
  len : len = walked.len

/-- Before the first node. -/
theorem keeps_nil : Keeps ([] : List (UnifiedTreeNode pageSize)) 0 ⊤ {} := ⟨rfl, le_rfl, rfl, rfl⟩

/-- One node more. -/
theorem Keeps.validate {best : ℕ} {len : ℕ∞} {walked : Validated}
    (keeps : Keeps path best len walked) (core : TreeCore) (deviceOnly : Bool)
    (node : UnifiedTreeNode pageSize) : Keeps (path ++ [node])
      (if (core.swaValidator deviceOnly len node).1 then path.length + 1 else best)
      (core.swaValidator deviceOnly len node).2 (core.validate deviceOnly walked node) := by
  obtain ⟨length, inside, isBest, rfl⟩ := keeps
  have whole : keyLength (path ++ [node]) = keyLength path + node.key.length :=
    keyLength_append path [node]
  refine ⟨by rw [whole, ← length]; rfl, ?_, ?_, rfl⟩
  · rw [length_append]
    split
    · exact le_rfl
    · exact Nat.le_succ_of_le inside
  · unfold TreeCore.validate
    dsimp only
    split
    · rw [length, ← whole, take_of_length_le]
      rw [length_append, length_singleton]
    · rw [take_append_of_le_length inside, isBest]

section Visit

variable (core : TreeCore) (walk : Walk) (node : UnifiedTreeNode pageSize)

/-- A visit goes one deeper. -/
theorem depth_visit : (core.visit walk node).depth = walk.depth + 1 := by
  unfold visit updateBestIfValid
  dsimp only
  split
  · split <;> rfl
  · split <;> rfl

/-- It updates the best node as the validator says. -/
theorem best_visit (holds : fullValidator (!core.enableHicache) node) :
    (core.visit walk node).swaLen = (core.swaValidator (!core.enableHicache) walk.swaLen node).2 ∧
      (core.visit walk node).bestMatchNode =
        if (core.swaValidator (!core.enableHicache) walk.swaLen node).1 then walk.depth + 1
        else walk.bestMatchNode := by
  unfold visit updateBestIfValid
  dsimp only
  rw [holds, Bool.true_and]
  split
  · split <;> exact ⟨rfl, rfl⟩
  · split <;> exact ⟨rfl, rfl⟩

/-- Without a host tier the device node is the best node. -/
theorem device_visit_of_not_hicache (plain : core.enableHicache = false)
    (same : walk.bestMatchDeviceNode = walk.bestMatchNode) :
    (core.visit walk node).bestMatchDeviceNode = (core.visit walk node).bestMatchNode := by
  unfold visit updateBestIfValid
  dsimp only
  rw [if_pos (by rw [plain]; rfl)]
  split
  · rfl
  · exact same

/-- So it does on the device. -/
theorem device_visit_of_hicache (hicache : core.enableHicache = true)
    (holds : fullValidator true node) :
    (core.visit walk node).swaDeviceLen = (core.swaValidator true walk.swaDeviceLen node).2 ∧
      (core.visit walk node).bestMatchDeviceNode =
        if (core.swaValidator true walk.swaDeviceLen node).1 then walk.depth + 1
        else walk.bestMatchDeviceNode := by
  unfold visit updateBestIfValid
  dsimp only
  rw [if_neg (by rw [hicache]; decide), holds, Bool.true_and]
  split <;> exact ⟨rfl, rfl⟩

end Visit

variable {deviceOnly : Bool} {node : UnifiedTreeNode pageSize}

/-- A present node passes. -/
theorem fullValidator_of_present (present : UnifiedTreeNode.present deviceOnly node.full) :
    fullValidator deviceOnly node := by
  cases deviceOnly with
  | true => simpa [UnifiedTreeNode.present, fullValidator] using present
  | false => exact present

/-- It is alive. -/
theorem alive_of_present (present : UnifiedTreeNode.present deviceOnly node.full) :
    (node.evicted && !node.backuped) = false := by
  unfold UnifiedTreeNode.present at present
  unfold UnifiedTreeNode.evicted UnifiedTreeNode.backuped
  cases value : node.full.value with
  | some indices => rfl
  | none =>
    rw [value] at present
    cases host : node.full.hostValue with
    | some indices => rfl
    | none =>
      rw [host] at present
      simp at present

section Path

variable (core : TreeCore) {path : List (UnifiedTreeNode pageSize)}

/-- A best node that every visit updates as the validator says is the validator's. -/
theorem keeps_foldl_visit {best : Walk → ℕ} {len : Walk → ℕ∞} (start : best {} = 0 ∧ len {} = ⊤)
    (visit : ∀ walk (node : UnifiedTreeNode pageSize), fullValidator deviceOnly node →
      len (core.visit walk node) = (core.swaValidator deviceOnly (len walk) node).2 ∧
      best (core.visit walk node) =
        if (core.swaValidator deviceOnly (len walk) node).1 then walk.depth + 1 else best walk)
    (holds : ∀ node ∈ path, UnifiedTreeNode.present deviceOnly node.full) :
    (path.foldl core.visit {}).depth = path.length ∧
      Keeps path (best (path.foldl core.visit {})) (len (path.foldl core.visit {}))
        (path.foldl (core.validate deviceOnly) {}) := by
  induction path using reverseRecOn with
  | nil =>
    rw [foldl_nil, start.1, start.2]
    exact ⟨rfl, keeps_nil⟩
  | append_singleton path node ih =>
    obtain ⟨before, last⟩ := forall_mem_append.mp holds
    obtain ⟨depth, keeps⟩ := ih before
    have full := fullValidator_of_present (last node (mem_singleton_self node))
    obtain ⟨isLen, isBest⟩ := visit (path.foldl core.visit {}) node full
    rw [foldl_append, foldl_append, foldl_cons, foldl_cons,
      foldl_nil, depth_visit, isLen, isBest, depth, length_append]
    exact ⟨rfl, keeps.validate core _ node⟩

/-- Where every node holds FULL, the best node is the sliding-window validator's. -/
theorem keyLength_bestMatchNode
    (holds : ∀ node ∈ path, UnifiedTreeNode.present (!core.enableHicache) node.full) :
    keyLength (path.take (core.matchPrefixHelper {} path).bestMatchNode) =
      (path.foldl (core.validate !core.enableHicache) {}).best := by
  rw [core.matchPrefixHelper_eq_foldl {} fun node member => alive_of_present (holds node member)]
  exact (core.keeps_foldl_visit ⟨rfl, rfl⟩ (core.best_visit · ·) holds).2.best

/-- Where every node holds FULL on the device, so is the best device node. -/
theorem keyLength_bestMatchDeviceNode
    (holds : ∀ node ∈ path, UnifiedTreeNode.present true node.full) :
    keyLength (path.take (core.matchPrefixHelper {} path).bestMatchDeviceNode) =
      (path.foldl (core.validate true) {}).best := by
  rw [core.matchPrefixHelper_eq_foldl {} fun node member => alive_of_present (holds node member)]
  cases hicache : core.enableHicache with
  | true =>
    exact (core.keeps_foldl_visit ⟨rfl, rfl⟩ (core.device_visit_of_hicache · · hicache)
      holds).2.best
  | false =>
    have same : (path.foldl core.visit {}).bestMatchDeviceNode =
        (path.foldl core.visit {}).bestMatchNode := by
      clear holds
      induction path using reverseRecOn with
      | nil => rfl
      | append_singleton path node ih =>
        rw [foldl_append]
        exact core.device_visit_of_not_hicache _ node hicache ih
    have plain : ∀ node ∈ path, UnifiedTreeNode.present (!core.enableHicache) node.full := by
      rw [hicache]
      exact holds
    have keeps := (core.keeps_foldl_visit ⟨rfl, rfl⟩ (core.best_visit · ·) plain).2.best
    rw [hicache] at keeps
    rw [same]
    exact keeps

end Path

end TreeCore

end AvaServe.Unified
