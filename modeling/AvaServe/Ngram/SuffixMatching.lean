import AvaServe.Ngram.TrieCounts

/-!
# Cached suffix matches

Each request keeps references to the trie nodes that spell the suffixes of its tokens. A
node may be squeezed out and reused, so a reference carries the version of its node. A match
advances the references by the new tokens, or walks every suffix anew.
-/

namespace AvaServe.Ngram

open List

/-- A handle of a node; `ptr` is `none` for a null pointer. -/
structure NodeRef where
  ptr : Option ℕ := none
  version : UInt64 := 0
deriving DecidableEq

/-- The cached matches of a request: `anchors[d - 1]` is for the last `d` tokens. -/
structure MatchState where
  trieEpoch : UInt64 := 0
  processedTotalLen : ℕ := 0
  anchors : List NodeRef := []
deriving DecidableEq

namespace Trie

section

variable (trie : Trie)

/-- `capture`. -/
def capture : Option ℕ → NodeRef
  | none => {}
  | some id => ⟨some id, (trie.node id).version⟩

/-- `resolve`. -/
def resolve (state : MatchState) (ref : NodeRef) : Option ℕ :=
  match ref.ptr with
  | none => none
  | some id =>
    if state.trieEpoch ≠ trie.trieEpoch ∨ (trie.node id).version ≠ ref.version then none
    else some id

/-- A reference is null or still stands for its node. -/
def resolves (state : MatchState) (ref : NodeRef) : Bool :=
  ref.ptr.isNone || (trie.resolve state ref).isSome

/-- `validateMatchState_`. -/
def validateMatchState (state : MatchState) : Bool :=
  decide (state.trieEpoch = trie.trieEpoch) && state.anchors.all (trie.resolves state)

/-- `rebuildMatchState_`: every suffix is walked from the root. -/
def rebuildMatchState (context : List ℤ) (totalLen : ℕ) : MatchState where
  trieEpoch := trie.trieEpoch
  processedTotalLen := totalLen
  anchors := (range (min context.length trie.maxTrieDepth)).map fun i =>
    trie.capture (trie.find trie.root (context.rtake (i + 1)))

/-- The match of a suffix that is one token longer. -/
def descend (state : MatchState) (token : ℤ) (prev : NodeRef) : NodeRef :=
  trie.capture ((trie.resolve state prev).bind fun id => (trie.node id).child.lookup token)

/-- One round of the loop of `advanceMatchState_`; `none` when it gives up. -/
def advanceToken (state : MatchState) (token : ℤ) : Option MatchState :=
  let nextDepth := min (state.anchors.length + 1) trie.maxTrieDepth
  let kept := state.anchors.take (nextDepth - 1)
  if kept.all (trie.resolves state) then
    some { state with
      anchors := (trie.capture ((trie.node trie.root).child.lookup token) ::
        kept.map (trie.descend state token)).take nextDepth }
  else none

/-- `advanceMatchState_`. -/
def advanceMatchState (state : MatchState) (tokens : List ℤ) (totalLen : ℕ) : Option MatchState :=
  if trie.validateMatchState state then
    (tokens.foldlM trie.advanceToken state).map ({ · with processedTotalLen := totalLen })
  else none

/-- `getExpandableAnchors_`: nodes with children, the longest suffix first. -/
def getExpandableAnchors (state : MatchState) : List (ℕ × ℕ) :=
  (state.anchors.zipIdx 1).reverse.filterMap fun anchor =>
    (trie.resolve state anchor.1).bind fun id =>
      if (trie.node id).child = ∅ then none else some (id, anchor.2)

/-- `match`, with the state it leaves. -/
def matchContext (context : List ℤ) (state : MatchState) (totalLen : ℕ) :
    List (ℕ × ℕ) × MatchState :=
  let appendedLen := totalLen - state.processedTotalLen
  let canAdvance := state.trieEpoch = trie.trieEpoch ∧ state.processedTotalLen ≤ totalLen ∧
    appendedLen ≤ context.length ∧
    state.anchors.length = min state.processedTotalLen trie.maxTrieDepth
  let advanced :=
    if canAdvance then trie.advanceMatchState state (context.rtake appendedLen) totalLen else none
  let state := advanced.getD (trie.rebuildMatchState context totalLen)
  (trie.getExpandableAnchors state, state)

end

variable {trie after : Trie} {state next : MatchState} {stream tokens : List ℤ} {ref : NodeRef}

/-! ### Caches of a stream -/

/-- The cache that walking the tail of a stream anew gives. -/
def freshState (trie : Trie) (stream : List ℤ) : MatchState :=
  trie.rebuildMatchState (stream.rtake trie.maxTrieDepth) stream.length

/-- The length of a suffix. -/
theorem length_rtake (tokens : List ℤ) (n : ℕ) : (tokens.rtake n).length = min n tokens.length := by
  rw [rtake, length_drop]
  omega

/-- A suffix of a suffix. -/
theorem rtake_rtake (tokens : List ℤ) {short long : ℕ} (le : short ≤ long) :
    (tokens.rtake long).rtake short = tokens.rtake short := by
  simp only [rtake_eq_reverse_take_reverse, reverse_reverse, take_take, min_eq_left le]

/-- A suffix and the next token are found one step below the suffix. -/
theorem find_concat (trie : Trie) (tokens : List ℤ) (token : ℤ) :
    trie.find trie.root (tokens ++ [token]) =
      (trie.find trie.root tokens).bind fun id => (trie.node id).child.lookup token := by
  rw [Formed.find_append]
  refine congrArg _ (funext fun id => ?_)
  rw [find]
  cases (trie.node id).child.lookup token <;> rfl

/-- A cache of a stream, with what is good of a reference for the tokens of a suffix. -/
structure Follows (good : List ℤ → NodeRef → Prop) (trie : Trie) (stream : List ℤ)
    (state : MatchState) : Prop where
  epoch : state.trieEpoch = trie.trieEpoch
  length : state.anchors.length = min stream.length trie.maxTrieDepth
  anchored : ∀ i ref, state.anchors[i]? = some ref → good (stream.rtake (i + 1)) ref

/-- A cache is of an earlier epoch or for a stream. -/
def Known (good : List ℤ → NodeRef → Prop) (trie : Trie) (stream : List ℤ) (state : MatchState) :
    Prop :=
  state.trieEpoch = trie.trieEpoch →
    state.processedTotalLen = stream.length ∧ Follows good trie stream state

/-- What is good of the references that walks find, and stays good one step below. -/
structure Kept (good : List ℤ → NodeRef → Prop) (trie : Trie) : Prop where
  capture : ∀ tokens, good tokens (trie.capture (trie.find trie.root tokens))
  descend : ∀ state : MatchState, state.trieEpoch = trie.trieEpoch → ∀ tokens token ref,
    good tokens ref → good (tokens ++ [token]) (trie.descend state token ref)

section

variable {good : List ℤ → NodeRef → Prop} (kept : Kept good trie)
include kept

/-- The tail that a request hands in is enough to rebuild. -/
theorem Kept.rebuild (stream : List ℤ) :
    Follows good trie stream (trie.freshState stream) where
  epoch := rfl
  length := by
    rw [freshState, rebuildMatchState, length_map, length_range, length_rtake]
    omega
  anchored i ref found := by
    rw [freshState, rebuildMatchState, getElem?_map, Option.map_eq_some_iff] at found
    obtain ⟨j, inside, rfl⟩ := found
    obtain ⟨short, rfl⟩ := List.getElem?_eq_some_iff.mp inside
    rw [length_range] at short
    rw [getElem_range, rtake_rtake _ (by omega)]
    exact kept.capture _

/-- One token more. -/
theorem Follows.advanceToken (follows : Follows good trie stream state) {token : ℤ}
    (advanced : trie.advanceToken state token = some next) :
    Follows good trie (stream ++ [token]) next := by
  unfold Trie.advanceToken at advanced
  extract_lets nextDepth below at advanced
  split at advanced
  next =>
    cases advanced
    have isDepth : nextDepth = min (stream.length + 1) trie.maxTrieDepth := by
      unfold nextDepth
      rw [follows.length]
      omega
    refine ⟨follows.epoch, ?_, fun i ref found => ?_⟩
    · rw [length_take, length_cons, length_map, length_take, length_append, length_singleton,
        follows.length, isDepth]
      omega
    rw [getElem?_take] at found
    split at found
    next inside =>
      rw [rtake_concat_succ]
      cases i with
      | zero =>
        have start := kept.capture ([] ++ [token])
        rw [find_concat] at start
        rw [rtake_zero, ← Option.some.inj found]
        exact start
      | succ i =>
        rw [getElem?_cons_succ, getElem?_map, getElem?_take, if_pos (by omega),
          Option.map_eq_some_iff] at found
        obtain ⟨prev, earlier, rfl⟩ := found
        exact kept.descend state follows.epoch _ token prev (follows.anchored i prev earlier)
    next => cases found
  next => cases advanced

/-- Several tokens more. -/
theorem Follows.foldlM_advanceToken (follows : Follows good trie stream state)
    (advanced : tokens.foldlM trie.advanceToken state = some next) :
    Follows good trie (stream ++ tokens) next := by
  induction tokens generalizing state stream with
  | nil =>
    cases advanced
    rw [append_nil]
    exact follows
  | cons token rest ih =>
    rw [foldlM_cons, Option.bind_eq_bind, Option.bind_eq_some_iff] at advanced
    obtain ⟨middle, first, advanced⟩ := advanced
    have last := ih (follows.advanceToken kept first) advanced
    rwa [append_assoc, singleton_append] at last

/-- A match leaves a cache of the grown stream, also from a cache of an earlier epoch. -/
theorem Kept.matchContext (known : Known good trie stream state) (appended : List ℤ)
    (isNext : (trie.matchContext ((stream ++ appended).rtake trie.maxTrieDepth) state
      (stream ++ appended).length).2 = next) :
    next.processedTotalLen = (stream ++ appended).length ∧
      Follows good trie (stream ++ appended) next := by
  unfold Trie.matchContext at isNext
  extract_lets appendedLen canAdvance advanced chosen at isNext
  dsimp only at isNext
  unfold chosen at isNext
  cases isFound : advanced with
  | none =>
    rw [isFound, Option.getD_none] at isNext
    exact isNext ▸ ⟨rfl, kept.rebuild _⟩
  | some found =>
    rw [isFound, Option.getD_some] at isNext
    unfold advanced at isFound
    split at isFound
    next can =>
      obtain ⟨processed, follows⟩ := known can.1
      have isLen : appendedLen = appended.length := by
        unfold appendedLen
        rw [processed, length_append, Nat.add_sub_cancel_left]
      have fits := can.2.2.1
      rw [isLen, length_rtake] at fits
      rw [isLen, rtake_rtake _ (by omega), rtake, length_append, Nat.add_sub_cancel, drop_left,
        advanceMatchState] at isFound
      split at isFound
      next =>
        obtain ⟨last, advanced, rfl⟩ := Option.map_eq_some_iff.mp isFound
        obtain ⟨epoch, length, anchored⟩ := follows.foldlM_advanceToken kept advanced
        exact isNext ▸ ⟨(length_append ..).symm, epoch, length, anchored⟩
      next => cases isFound
    next => cases isFound

end

/-! ### Versions -/

/-- A reference to the node that spelled some tokens when it was made: the version of the
node rose as often as it was squeezed out since. -/
def Holds (trie : Trie) (tokens : List ℤ) (ref : NodeRef) : Prop :=
  ∀ id, ref.ptr = some id → ∃ retired : ℕ,
    (trie.node id).version = ref.version + UInt64.ofNat retired ∧ retired ≤ trie.evicted ∧
      (retired = 0 → trie.find trie.root tokens = some id)

/-- What was referenced in an older trie may be referenced in a newer one. -/
structure Ages (trie after : Trie) : Prop where
  epoch : after.trieEpoch = trie.trieEpoch
  holds : ∀ tokens ref, trie.Holds tokens ref → after.Holds tokens ref

/-- Nothing ages. -/
theorem Ages.refl (trie : Trie) : Ages trie trie := ⟨rfl, fun _ _ holds => holds⟩

/-- Ages add up. -/
theorem Ages.trans {middle : Trie} (first : Ages trie middle) (second : Ages middle after) :
    Ages trie after :=
  ⟨second.epoch.trans first.epoch, fun _ _ holds => second.holds _ _ (first.holds _ _ holds)⟩

variable {word : ℕ → List ℤ}

/-- The epoch and the versions. -/
def stamps (trie : Trie) : UInt64 × (ℕ → UInt64) :=
  (trie.trieEpoch, fun id => (trie.node id).version)

/-- Versions stay. -/
theorem stamps_modifyNode {id : ℕ} {change : TrieNode → TrieNode}
    (keeps : ∀ node, (change node).version = node.version) :
    (trie.modifyNode id change).stamps = trie.stamps := by
  refine Prod.ext rfl (funext fun other => ?_)
  simp only [stamps, node_modifyNode]
  split
  next same => rw [same, keeps]
  next => rfl

/-- A step keeps the stamps. -/
theorem advance_stamps {cursor next : ℕ} {token : ℤ}
    (advanced : trie.advance cursor token = .ok (next, after)) : after.stamps = trie.stamps := by
  unfold advance at advanced
  split at advanced
  next =>
    cases top : trie.pool with
    | nil =>
      rw [getNode, top] at advanced
      cases advanced
    | cons id rest =>
      rw [getNode_eq top] at advanced
      cases advanced
      have queued (trie : Trie) (id : ℕ) : (trie.enqueue id).stamps = trie.stamps := rfl
      rw [link, stamps_modifyNode, file, stamps_modifyNode, queued, stamps_modifyNode, taken,
        stamps_modifyNode] <;> intros <;> rfl
  next =>
    cases advanced
    rw [touch, stamps_modifyNode, recount, stamps_modifyNode, stamps_modifyNode] <;> intros <;> rfl

/-- So does a walk. -/
theorem walk_stamps {cursor : ℕ} {tokens : List ℤ} {path : List ℕ}
    (walked : trie.walk cursor tokens = .ok (after, path)) : after.stamps = trie.stamps := by
  induction tokens generalizing trie cursor path with
  | nil =>
    cases walked
    rfl
  | cons token rest ih =>
    rw [walk] at walked
    cases advanced : trie.advance cursor token with
    | error => simp [advanced, bind, Except.bind] at walked
    | ok step =>
      cases below : step.2.walk step.1 rest with
      | error => simp [advanced, below, bind, Except.bind] at walked
      | ok result =>
        simp only [advanced, below, bind, Except.bind] at walked
        cases walked
        exact (ih below).trans (advance_stamps advanced)

variable (formed : trie.Formed word)
include formed

/-- Squeezing ages the trie. -/
theorem Formed.squeezeLoop_ages {count : ℕ} (squeezed : trie.squeezeLoop count = .ok after) :
    Ages trie after := by
  induction count generalizing trie with
  | zero =>
    cases squeezed
    exact .refl _
  | succ count ih =>
    rw [Trie.squeezeLoop] at squeezed
    obtain empty | ⟨front, last, split⟩ := eq_nil_or_concat' trie.globalLru
    · rw [empty] at squeezed
      cases squeezed
    obtain ⟨above, parent, released, formed', dom⟩ := formed.release split
    rw [split, getLast?_append_of_ne_nil _ (cons_ne_nil _ _), dropLast_concat,
      getLast?_singleton] at squeezed
    dsimp only at squeezed
    rw [released] at squeezed
    refine .trans ?_ (ih formed' squeezed)
    refine ⟨rfl, fun tokens ref holds id isPtr => ?_⟩
    obtain ⟨retired, version, bound, found⟩ := holds id isPtr
    have differs : above ≠ last := by
      rintro rfl
      have listed : above ∈ trie.dom := mem_dom.mpr (.inr (by simp [split]))
      exact lt_irrefl _ (formed.linked.parent_eq listed parent).2.2
    rw [node_released differs]
    by_cases gone : id = last
    · refine ⟨retired + 1, ?_, Nat.succ_le_succ bound, by simp⟩
      rw [if_pos gone, UInt64.ofNat_add, ← UInt64.add_assoc, ← version, gone]
      rfl
    · refine ⟨retired, ?_, bound.trans (Nat.le_succ _), fun none => ?_⟩
      · rw [if_neg gone, ← version]
        split
        next same => rw [same]
        next => rfl
      · obtain ⟨inside, rfl⟩ := formed.find_iff.mp (found none)
        exact formed'.find_iff.mpr ⟨dom ▸ Finset.mem_erase.mpr ⟨gone, inside⟩, rfl⟩

variable {occ : List ℤ → ℕ} (tallied : trie.Tallied word occ)
include tallied

/-- So does a window. -/
theorem Formed.insertWindow_ages {window : List ℤ} (fits : window.length < trie.capacity)
    (inserted : trie.insertWindow window = .ok after) : Ages trie after := by
  obtain ⟨ready, made, formed₁, tallied₁, -, -, room, -⟩ := formed.makeRoom tallied fits
  obtain ⟨walked, path, word', found, formed₂, extended, -, inside, deeper, -, chained⟩ :=
    formed₁.walk tallied₁ ready.root_mem_dom room
  rw [← extended.root] at chained
  have moved := formed₂.promote inside deeper chained
  have isAfter : walked.promote path = after := by
    rw [Trie.insertWindow, made] at inserted
    change (ready.walk ready.root window).bind _ = _ at inserted
    rw [found] at inserted
    exact Except.ok.inj inserted
  have squeezed : Ages trie ready := by
    unfold Trie.makeRoom squeeze at made
    split at made
    next =>
      split at made
      next => exact formed.squeezeLoop_ages made
      next => cases made
    next =>
      cases made
      exact .refl trie
  have stamps := walk_stamps found
  rw [← isAfter]
  refine squeezed.trans ⟨congrArg Prod.fst stamps, fun tokens ref holds id isPtr => ?_⟩
  obtain ⟨retired, version, bound, known⟩ := holds id isPtr
  refine ⟨retired, (congrFun (congrArg Prod.snd stamps) id).trans version,
    extended.evicted ▸ bound, fun none => ?_⟩
  obtain ⟨member, rfl⟩ := formed₁.find_iff.mp (known none)
  exact moved.find_iff.mpr
    ⟨(dom_promote inside).symm ▸ extended.dom member, extended.word_eq id member⟩

/-- So do windows. -/
theorem Formed.insertWindows_ages {pending : List (List ℤ)}
    (fits : ∀ window ∈ pending, window.length < trie.capacity)
    (inserted : pending.foldlM Trie.insertWindow trie = .ok after) : Ages trie after := by
  induction pending generalizing trie word occ with
  | nil =>
    cases inserted
    exact .refl _
  | cons window rest ih =>
    obtain ⟨middle, word', first, formed', tallied', capacity, -⟩ :=
      formed.insertWindow tallied (fits window mem_cons_self)
    rw [foldlM_cons, first] at inserted
    refine (formed.insertWindow_ages tallied (fits window mem_cons_self) first).trans
      (ih formed' tallied' (fun other member => ?_) inserted)
    rw [capacity]
    exact fits other (mem_cons_of_mem _ member)

omit formed tallied

/-! ### References over time -/

/-- A reference resolves to the node of its tokens only, as long as no version wraps
around. -/
theorem Holds.resolve (holds : trie.Holds tokens ref) (small : trie.evicted < 2 ^ 64) {id : ℕ}
    (resolved : trie.resolve state ref = some id) : trie.find trie.root tokens = some id := by
  unfold Trie.resolve at resolved
  split at resolved
  next => cases resolved
  next other isPtr =>
    split at resolved
    next => cases resolved
    next current =>
      cases resolved
      obtain ⟨retired, version, bound, found⟩ := holds id isPtr
      have same : (trie.node id).version = ref.version := by tauto
      have zero : UInt64.ofNat retired = 0 := by
        rw [same] at version
        exact UInt64.add_eq_left.mp version.symm
      have value := congrArg UInt64.toNat zero
      rw [UInt64.toNat_ofNat_of_lt' (show retired < 2 ^ 64 by omega)] at value
      exact found value

/-- Anchors that resolve still hold. -/
theorem kept_holds (small : trie.evicted < 2 ^ 64) : Kept trie.Holds trie := by
  have capture : ∀ tokens, trie.Holds tokens (trie.capture (trie.find trie.root tokens)) := by
    intro tokens id isPtr
    cases found : trie.find trie.root tokens <;> rw [found] at isPtr <;> cases isPtr
    exact ⟨0, (UInt64.add_zero _).symm, Nat.zero_le _, fun _ => rfl⟩
  refine ⟨capture, fun state _ tokens token ref holds => ?_⟩
  unfold descend
  cases resolved : trie.resolve state ref with
  | none =>
    intro id isPtr
    cases isPtr
  | some id =>
    have below := find_concat trie tokens token
    rw [holds.resolve small resolved] at below
    exact below ▸ capture _

/-- A reference that walking some tokens finds. -/
def Finds (trie : Trie) (tokens : List ℤ) (ref : NodeRef) : Prop :=
  ref = trie.capture (trie.find trie.root tokens)

/-- Anchors that are found are kept. -/
theorem kept_finds (trie : Trie) : Kept trie.Finds trie := by
  refine ⟨fun _ => rfl, fun state current tokens token ref isFound => ?_⟩
  have resolved : trie.resolve state ref = trie.find trie.root tokens := by
    rw [isFound]
    cases trie.find trie.root tokens with
    | none => rfl
    | some id => simp [Trie.capture, Trie.resolve, current]
  rw [Finds, Trie.descend, resolved, find_concat]

/-- Two states that find alike are equal. -/
theorem Follows.eq_of_found {one other : MatchState} (first : Follows trie.Finds trie stream one)
    (second : Follows trie.Finds trie stream other)
    (processed : one.processedTotalLen = other.processedTotalLen) : one = other := by
  rw [MatchState.mk.injEq]
  refine ⟨first.epoch.trans second.epoch.symm, processed, ?_⟩
  refine ext_getElem (first.length.trans second.length.symm) fun i inside inside' => ?_
  exact (first.anchored i _ (getElem?_eq_getElem inside)).trans
    (second.anchored i _ (getElem?_eq_getElem inside')).symm

/-- What a match returns for a cache of a stream. -/
theorem Follows.expandable (follows : Follows trie.Holds trie stream state)
    (small : trie.evicted < 2 ^ 64) {node depth : ℕ}
    (listed : (node, depth) ∈ trie.getExpandableAnchors state) :
    0 < depth ∧ depth ≤ stream.length ∧ trie.find trie.root (stream.rtake depth) = some node ∧
      (trie.node node).child ≠ ∅ := by
  obtain ⟨anchor, member, found⟩ := mem_filterMap.mp listed
  obtain ⟨id, resolved, expands⟩ := Option.bind_eq_some_iff.mp found
  split at expands
  next => cases expands
  next grown =>
    cases expands
    obtain ⟨above, inside⟩ := mem_zipIdx_iff_le_and_getElem?_sub.mp (mem_reverse.mp member)
    have holds := follows.anchored _ _ inside
    rw [Nat.sub_add_cancel above] at holds
    obtain ⟨short, -⟩ := List.getElem?_eq_some_iff.mp inside
    rw [follows.length] at short
    exact ⟨above, by omega, holds.resolve small resolved, grown⟩

end Trie

end AvaServe.Ngram
