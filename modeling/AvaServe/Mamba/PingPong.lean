import Mathlib
import AvaServe.Foundation.Path

/-! # The two tracking slots of a decoding request

With the extra buffer a request owns two Mamba slots besides its working one. A
decode step whose sequence length is a multiple of the tracking interval writes
the state into the slot its batch recorded when it was prepared. The result is
processed later, possibly after the next decode step was prepared
(`event_loop_overlap`), and only then the request learns where its last
checkpoint is and the write index swaps. When the request finishes, the last
checkpoint's slot goes to the tree.

The swap must happen once for each boundary. It does when the result of a
boundary step is processed with the same look-ahead as the result before it
(`Tracking.donated_checkpoint_holds`), and not otherwise
(`Tracking.overlapped_first_boundary_overwrites`).

Prefill batches of other requests leave a request's tracking alone. They only
decide whether its next decode step is prepared before or after a result is
processed.
-/

namespace AvaServe.Mamba

open Foundation List Function Option

/-- What a decode batch records of a request when it is prepared. -/
structure DecodeStep where
  seqLen : ℕ
  trackIdx : Fin 2
  decodeBatchIdx : ℕ

namespace DecodeStep

variable (interval : ℕ) (step : DecodeStep)

/-- `mamba_track_mask_cpu`. -/
def mask : Prop := step.seqLen % interval = 0

/-- `mamba_track_mask_next_cpu`. -/
def maskNext : Prop := step.seqLen % interval = interval - 1

instance : Decidable (step.mask interval) := inferInstanceAs (Decidable (_ = _))

instance : Decidable (step.maskNext interval) := inferInstanceAs (Decidable (_ = _))

end DecodeStep

/-- The tracking fields of a request, for each slot the number of tokens whose
state it holds, and the launched steps whose results wait, of which the first
`executed` have run. `lookahead` records how far the request had advanced when
its last result was processed. -/
structure Tracking where
  nextTrackIdx : Fin 2
  lastTrackIdx : Fin 2
  lastTrackSeqlen : Option ℕ
  decodeBatchIdx : ℕ
  kvCommittedLen : ℕ
  state : Fin 2 → Option ℕ
  results : List DecodeStep
  executed : ℕ
  lookahead : ℕ
  finished : Bool

/-- The events of a tracked request. -/
inductive TrackEvent where
  /-- A decode step of the request is prepared and launched. -/
  | prepare
  /-- The next launched forward runs. -/
  | forward
  /-- The next result is processed, and the request finishes or goes on. -/
  | process (finish : Bool)

/-- `get_mamba_ping_pong_other_idx`. -/
def otherIdx (idx : Fin 2) : Fin 2 := 1 - idx

/-- The other slot is another. -/
theorem otherIdx_ne : ∀ idx : Fin 2, otherIdx idx ≠ idx := by decide

namespace Tracking

variable (interval : ℕ) (track : Tracking)

/-- `prepare_for_decode`. -/
def prepareForDecode : Tracking :=
  { track with
    decodeBatchIdx := track.decodeBatchIdx + 1
    kvCommittedLen := track.kvCommittedLen + 1
    results := track.results ++
      [⟨track.kvCommittedLen + 1, track.nextTrackIdx, track.decodeBatchIdx + 1⟩] }

/-- A forward writes the slot its batch recorded when its mask is set. -/
def runForward (step : DecodeStep) : Tracking :=
  { track with
    executed := track.executed + 1
    state := if step.mask interval then
        update track.state step.trackIdx (some step.seqLen)
      else track.state }

/-- Whether the last step prepared is a boundary, as far as the batch of this
result knows. -/
def knownBoundary (step : DecodeStep) : Prop :=
  if track.decodeBatchIdx - step.decodeBatchIdx = 0 then step.mask interval
  else step.maskNext interval

instance (step : DecodeStep) : Decidable (track.knownBoundary interval step) :=
  inferInstanceAs (Decidable (ite _ _ _))

/-- The checkpoint of a completed boundary, from the batch's own record. -/
def recordBoundary (step : DecodeStep) : Tracking :=
  if step.mask interval then
    { track with
      lastTrackIdx := step.trackIdx
      lastTrackSeqlen :=
        some (track.kvCommittedLen - (track.decodeBatchIdx - step.decodeBatchIdx)) }
  else track

/-- `_handle_finish_state_updated_req` with `_mamba_prefix_cache_update`. -/
def handleResult (step : DecodeStep) (rest : List DecodeStep) (finish : Bool) : Tracking :=
  { track.recordBoundary interval step with
    nextTrackIdx := if track.knownBoundary interval step then otherIdx track.nextTrackIdx
      else track.nextTrackIdx
    results := rest
    executed := track.executed - 1
    lookahead := track.decodeBatchIdx - step.decodeBatchIdx
    finished := finish }

/-- One event of the overlap loop. At most one later step is prepared before a
result is processed, and a result is there once its forward has run. -/
def next : TrackEvent → Option Tracking
  | .prepare =>
    if track.finished ∨ 2 ≤ track.results.length then none else some track.prepareForDecode
  | .forward => track.results[track.executed]?.map (track.runForward interval)
  | .process finish =>
    match track.results with
    | [] => none
    | step :: rest =>
      if track.finished ∨ track.executed = 0 then none
      else some (track.handleResult interval step rest finish)

/-- The launched forwards that have not run. -/
def inFlight : List DecodeStep := track.results.drop track.executed

/-- The slot of the last checkpoint holds the state it claims, and no launched
forward will write it. -/
def Donates : Prop :=
  ∀ seqLen, track.lastTrackSeqlen = some seqLen → track.state track.lastTrackIdx = some seqLen ∧
      ∀ step ∈ track.inFlight, step.mask interval → step.trackIdx ≠ track.lastTrackIdx

/-- A request about to decode: nothing is launched, and the write index is not
the last checkpoint's. -/
structure Started : Prop where
  results : track.results = []
  executed : track.executed = 0
  lookahead : track.lookahead = 0
  apart : track.nextTrackIdx ≠ track.lastTrackIdx
  kept : ∀ seqLen, track.lastTrackSeqlen = some seqLen →
    track.state track.lastTrackIdx = some seqLen

/-- The result of a boundary step is processed with the look-ahead of the result
before it. -/
def Steady : TrackEvent → Prop
  | .process _ => ∀ step ∈ track.results.head?, step.mask interval →
      track.decodeBatchIdx - step.decodeBatchIdx = track.lookahead
  | _ => True

/-- Where the write index stands. Only a boundary step that was prepared before
the result preceding it was processed has had its swap already. -/
def Placed (step : DecodeStep) : Prop :=
  step.trackIdx ≠ track.lastTrackIdx ∧ track.lookahead ≤ 1 ∧
    (track.nextTrackIdx = step.trackIdx ↔ ¬ (track.lookahead = 1 ∧ step.mask interval))

/-- The waiting results, by their number. -/
def Shape : Prop :=
  match track.results with
  | [] => track.lookahead = 0 ∧ track.nextTrackIdx ≠ track.lastTrackIdx
  | [step] => step.seqLen = track.kvCommittedLen ∧ step.decodeBatchIdx = track.decodeBatchIdx ∧
      track.Placed interval step
  | [step, later] => step.seqLen + 1 = track.kvCommittedLen ∧
      step.decodeBatchIdx + 1 = track.decodeBatchIdx ∧ track.Placed interval step ∧
      later.seqLen = track.kvCommittedLen ∧ later.decodeBatchIdx = track.decodeBatchIdx ∧
      later.trackIdx = track.nextTrackIdx
  | _ => False

/-- What every event keeps. -/
structure Tracked : Prop where
  shape : track.Shape interval
  executed : track.executed ≤ track.results.length
  kept : ∀ seqLen, track.lastTrackSeqlen = some seqLen →
    track.state track.lastTrackIdx = some seqLen
  written : ∀ step ∈ track.results.take track.executed, step.mask interval →
    track.state step.trackIdx = some step.seqLen

variable {interval track}

/-- A started request is tracked. -/
theorem Started.tracked (started : track.Started) : track.Tracked interval where
  shape := by
    rw [Shape, started.results]
    exact ⟨started.lookahead, started.apart⟩
  executed := by rw [started.executed]; exact Nat.zero_le _
  kept := started.kept
  written := by
    rw [started.results, take_nil]
    exact fun step absurd => (not_mem_nil absurd).elim

variable {step later : DecodeStep}

/-- Two steps in a row are not both boundaries. -/
theorem not_mask_of_succ (wide : 1 < interval) (consecutive : later.seqLen = step.seqLen + 1)
    (boundary : later.mask interval) : ¬ step.mask interval := by
  intro earlier
  rw [DecodeStep.mask, consecutive, Nat.add_mod, earlier, zero_add, Nat.mod_mod,
    Nat.mod_eq_of_lt wide] at boundary
  exact one_ne_zero boundary

/-- The next step's mask. -/
theorem maskNext_iff (wide : 1 < interval) (consecutive : later.seqLen = step.seqLen + 1) :
    step.maskNext interval ↔ later.mask interval := by
  have bound := Nat.mod_lt step.seqLen (Nat.zero_lt_of_lt wide)
  rw [DecodeStep.maskNext, DecodeStep.mask, consecutive]
  constructor
  · intro last
    rw [← Nat.mod_add_mod, last, Nat.sub_add_cancel wide.le, Nat.mod_self]
  · intro boundary
    by_contra other
    rw [← Nat.mod_add_mod, Nat.mod_eq_of_lt (by omega)] at boundary
    omega

/-- The results that wait, one by one. -/
theorem Shape.cases (shape : track.Shape interval) :
    track.results = [] ∨ (∃ step, track.results = [step]) ∨
      ∃ step later, track.results = [step, later] := by
  rw [Shape] at shape
  split at shape
  · exact .inl ‹_›
  · exact .inr (.inl ⟨_, ‹_›⟩)
  · exact .inr (.inr ⟨_, _, ‹_›⟩)
  · exact shape.elim

/-- No boundary step that waits writes the last checkpoint. -/
theorem Shape.apart (wide : 1 < interval) (shape : track.Shape interval) :
    ∀ step ∈ track.results, step.mask interval → step.trackIdx ≠ track.lastTrackIdx := by
  intro found listed boundary
  obtain none | ⟨step, one⟩ | ⟨step, later, two⟩ := shape.cases
  · rw [none] at listed
    exact (not_mem_nil listed).elim
  · rw [Shape, one] at shape
    rw [one, mem_singleton] at listed
    rw [listed]
    exact shape.2.2.1
  · rw [Shape, two] at shape
    obtain ⟨first, _, placed, second, _, index⟩ := shape
    rw [two, mem_cons, mem_singleton] at listed
    rcases listed with rfl | rfl
    · exact placed.1
    · have plain := not_mask_of_succ wide (second.trans first.symm) boundary
      rw [index, placed.2.2.mpr fun swapped => plain swapped.2]
      exact placed.1

variable (wide : 1 < interval) (tracked : track.Tracked interval)

include wide tracked in
/-- A tracked request donates what it says. -/
theorem Tracked.donates : track.Donates interval := fun seqLen set =>
  ⟨tracked.kept seqLen set, fun step launched =>
    tracked.shape.apart wide step (mem_of_mem_drop launched)⟩

/-- Preparing keeps it tracked. -/
theorem Tracked.prepareForDecode (tracked : track.Tracked interval)
    (few : track.results.length < 2) : track.prepareForDecode.Tracked interval where
  shape := by
    obtain ⟨shape, _, _, _⟩ := tracked
    obtain none | ⟨step, one⟩ | ⟨step, later, two⟩ := shape.cases
    · rw [Shape, none] at shape
      rw [Tracking.prepareForDecode, none]
      refine ⟨rfl, rfl, shape.2, shape.1.le.trans (Nat.zero_le 1), ?_⟩
      exact iff_of_true rfl fun swapped => zero_ne_one (shape.1.symm.trans swapped.1)
    · rw [Shape, one] at shape
      rw [Tracking.prepareForDecode, one]
      exact ⟨congrArg (· + 1) shape.1, congrArg (· + 1) shape.2.1, shape.2.2, rfl, rfl, rfl⟩
    · rw [two] at few
      exact (lt_irrefl _ few).elim
  executed := tracked.executed.trans (by simp [Tracking.prepareForDecode])
  kept := tracked.kept
  written := by
    rw [Tracking.prepareForDecode, take_append_of_le_length tracked.executed]
    exact tracked.written

include wide tracked in
/-- So does a forward. -/
theorem Tracked.runForward (launched : track.results[track.executed]? = some step) :
    (track.runForward interval step).Tracked interval := by
  obtain ⟨inside, equal⟩ := List.getElem?_eq_some_iff.mp launched
  have listed : step ∈ track.results := equal ▸ getElem_mem inside
  refine ⟨tracked.shape, inside, ?_, ?_⟩
  · intro seqLen set
    simp only [Tracking.runForward]
    split
    next boundary =>
      rw [update_of_ne (tracked.shape.apart wide step listed boundary).symm]
      exact tracked.kept seqLen set
    next => exact tracked.kept seqLen set
  · simp only [Tracking.runForward]
    intro found run boundary
    rw [take_add_one, launched, toList_some, mem_append, mem_singleton] at run
    rcases run with earlier | rfl
    · -- an earlier boundary that waits with this step excludes that this one is a boundary
      have plain : ¬ step.mask interval := by
        obtain none | ⟨first, one⟩ | ⟨first, second, two⟩ := tracked.shape.cases
        · rw [none] at listed
          exact (not_mem_nil listed).elim
        · rw [one, length_singleton, Nat.lt_one_iff] at inside
          rw [inside] at earlier
          exact (not_mem_nil earlier).elim
        · have shape := tracked.shape
          rw [Shape, two] at shape
          rw [two, length_cons, length_singleton] at inside
          have ran : track.executed = 1 := by
            by_contra other
            rw [show track.executed = 0 by omega] at earlier
            exact (not_mem_nil earlier).elim
          rw [two, ran, take_succ_cons, take_zero, mem_singleton] at earlier
          rw [two, ran] at launched
          rw [← some.inj launched]
          intro later
          rw [earlier] at boundary
          exact not_mask_of_succ wide (shape.2.2.2.1.trans shape.1.symm) later boundary
      rw [if_neg plain]
      exact tracked.written found earlier boundary
    · rw [if_pos boundary, update_self]

/-- The write index after a result without a later step: the boundary swaps it. -/
theorem Shape.handleLast (shape : track.Shape interval) (waiting : track.results = [step])
    (finish : Bool)
    (steady : step.mask interval → track.decodeBatchIdx - step.decodeBatchIdx = track.lookahead) :
    (track.handleResult interval step [] finish).Shape interval := by
  rw [Shape, waiting] at shape
  obtain ⟨_, sameIdx, apart, _, unswapped⟩ := shape
  have current : track.decodeBatchIdx - step.decodeBatchIdx = 0 := by omega
  refine ⟨current, ?_⟩
  simp only [handleResult, knownBoundary, current, if_true, recordBoundary]
  split
  next boundary =>
    rw [unswapped.mpr fun swapped => by
      have := steady boundary
      omega]
    exact otherIdx_ne step.trackIdx
  next plain =>
    rw [unswapped.mpr fun swapped => plain swapped.2]
    exact apart

/-- The write index after a result with a later step: the later step swaps it. -/
theorem Shape.handleFirst (wide : 1 < interval) (shape : track.Shape interval)
    (waiting : track.results = [step, later]) (finish : Bool)
    (steady : step.mask interval → track.decodeBatchIdx - step.decodeBatchIdx = track.lookahead) :
    (track.handleResult interval step [later] finish).Shape interval := by
  rw [Shape, waiting] at shape
  obtain ⟨first, firstIdx, ⟨apart, _, unswapped⟩, second, secondIdx, index⟩ := shape
  have ahead : track.decodeBatchIdx - step.decodeBatchIdx = 1 := by omega
  have known : track.knownBoundary interval step ↔ later.mask interval := by
    rw [knownBoundary, ahead]
    exact maskNext_iff wide (second.trans first.symm)
  have fields : (track.recordBoundary interval step).kvCommittedLen = track.kvCommittedLen ∧
      (track.recordBoundary interval step).decodeBatchIdx = track.decodeBatchIdx := by
    rw [recordBoundary]
    split <;> exact ⟨rfl, rfl⟩
  refine ⟨second.trans fields.1.symm, secondIdx.trans fields.2.symm, ?_, ahead.le, ?_⟩
  · simp only [handleResult, index, recordBoundary]
    split
    next boundary =>
      intro same
      exact unswapped.mp same ⟨by rw [← steady boundary, ahead], boundary⟩
    next plain =>
      rw [unswapped.mpr fun swapped => plain swapped.2]
      exact apart
  · simp only [handleResult, known, ahead, index, true_and]
    split
    next boundary => exact iff_of_false (otherIdx_ne _) fun absurd => absurd boundary
    next plain => exact iff_of_true rfl plain

section

include wide tracked

/-- So does a result. -/
theorem Tracked.handleResult {rest : List DecodeStep} (waiting : track.results = step :: rest)
    (ran : track.executed ≠ 0) (finish : Bool)
    (steady : step.mask interval → track.decodeBatchIdx - step.decodeBatchIdx = track.lookahead) :
    (track.handleResult interval step rest finish).Tracked interval := by
  have shape := tracked.shape
  have executed := tracked.executed
  have run : track.results.take track.executed = step :: rest.take (track.executed - 1) := by
    rw [waiting, ← Nat.succ_pred_eq_of_ne_zero ran]
    rfl
  have states : (track.recordBoundary interval step).state = track.state := by
    rw [recordBoundary]
    split <;> rfl
  have positioned : (track.handleResult interval step rest finish).Shape interval ∧
      track.kvCommittedLen - (track.decodeBatchIdx - step.decodeBatchIdx) = step.seqLen := by
    obtain none | ⟨first, one⟩ | ⟨first, second, two⟩ := shape.cases
    · exact (cons_ne_nil step rest (waiting.symm.trans none)).elim
    · obtain ⟨rfl, rfl⟩ := cons.inj (one.symm.trans waiting)
      refine ⟨shape.handleLast waiting finish steady, ?_⟩
      rw [Shape, one] at shape
      omega
    · obtain ⟨rfl, rfl⟩ := cons.inj (two.symm.trans waiting)
      refine ⟨shape.handleFirst wide waiting finish steady, ?_⟩
      rw [Shape, two] at shape
      omega
  refine ⟨positioned.1, ?_, ?_, ?_⟩
  · rw [waiting] at executed
    exact Nat.sub_le_of_le_add executed
  · intro seqLen set
    simp only [Tracking.handleResult, recordBoundary, positioned.2] at set ⊢
    split at set
    next boundary =>
      rw [if_pos boundary, ← some.inj set]
      exact tracked.written step (run ▸ mem_cons_self) boundary
    next plain =>
      rw [if_neg plain]
      exact tracked.kept seqLen set
  · intro found earlier
    simp only [Tracking.handleResult, states]
    exact tracked.written found (run ▸ mem_cons_of_mem step earlier)

/-- **An event keeps the tracking in order** when boundary results are processed
steadily. -/
theorem Tracked.next
    {event : TrackEvent} {after : Tracking} (taken : track.next interval event = some after)
    (steady : track.Steady interval event) : after.Tracked interval := by
  cases event with
  | prepare =>
    rw [Tracking.next] at taken
    split at taken
    · exact (some_ne_none after taken.symm).elim
    next open_ =>
      rw [← some.inj taken]
      exact tracked.prepareForDecode (Nat.lt_of_not_le fun full => open_ (.inr full))
  | forward =>
    obtain ⟨step, launched, equal⟩ := map_eq_some_iff.mp taken
    rw [← equal]
    exact tracked.runForward wide launched
  | process finish =>
    rw [Tracking.next] at taken
    split at taken
    · exact (some_ne_none after taken.symm).elim
    next step rest waiting =>
      split at taken
      · exact (some_ne_none after taken.symm).elim
      next ready =>
        rw [← some.inj taken]
        refine tracked.handleResult wide waiting (fun idle => ready (.inr idle)) finish ?_
        rw [Steady, waiting] at steady
        exact steady step rfl

end

/-- **The donated checkpoint is the state it claims to be.** In every run whose
boundary results are processed with the look-ahead of the result before, a
request that has a checkpoint, and so one that finishes with it, has it in a slot
that holds the state after exactly that many tokens, and no launched forward will
write that slot. -/
theorem donated_checkpoint_holds (wide : 1 < interval) {source target : Tracking}
    (started : source.Started) {events : List TrackEvent}
    (run : Path (fun before event after => before.next interval event = some after ∧
      before.Steady interval event) source events target) : target.Donates interval :=
  have tracked := run.invariant (fun track => track.Tracked interval)
    (fun _ _ _ step tracked => tracked.next wide step.1 step.2) started.tracked
  tracked.donates wide

/-- A request after a prompt of so many tokens, without a checkpoint. -/
def afterPrompt (tokens : ℕ) : Tracking where
  nextTrackIdx := 0
  lastTrackIdx := 1
  lastTrackSeqlen := none
  decodeBatchIdx := 0
  kvCommittedLen := tokens
  state _ := none
  results := []
  executed := 0
  lookahead := 0
  finished := false

/-- The third step finishes. -/
theorem donated_checkpoint_holds_third_step :
    ∃ target, Path (fun before event after => before.next 2 event = some after ∧
        before.Steady 2 event) (afterPrompt 2)
        [.prepare, .prepare, .forward, .process false, .prepare, .forward, .process true] target ∧
      target.lastTrackSeqlen = some 4 ∧ target.Donates 2 := by
  have started : (afterPrompt 2).Started :=
    ⟨rfl, rfl, rfl, by decide, fun _ set => (some_ne_none _ set.symm).elim⟩
  refine Exists.imp (fun target (found : _ ∧ _) =>
    ⟨found.1, found.2, donated_checkpoint_holds (by decide) started found.1⟩) ?_
  exact ⟨_, .cons ⟨rfl, trivial⟩ <| .cons ⟨rfl, trivial⟩ <| .cons ⟨rfl, trivial⟩ <|
    .cons ⟨rfl, fun _ listed boundary => by cases listed; exact absurd boundary (by decide)⟩ <|
      .cons ⟨rfl, trivial⟩ <| .cons ⟨rfl, trivial⟩ <|
        .cons ⟨rfl, fun _ listed _ => by cases listed; rfl⟩ <| .nil _, rfl⟩

/-- With an interval of two, a prompt of one token and results processed one step
late, the first boundary is never swapped: the request finishes with the
checkpoint of two tokens in the slot that the launched fourth-token step writes. -/
theorem overlapped_first_boundary_overwrites :
    ∃ target, Path (fun before event after => before.next 2 event = some after) (afterPrompt 1)
        [.prepare, .prepare, .forward, .process false, .prepare, .forward, .process true] target ∧
      target.finished = true ∧ target.lastTrackSeqlen = some 2 ∧ target.lastTrackIdx = 0 ∧
      target.inFlight.map (fun step => (step.seqLen, step.trackIdx)) = [(4, 0)] ∧
      ¬ target.Donates 2 := by
  refine ⟨_, .cons rfl <| .cons rfl <| .cons rfl <| .cons rfl <| .cons rfl <| .cons rfl <|
    .cons rfl <| .nil _, rfl, rfl, rfl, rfl, fun donates => ?_⟩
  exact (donates 2 rfl).2 ⟨4, 0, 3⟩ mem_cons_self rfl rfl

end Tracking

end AvaServe.Mamba
