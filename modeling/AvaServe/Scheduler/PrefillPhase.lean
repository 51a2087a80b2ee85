import AvaServe.Foundation.Path

/-!
# Phased prefill and decode scheduling

The scheduler's queue gate (`--pp-prefill-delay-min-tokens`): a three-phase
state machine that `get_next_batch_to_run` consults before it admits prefill
work, together with the two other deferral mechanisms of the same pass and the
counters that the batch of the pass updates. The waiting queue, the chunked
request in flight, the size of the running batch and the batch that the rest of
the pass returns are inputs of a pass.

A pass holds prefill work when the gate answers `true`. The main result bounds
how often that happens in a row; it needs every exhausted decode phase to find
uncached work, because a waiting request whose whole input is cached counts as
no work at all.
-/

namespace AvaServe.Scheduler

open Foundation List Option Prod

/-- Phased prefill/decode scheduling state. -/
inductive PrefillPhase
  | decide
  | decode
  | prefill
  deriving DecidableEq, Repr

/-- The fields of a request that the gate and the prefix match read or write. -/
structure QueuedReq where
  originInputIds : List ℕ
  outputIds : List ℕ
  prefixIndices : List ℕ := []
  hostHitLength : ℕ := 0
  numMatchedPrefixTokens : ℕ := 0
  returnLogprob : Bool := false
  logprobStartLen : ℤ := -1
  deriving DecidableEq, Repr

/-- What a prefix match of the tree cache reports about a token sequence. -/
structure PrefixMatch where
  deviceIndices : List ℕ
  hostHitLength : ℕ

/-- The part of a tree cache that the prefix match of a request uses. -/
structure PrefixMatcher where
  matchPrefix : (tokenIds : List ℕ) → (limit : Option ℕ) → PrefixMatch
  swaReprefillTailTokens : ℕ

/-- The matched length is at most one less than the input length. -/
def QueuedReq.computeMaxPrefixLen (req : QueuedReq) (inputLen : ℕ) : ℕ :=
  let maxPrefixLen : ℤ := inputLen - 1
  let maxPrefixLen :=
    if req.returnLogprob ∧ 0 ≤ req.logprobStartLen then min maxPrefixLen req.logprobStartLen
    else maxPrefixLen
  (max maxPrefixLen 0).toNat

/-- Match the prefix of a request and record how many of its tokens matched. -/
def matchPrefixForReq (treeCache : PrefixMatcher) (req : QueuedReq) : QueuedReq :=
  let tokenIds := req.originInputIds ++ req.outputIds
  let reprefillTail := treeCache.swaReprefillTailTokens
  let keyLimit := if reprefillTail ≠ 0 then some (tokenIds.length - reprefillTail) else none
  let matchResult := treeCache.matchPrefix tokenIds keyLimit
  let maxLen := req.computeMaxPrefixLen tokenIds.length
  { req with
    prefixIndices := matchResult.deviceIndices
    hostHitLength := matchResult.hostHitLength
    numMatchedPrefixTokens :=
      min (matchResult.deviceIndices.length + matchResult.hostHitLength) maxLen }

/-- The server arguments that a scheduling pass reads. -/
structure PhaseConfig where
  ppPrefillDelayMinTokens : ℤ
  ppPrefillDelayMaxPasses : ℤ
  chunkedPrefillSize : Option ℤ
  prefillDecodeInterval : ℤ := 0
  numContinuousDecodeSteps : ℤ := 1
  requireMlpSync : Bool := false

/-- The scheduler fields that the deferral mechanisms of a pass keep. -/
structure PhaseState where
  prefillPhase : PrefillPhase := .decide
  phaseBudgetPasses : ℤ := 0
  prefillDecodeIntervalRemaining : ℤ := 0
  continuousDecodeCount : ℤ := 0
  deriving DecidableEq, Repr

/-- The part of a scheduled batch that the counters read. -/
structure PassBatch where
  forwardModeIsExtend : Bool
  isExtendInBatch : Bool
  deriving DecidableEq, Repr

/-- The inputs of one scheduling pass, the last one being the batch that the
pass returns. -/
structure Pass where
  runningReqs : ℕ
  waitingQueue : List QueuedReq
  chunkedReq : Option QueuedReq
  batch : Option PassBatch
  deriving DecidableEq, Repr

/-- Estimated uncached prefill work in the waiting queue. -/
def waitingQueueUncachedTokens (waitingQueue : List QueuedReq) (earlyExitAt : ℕ) : ℕ :=
  go 0 waitingQueue
where
  go (total : ℕ) : List QueuedReq → ℕ
    | [] => total
    | r :: rest =>
      let total := total + (r.originInputIds.length - r.numMatchedPrefixTokens)
      if earlyExitAt ≠ 0 ∧ earlyExitAt ≤ total then total else go total rest

/-- Estimated uncached prefill work pending: the waiting queue plus the
remaining chunks of an in-flight chunked prefill. -/
def pendingPrefillTokens (pass : Pass) : ℕ :=
  let total := waitingQueueUncachedTokens pass.waitingQueue 0
  match pass.chunkedReq with
  | none => total
  | some req => total + (req.originInputIds.length - req.prefixIndices.length)

/-- Open a prefill phase that covers the pending work. Without a chunk size the
comparison with zero raises. -/
def enterPrefillPhase (config : PhaseConfig) (state : PhaseState) (uncachedTokens : ℕ) :
    Option PhaseState :=
  config.chunkedPrefillSize.map fun chunk =>
    let budget : ℤ := if 0 < chunk then max 1 ((uncachedTokens + chunk - 1) / chunk) else 1
    { state with prefillPhase := .prefill, phaseBudgetPasses := budget }

/-- Decide whether this pass holds prefill work back. -/
def shouldHoldPrefillForQueue (config : PhaseConfig) (state : PhaseState) (pass : Pass) :
    Option (Bool × PhaseState) :=
  if config.ppPrefillDelayMinTokens ≤ 0 then
    some (false, state)
  else if pass.runningReqs = 0 ∨ (pass.waitingQueue.length = 0 ∧ pass.chunkedReq = none) then
    some (false, { state with prefillPhase := .decide })
  else
    let transition : Option PhaseState :=
      match state.prefillPhase with
      | .decide =>
        if config.ppPrefillDelayMinTokens ≤ pendingPrefillTokens pass then
          enterPrefillPhase config state (pendingPrefillTokens pass)
        else
          some { state with
            prefillPhase := .decode
            phaseBudgetPasses := config.ppPrefillDelayMaxPasses }
      | .decode =>
        if state.phaseBudgetPasses ≤ 0 then
          if 0 < pendingPrefillTokens pass then
            enterPrefillPhase config state (pendingPrefillTokens pass)
          else
            some { state with phaseBudgetPasses := config.ppPrefillDelayMaxPasses }
        else
          some state
      | .prefill => some state
    transition.map fun next => (decide (next.prefillPhase = .decode), next)

/-- Count the batch of a pass against the current phase. -/
def trackPrefillPhase (state : PhaseState) (batch : Option PassBatch) : PhaseState :=
  match batch with
  | none => state
  | some batch =>
    if batch.forwardModeIsExtend then
      if state.prefillPhase = .prefill then
        let budget := state.phaseBudgetPasses - 1
        { state with
          phaseBudgetPasses := budget
          prefillPhase := if budget ≤ 0 then .decide else .prefill }
      else
        state
    else if state.prefillPhase = .decode then
      { state with phaseBudgetPasses := state.phaseBudgetPasses - 1 }
    else
      state

/-- Consume one pass of the prefill/decode interval, if any is left. -/
def shouldDeferPrefill (state : PhaseState) : Bool × PhaseState :=
  if state.prefillDecodeIntervalRemaining = 0 then (false, state)
  else
    (true, { state with
      prefillDecodeIntervalRemaining := state.prefillDecodeIntervalRemaining - 1 })

/-- Honour `--num-continuous-decode-steps`. -/
def shouldContinueDecode (config : PhaseConfig) (state : PhaseState) (pass : Pass) : Bool :=
  decide (1 < config.numContinuousDecodeSteps ∧
    state.continuousDecodeCount < config.numContinuousDecodeSteps ∧
    pass.runningReqs ≠ 0 ∧ pass.chunkedReq = none)

/-- Count consecutive decode batches. -/
def trackContinuousDecode (state : PhaseState) (batch : Option PassBatch) : PhaseState :=
  match batch with
  | none => { state with continuousDecodeCount := 0 }
  | some batch =>
    if batch.forwardModeIsExtend then { state with continuousDecodeCount := 0 }
    else { state with continuousDecodeCount := state.continuousDecodeCount + 1 }

/-- After an extend batch, the next passes of the interval run decode only. -/
def armPrefillDecodeInterval (config : PhaseConfig) (state : PhaseState)
    (batch : Option PassBatch) : PhaseState :=
  match batch with
  | none => state
  | some batch =>
    if config.prefillDecodeInterval = 0 then state
    else
      let isExtend :=
        if config.requireMlpSync then batch.isExtendInBatch else batch.forwardModeIsExtend
      if isExtend then
        { state with prefillDecodeIntervalRemaining := config.prefillDecodeInterval }
      else state

/-- The counter updates at the end of a pass. -/
def trackBatch (config : PhaseConfig) (state : PhaseState) (batch : Option PassBatch) :
    PhaseState :=
  let state := armPrefillDecodeInterval config state batch
  let state := trackContinuousDecode state batch
  trackPrefillPhase state batch

/-- The deferral decisions and counter updates of one scheduling pass. The
verdict is the gate's answer, or `none` when an earlier check skipped it. -/
def getNextBatchToRun (config : PhaseConfig) (state : PhaseState) (pass : Pass) :
    Option (Option Bool × PhaseState) :=
  let deferred := shouldDeferPrefill state
  if deferred.1 then
    some (none, trackBatch config deferred.2 pass.batch)
  else if shouldContinueDecode config deferred.2 pass then
    some (none, trackBatch config deferred.2 pass.batch)
  else
    (shouldHoldPrefillForQueue config deferred.2 pass).map fun held =>
      (some held.1, trackBatch config held.2 pass.batch)

/-! ## Pending work -/

/-- Without a limit the loop adds up. -/
theorem waitingQueueUncachedTokens_go (total : ℕ) (waitingQueue : List QueuedReq) :
    waitingQueueUncachedTokens.go 0 total waitingQueue = total + (waitingQueue.map fun r =>
        r.originInputIds.length - r.numMatchedPrefixTokens).sum := by
  induction waitingQueue generalizing total with
  | nil => rfl
  | cons r rest ih =>
    simp only [waitingQueueUncachedTokens.go, ne_eq, not_true_eq_false, false_and, ↓reduceIte,
      ih, map_cons, sum_cons]
    omega

/-- Some waiting request, or the chunked request in flight, still has input
tokens outside its matched prefix. -/
def UncachedWork (pass : Pass) : Prop :=
  (∃ r ∈ pass.waitingQueue, r.numMatchedPrefixTokens < r.originInputIds.length) ∨
    ∃ r, pass.chunkedReq = some r ∧ r.prefixIndices.length < r.originInputIds.length

/-- There is work if a request is not all cached. -/
theorem waitingQueueUncachedTokens_pos_iff (waitingQueue : List QueuedReq) :
    0 < waitingQueueUncachedTokens waitingQueue 0 ↔
      ∃ r ∈ waitingQueue, r.numMatchedPrefixTokens < r.originInputIds.length := by
  unfold waitingQueueUncachedTokens
  rw [waitingQueueUncachedTokens_go, zero_add, pos_iff_ne_zero, ne_eq, sum_eq_zero_iff]
  simp [Nat.sub_eq_zero_iff_le]

/-- The pending estimate is zero exactly when all work in sight is cached. -/
theorem pendingPrefillTokens_pos_iff (pass : Pass) :
    0 < pendingPrefillTokens pass ↔ UncachedWork pass := by
  unfold pendingPrefillTokens UncachedWork
  rw [← waitingQueueUncachedTokens_pos_iff]
  cases pass.chunkedReq with
  | none => simp
  | some r => simp

/-! ## What one pass does to the phase -/

variable (config : PhaseConfig) (state : PhaseState) (batch : Option PassBatch)

/-- Arming keeps the phase. -/
@[simp] theorem armPrefillDecodeInterval_prefillPhase :
    (armPrefillDecodeInterval config state batch).prefillPhase = state.prefillPhase := by
  unfold armPrefillDecodeInterval
  grind

/-- It keeps the budget. -/
@[simp] theorem armPrefillDecodeInterval_phaseBudgetPasses :
    (armPrefillDecodeInterval config state batch).phaseBudgetPasses = state.phaseBudgetPasses := by
  unfold armPrefillDecodeInterval
  grind

/-- Tracking keeps the phase. -/
@[simp] theorem trackContinuousDecode_prefillPhase :
    (trackContinuousDecode state batch).prefillPhase = state.prefillPhase := by
  unfold trackContinuousDecode
  grind

/-- It keeps the budget. -/
@[simp] theorem trackContinuousDecode_phaseBudgetPasses :
    (trackContinuousDecode state batch).phaseBudgetPasses = state.phaseBudgetPasses := by
  unfold trackContinuousDecode
  grind

/-- What the batch of a pass leaves of the phase and its budget. -/
def phaseAfterBatch (phase : PrefillPhase) (budget : ℤ) (batch : Option PassBatch) :
    PrefillPhase × ℤ :=
  match batch, phase with
  | some ⟨true, _⟩, .prefill => (if budget - 1 ≤ 0 then .decide else .prefill, budget - 1)
  | some ⟨false, _⟩, .decode => (.decode, budget - 1)
  | _, _ => (phase, budget)

/-- `next` is what counting the batch leaves of the phase and budget of `state`. -/
structure CountsBatch (state : PhaseState) (batch : Option PassBatch) (next : PhaseState) :
    Prop where
  phase : next.prefillPhase = (phaseAfterBatch state.prefillPhase state.phaseBudgetPasses batch).1
  budget : next.phaseBudgetPasses =
    (phaseAfterBatch state.prefillPhase state.phaseBudgetPasses batch).2

/-- A batch is counted. -/
theorem countsBatch_trackBatch : CountsBatch state batch (trackBatch config state batch) := by
  constructor
  all_goals
    unfold trackBatch trackPrefillPhase phaseAfterBatch
    rcases batch with _ | ⟨_ | _, _⟩ <;> cases phase : state.prefillPhase <;> simp [phase]

variable {state next last : PhaseState} {config : PhaseConfig} {record : Pass × Option Bool}

/-- A pass either skips the gate and only counts its batch, or asks the gate and
then counts its batch. -/
theorem getNextBatchToRun_cases {pass : Pass} {verdict : Option Bool}
    (ran : getNextBatchToRun config state pass = some (verdict, next)) :
    (verdict = none ∧ CountsBatch state pass.batch next) ∨
    ∃ held middle, verdict = some held ∧
      shouldHoldPrefillForQueue config state pass = some (held, middle) ∧
      CountsBatch middle pass.batch next := by
  unfold getNextBatchToRun shouldDeferPrefill at ran
  by_cases idle : state.prefillDecodeIntervalRemaining = 0
  · simp only [idle, ↓reduceIte, Bool.false_eq_true] at ran
    split at ran
    · obtain ⟨rfl, rfl⟩ := mk.inj (some.inj ran)
      exact .inl ⟨rfl, countsBatch_trackBatch config state pass.batch⟩
    · obtain ⟨⟨held, middle⟩, asked, answer⟩ := map_eq_some_iff.mp ran
      obtain ⟨rfl, rfl⟩ := mk.inj answer
      exact .inr ⟨held, middle, rfl, asked, countsBatch_trackBatch config middle pass.batch⟩
  · simp only [idle] at ran
    obtain ⟨rfl, rfl⟩ := mk.inj (some.inj ran)
    have counted := countsBatch_trackBatch config { state with
      prefillDecodeIntervalRemaining := state.prefillDecodeIntervalRemaining - 1 } pass.batch
    exact .inl ⟨rfl, counted.phase, counted.budget⟩

/-- A prefill phase starts with a budget. -/
theorem enterPrefillPhase_some {tokens : ℕ}
    (entered : enterPrefillPhase config state tokens = some next) :
    next.prefillPhase = .prefill ∧ 1 ≤ next.phaseBudgetPasses := by
  obtain ⟨chunk, _, rfl⟩ := map_eq_some_iff.mp entered
  refine ⟨rfl, ?_⟩
  split
  · exact le_max_left _ _
  · exact le_rfl

/-- There is decode work to protect and prefill work waiting. -/
structure Pass.Contended (pass : Pass) : Prop where
  running : pass.runningReqs ≠ 0
  waiting : pass.waitingQueue ≠ [] ∨ pass.chunkedReq ≠ none

/-- The answers an enabled gate can give while work waits on both sides. -/
inductive GateAnswer (config : PhaseConfig) (state : PhaseState) (pass : Pass) :
    Bool → PhaseState → Prop
  | stayPrefill : state.prefillPhase = .prefill → GateAnswer config state pass false state
  | enterPrefill {next : PhaseState} : state.prefillPhase ≠ .prefill →
      next.prefillPhase = .prefill → 1 ≤ next.phaseBudgetPasses →
      GateAnswer config state pass false next
  | enterDecode : state.prefillPhase = .decide → GateAnswer config state pass true
        { state with
          prefillPhase := .decode
          phaseBudgetPasses := config.ppPrefillDelayMaxPasses }
  | stayDecode : state.prefillPhase = .decode → 0 < state.phaseBudgetPasses →
      GateAnswer config state pass true state
  | rearmDecode : state.prefillPhase = .decode → state.phaseBudgetPasses ≤ 0 →
      pendingPrefillTokens pass = 0 →
      GateAnswer config state pass true
        { state with phaseBudgetPasses := config.ppPrefillDelayMaxPasses }

variable (enabled : 0 < config.ppPrefillDelayMinTokens)

include enabled in
/-- The answers of the gate. -/
theorem shouldHoldPrefillForQueue_cases {pass : Pass} {held : Bool} (contended : pass.Contended)
    (asked : shouldHoldPrefillForQueue config state pass = some (held, next)) :
    GateAnswer config state pass held next := by
  have busy : ¬ (pass.runningReqs = 0 ∨
      (pass.waitingQueue.length = 0 ∧ pass.chunkedReq = none)) := by
    rintro (stopped | ⟨noQueue, noChunk⟩)
    · exact contended.running stopped
    · exact contended.waiting.elim (· (length_eq_zero_iff.mp noQueue)) (· noChunk)
  simp only [shouldHoldPrefillForQueue, not_le.mpr enabled, busy] at asked
  obtain ⟨middle, moved, answer⟩ := map_eq_some_iff.mp asked
  obtain ⟨rfl, rfl⟩ := mk.inj answer
  cases phase : state.prefillPhase with
  | decide =>
    simp only [phase] at moved
    split at moved
    · obtain ⟨opened, budget⟩ := enterPrefillPhase_some moved
      simp only [opened]
      exact .enterPrefill (by simp [phase]) opened budget
    · cases moved
      have answer : GateAnswer config state pass true _ := .enterDecode phase
      exact answer
  | decode =>
    simp only [phase] at moved
    split at moved
    next spent =>
      split at moved
      · obtain ⟨opened, budget⟩ := enterPrefillPhase_some moved
        simp only [opened]
        exact .enterPrefill (by simp [phase]) opened budget
      next drained =>
        cases moved
        have answer : GateAnswer config state pass true _ :=
          .rearmDecode phase spent (Nat.eq_zero_of_not_pos drained)
        simpa [phase] using answer
    next left =>
      cases moved
      have answer : GateAnswer config state pass true _ := .stayDecode phase (not_le.mp left)
      simpa [phase] using answer
  | prefill =>
    simp only [phase] at moved
    cases moved
    have answer : GateAnswer config state pass false _ := .stayPrefill phase
    simpa [phase] using answer

/-! ## Runs of contended passes -/

/-- One pass, with the gate's verdict, while there is work on both sides; a
held pass runs a decode batch. -/
structure ContendedStep (config : PhaseConfig) (state : PhaseState)
    (record : Pass × Option Bool) (next : PhaseState) : Prop where
  ran : getNextBatchToRun config state record.1 = some (record.2, next)
  contended : record.1.Contended
  decodes : record.2 = some true →
    ∃ batch, record.1.batch = some batch ∧ batch.forwardModeIsExtend = false

/-- A contended pass that, when the gate finds a spent decode phase, has
uncached work in sight. -/
structure RipeStep (config : PhaseConfig) (state : PhaseState)
    (record : Pass × Option Bool) (next : PhaseState) : Prop
    extends ContendedStep config state record next where
  ripe : record.2 ≠ none → state.prefillPhase = .decode → state.phaseBudgetPasses ≤ 0 →
    UncachedWork record.1

/-- A decode phase never has more budget than a full one. -/
def DecodeBudgetBounded (config : PhaseConfig) (state : PhaseState) : Prop :=
  state.prefillPhase = .decode → state.phaseBudgetPasses ≤ config.ppPrefillDelayMaxPasses

/-- How many more passes the gate can hold before it has to open. -/
def holdCredit (config : PhaseConfig) (state : PhaseState) : ℕ :=
  if state.prefillPhase = .decode then state.phaseBudgetPasses.toNat
  else max config.ppPrefillDelayMaxPasses.toNat 1

/-- The number of held passes. -/
def heldPasses (records : List (Pass × Option Bool)) : ℕ :=
  records.countP fun record => record.2 = some true

/-- The number of passes that ran an extend batch. -/
def extendPasses (records : List (Pass × Option Bool)) : ℕ :=
  records.countP fun record => record.1.batch.any PassBatch.forwardModeIsExtend

/-- The credit is bounded. -/
theorem holdCredit_le (config : PhaseConfig) (state : PhaseState)
    (bounded : DecodeBudgetBounded config state) :
    holdCredit config state ≤ config.ppPrefillDelayMaxPasses.toNat + 1 := by
  unfold holdCredit
  split
  next phase =>
    have := bounded phase
    omega
  · omega

/-- Counting a batch neither enters nor leaves the decode phase. -/
theorem phaseAfterBatch_decode_iff (phase : PrefillPhase) (budget : ℤ) (batch : Option PassBatch) :
    (phaseAfterBatch phase budget batch).1 = .decode ↔ phase = .decode := by
  rcases batch with _ | ⟨_ | _, _⟩ <;> cases phase <;> simp [phaseAfterBatch]
  split <;> simp

/-- Counting a batch never adds budget. -/
theorem phaseAfterBatch_budget_le (phase : PrefillPhase) (budget : ℤ)
    (batch : Option PassBatch) : (phaseAfterBatch phase budget batch).2 ≤ budget := by
  rcases batch with _ | ⟨_ | _, _⟩ <;> cases phase <;> simp [phaseAfterBatch]

variable (step : ContendedStep config state record next)
  (bounded : DecodeBudgetBounded config state)

include enabled step bounded in
/-- A step keeps the budget bounded. -/
theorem decodeBudgetBounded_step : DecodeBudgetBounded config next := by
  intro decoding
  obtain ⟨_, after⟩ | ⟨held, middle, _, asked, after⟩ := getNextBatchToRun_cases step.ran
  all_goals
    rw [after.phase, phaseAfterBatch_decode_iff] at decoding
    rw [after.budget]
    refine (phaseAfterBatch_budget_le ..).trans ?_
  · exact bounded decoding
  · cases shouldHoldPrefillForQueue_cases enabled step.contended asked with
    | stayPrefill phase => exact bounded decoding
    | enterPrefill _ opened _ => simp [opened] at decoding
    | enterDecode _ => exact le_rfl
    | stayDecode phase _ => exact bounded phase
    | rearmDecode _ _ _ => exact le_rfl

/-- A decode batch takes one pass off the budget of a decode phase. -/
theorem phaseAfterBatch_of_decode {budget : ℤ} {batch : PassBatch}
    (decode : batch.forwardModeIsExtend = false) :
    phaseAfterBatch .decode budget (some batch) = (.decode, budget - 1) := by
  obtain ⟨isExtend, inBatch⟩ := batch
  obtain rfl : isExtend = false := decode
  rfl

section

include enabled

/-- Every pass that does not open the gate pays for itself out of the credit:
one for a held pass, nothing for a skipped one. -/
theorem holdCredit_step
    (step : RipeStep config state record next) (closed : record.2 ≠ some false) :
    (if record.2 = some true then 1 else 0) + holdCredit config next ≤ holdCredit config state := by
  obtain ⟨skipped, after⟩ | ⟨held, middle, verdict, asked, after⟩ :=
    getNextBatchToRun_cases step.ran
  · simp only [skipped, reduceCtorEq, ↓reduceIte, zero_add]
    have same := phaseAfterBatch_decode_iff state.prefillPhase state.phaseBudgetPasses
      record.1.batch
    rw [← after.phase] at same
    unfold holdCredit
    by_cases decoding : state.prefillPhase = .decode
    · rw [if_pos (same.mpr decoding), if_pos decoding, after.budget]
      exact Int.toNat_le_toNat (phaseAfterBatch_budget_le ..)
    · rw [if_neg (mt same.mp decoding), if_neg decoding]
  · obtain rfl : held = true := by
      cases held with
      | true => rfl
      | false => exact absurd verdict closed
    obtain ⟨batch, ran, decode⟩ := step.decodes verdict
    have middleDecode : middle.prefillPhase = .decode := by
      cases shouldHoldPrefillForQueue_cases enabled step.contended asked with
      | enterDecode _ => rfl
      | stayDecode phase _ | rearmDecode phase _ _ => exact phase
    obtain ⟨phaseEq, budgetEq⟩ := after
    rw [ran, middleDecode, phaseAfterBatch_of_decode decode] at phaseEq budgetEq
    simp only [verdict, ↓reduceIte]
    unfold holdCredit
    rw [if_pos phaseEq, budgetEq]
    cases shouldHoldPrefillForQueue_cases enabled step.contended asked with
    | enterDecode phase =>
      rw [if_neg (by simp [phase])]
      change 1 + (config.ppPrefillDelayMaxPasses - 1).toNat ≤ _
      omega
    | stayDecode phase left =>
      rw [if_pos phase]
      omega
    | rearmDecode phase spent drained =>
      have work := step.ripe (by simp [verdict]) phase spent
      rw [← pendingPrefillTokens_pos_iff, drained] at work
      exact absurd work (lt_irrefl 0)

include bounded in
/-- Between two openings of the gate, at most a full decode phase is held. -/
theorem heldPasses_le {block : List (Pass × Option Bool)}
    (run : Path (RipeStep config) state block last)
    (closed : ∀ record ∈ block, record.2 ≠ some false) :
    heldPasses block ≤ config.ppPrefillDelayMaxPasses.toNat + 1 := by
  refine le_trans ?_ (holdCredit_le config state bounded)
  refine (run.restrict closed).countP_le_potential (DecodeBudgetBounded config) _
    (holdCredit config) ?_ ?_ bounded
  · intro source record next step before
    exact decodeBudgetBounded_step enabled step.1.toContendedStep before
  · intro source record next step _
    simpa only [decide_eq_true_eq] using holdCredit_step enabled step.1 step.2

end

/-- The budget of a prefill phase covers its batch and what the phase still has
afterwards. -/
theorem CountsBatch.budget_le {batch : Option PassBatch} {later : ℕ}
    (counted : CountsBatch state batch next) (opened : state.prefillPhase = .prefill)
    (rest : next.prefillPhase = .prefill → next.phaseBudgetPasses ≤ later) :
    state.phaseBudgetPasses ≤
      (later + if batch.any PassBatch.forwardModeIsExtend then 1 else 0 : ℕ) := by
  obtain ⟨phaseEq, budgetEq⟩ := counted
  rw [opened] at phaseEq budgetEq
  rcases batch with _ | ⟨_ | _, inBatch⟩
  · exact budgetEq.symm.trans_le (rest phaseEq)
  · exact budgetEq.symm.trans_le (rest phaseEq)
  · change next.phaseBudgetPasses = state.phaseBudgetPasses - 1 at budgetEq
    by_cases spent : state.phaseBudgetPasses - 1 ≤ 0
    · simp only [any_some, ↓reduceIte]
      omega
    · have := rest (phaseEq.trans (if_neg spent))
      simp only [any_some, ↓reduceIte]
      omega

section

variable (enabled : 0 < config.ppPrefillDelayMinTokens)
include enabled

variable {records : List (Pass × Option Bool)}

/-- A prefill phase gives way only after as many extend batches as it has
budget. -/
theorem extendPasses_of_leaves_prefill (run : Path (ContendedStep config) state records last)
    (opened : state.prefillPhase = .prefill) (left : last.prefillPhase ≠ .prefill) :
    state.phaseBudgetPasses ≤ extendPasses records := by
  induction run with
  | nil _ => exact absurd opened left
  | @cons source next target record records first rest ih =>
    have after : CountsBatch source record.1.batch next := by
      obtain ⟨_, after⟩ | ⟨held, middle, _, asked, after⟩ := getNextBatchToRun_cases first.ran
      · exact after
      · cases shouldHoldPrefillForQueue_cases enabled first.contended asked with
        | stayPrefill _ => exact after
        | enterPrefill closed _ _ => exact absurd opened closed
        | enterDecode phase | stayDecode phase _ | rearmDecode phase _ _ => simp [opened] at phase
    unfold extendPasses
    rw [countP_cons]
    exact after.budget_le opened fun stillOpen => ih stillOpen left

/-- The gate, asked at `state`, opens a prefill phase of `budget` passes. -/
def EntersPrefill (config : PhaseConfig) (state : PhaseState) (pass : Pass) (budget : ℤ) :
    Prop :=
  state.prefillPhase ≠ .prefill ∧
    ∃ opened, shouldHoldPrefillForQueue config state pass = some (false, opened) ∧
      opened.prefillPhase = .prefill ∧ opened.phaseBudgetPasses = budget

include step in
/-- A pass can be held only outside a prefill phase. -/
theorem ContendedStep.not_prefill_of_held (held : record.2 = some true) :
    state.prefillPhase ≠ .prefill := by
  intro opened
  obtain ⟨skipped, _⟩ | ⟨answer, middle, verdict, asked, _⟩ := getNextBatchToRun_cases step.ran
  · simp [held] at skipped
  · obtain rfl : answer = true := by simpa [held] using verdict.symm
    cases shouldHoldPrefillForQueue_cases enabled step.contended asked with
    | enterDecode phase | stayDecode phase _ | rearmDecode phase _ _ => simp [opened] at phase

/-- From the pass that opens a prefill phase to the next held pass, the phase's
budget of extend batches runs. -/
theorem extendPasses_of_entersPrefill {middle : PhaseState} {entering : Pass × Option Bool}
    {held : Pass × Option Bool} {budget : ℤ} (enters : EntersPrefill config state entering.1 budget)
    (asked : entering.2 ≠ none)
    (run : Path (ContendedStep config) state (entering :: records) middle)
    (step : ContendedStep config middle held last) (holds : held.2 = some true) :
    budget ≤ extendPasses (entering :: records) := by
  have left := step.not_prefill_of_held enabled holds
  obtain ⟨_, opened, answer, phase, rfl⟩ := enters
  obtain ⟨next, first, rest⟩ := Path.cons_inv run
  have counted : CountsBatch opened entering.1.batch next := by
    obtain ⟨skipped, _⟩ | ⟨verdict, state', _, asked', after⟩ := getNextBatchToRun_cases first.ran
    · exact absurd skipped asked
    · rw [answer] at asked'
      obtain ⟨rfl, rfl⟩ := mk.inj (some.inj asked')
      exact after
  unfold extendPasses
  rw [countP_cons]
  exact counted.budget_le phase fun stillOpen =>
    extendPasses_of_leaves_prefill enabled rest stillOpen left

end

/-- While there is work on both sides and every spent decode phase finds
uncached work, the gate holds at most one decode phase of passes before it
opens; and once it opened a prefill phase, that phase's budget of extend
batches runs before it holds again. -/
theorem prefill_hold_bounded (config : PhaseConfig) (enabled : 0 < config.ppPrefillDelayMinTokens) :
    (∀ before block last, Path (RipeStep config) {} (before ++ block) last →
      (∀ record ∈ block, record.2 ≠ some false) →
      heldPasses block ≤ config.ppPrefillDelayMaxPasses.toNat + 1) ∧
    (∀ state entering records middle held last budget,
      EntersPrefill config state entering.1 budget → entering.2 ≠ none →
      Path (ContendedStep config) state (entering :: records) middle →
      ContendedStep config middle held last → held.2 = some true →
      budget ≤ extendPasses (entering :: records)) := by
  refine ⟨?_, ?_⟩
  · intro before block last run closed
    obtain ⟨middle, left, right⟩ := run.append_inv
    have initial : DecodeBudgetBounded config {} := nofun
    have bounded := left.invariant (DecodeBudgetBounded config)
      (fun _ _ _ step => decodeBudgetBounded_step enabled step.toContendedStep) initial
    exact heldPasses_le enabled bounded right closed
  · intro state entering records middle held last budget enters asked run step holds
    exact extendPasses_of_entersPrefill enabled enters asked run step holds

/-- A pass with one running request and one waiting request. -/
def onePass (req : QueuedReq) (isExtend : Bool) : Pass :=
  { runningReqs := 1
    waitingQueue := [req]
    chunkedReq := none
    batch := some ⟨isExtend, isExtend⟩ }

/-- The state of a decode phase. -/
def decoding (budget count : ℤ) : PhaseState :=
  { prefillPhase := .decode, phaseBudgetPasses := budget, continuousDecodeCount := count }

/-- One pass as a step. -/
theorem contendedStep_onePass {req : QueuedReq} (held : Bool)
    (ran : getNextBatchToRun config state (onePass req !held) = some (some held, next)) :
    ContendedStep config state (onePass req !held, some held) next := by
  refine ⟨ran, ⟨one_ne_zero, .inl (cons_ne_nil _ _)⟩, ?_⟩
  intro answer
  obtain rfl : held = true := some.inj answer
  exact ⟨_, rfl, rfl⟩

/-- A new request of two tokens, below a threshold of five. -/
def newReq : QueuedReq := { originInputIds := [1, 2], outputIds := [] }

/-- A decode phase of two passes, prefill in chunks of one token. -/
def smallPhases : PhaseConfig :=
  { ppPrefillDelayMinTokens := 5, ppPrefillDelayMaxPasses := 2, chunkedPrefillSize := some 1 }

/-- Two passes held, two let through. -/
theorem prefill_hold_bounded_smallPhases :
    heldPasses [(onePass newReq false, some true), (onePass newReq false, some true)] ≤ 2 + 1 ∧
      (2 : ℤ) ≤ extendPasses
        [(onePass newReq true, some false), (onePass newReq true, some false)] := by
  have work : UncachedWork (onePass newReq false) := .inl ⟨newReq, mem_singleton.mpr rfl, by decide⟩
  have hold₁ : ContendedStep smallPhases {} (onePass newReq false, some true) (decoding 1 1) :=
    contendedStep_onePass true (by decide)
  have hold₂ : ContendedStep smallPhases (decoding 1 1) (onePass newReq false, some true)
      (decoding 0 2) := contendedStep_onePass true (by decide)
  have opens : ContendedStep smallPhases (decoding 0 2) (onePass newReq true, some false)
      { prefillPhase := .prefill, phaseBudgetPasses := 1 } :=
    contendedStep_onePass false (by decide)
  have closes : ContendedStep smallPhases { prefillPhase := .prefill, phaseBudgetPasses := 1 }
      (onePass newReq true, some false) {} := contendedStep_onePass false (by decide)
  have enters : EntersPrefill smallPhases (decoding 0 2) (onePass newReq true) 2 :=
    ⟨by decide, { decoding 2 2 with prefillPhase := .prefill }, by decide, rfl, rfl⟩
  exact ⟨(prefill_hold_bounded smallPhases (by decide)).1 [] _ _
      (.cons ⟨hold₁, fun _ _ _ => work⟩ (.cons ⟨hold₂, fun _ _ _ => work⟩ (.nil _))) (by simp),
    (prefill_hold_bounded smallPhases (by decide)).2 _ _ _ _ _ _ _ enters (by simp)
      (.cons opens (.cons closes (.nil _))) hold₁ rfl⟩

/-- A retracted request whose whole input is still cached: three input tokens,
one output token, and a match of all three input tokens. -/
def cachedRetractedReq : QueuedReq :=
  matchPrefixForReq
    { matchPrefix := fun _ _ => { deviceIndices := [10, 11, 12], hostHitLength := 0 }
      swaReprefillTailTokens := 0 }
    { originInputIds := [1, 2, 3], outputIds := [4] }

/-- With only such a request waiting, the pending estimate is zero, every spent
decode phase starts over, and the gate holds past its limit. -/
theorem prefill_hold_unbounded : Path (ContendedStep smallPhases) {}
      (replicate 4 (onePass cachedRetractedReq false, some true)) (decoding 0 4) ∧
    smallPhases.ppPrefillDelayMaxPasses.toNat + 1 <
      heldPasses (replicate 4 (onePass cachedRetractedReq false, some true)) := by
  have hold₁ : ContendedStep smallPhases {} (onePass cachedRetractedReq false, some true)
      (decoding 1 1) := contendedStep_onePass true (by decide)
  have hold₂ : ContendedStep smallPhases (decoding 1 1)
      (onePass cachedRetractedReq false, some true) (decoding 0 2) :=
    contendedStep_onePass true (by decide)
  have rearm : ContendedStep smallPhases (decoding 0 2)
      (onePass cachedRetractedReq false, some true) (decoding 1 3) :=
    contendedStep_onePass true (by decide)
  have hold₃ : ContendedStep smallPhases (decoding 1 3)
      (onePass cachedRetractedReq false, some true) (decoding 0 4) :=
    contendedStep_onePass true (by decide)
  exact ⟨.cons hold₁ (.cons hold₂ (.cons rearm (.cons hold₃ (.nil _)))), by decide⟩

end AvaServe.Scheduler
