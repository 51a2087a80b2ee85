import AvaServe.Foundation.Path

/-!
# Prefill delayer

Data-parallel ranks negotiate on every scheduling pass whether prefill is
allowed: each rank contributes five integers to an all-gather and decides from
the gathered table, its own delay state and, for the queue-based trigger, its
own clock. The model has one delay state per rank, where a rank is a row of the
table together with a tensor-parallel position; the positions of one row run
the same scheduler and make the same calls, but read their own clocks.

The decision is a function of the table and of state that all ranks share,
except for the wall-clock timeout of the queue trigger. Agreement over a run is
therefore equivalent to agreement of those timeouts wherever one decides.
-/

namespace AvaServe.Scheduler

open AvaServe.Foundation List

/-- The delay in progress on one rank. -/
structure DelayState where
  delayedCount : ℤ
  startTime : ℚ
  deriving DecidableEq, Repr

/-- `bump_delayed_count`. -/
def DelayState.bumpDelayedCount (state : DelayState) : DelayState :=
  { state with delayedCount := state.delayedCount + 1 }

/-- Which ranks reported prefillable work. -/
inductive PrefillableStatus
  | all
  | none
  | mixed
  deriving DecidableEq, Repr

/-- `output_reason`. -/
inductive NegotiateReason
  | tokenWatermark
  | delay
  | waitTimeout
  | waitSuccess
  | noWait
  | idle
  deriving DecidableEq, Repr

/-- `_NegotiateOutput`. -/
structure NegotiateOutput where
  nextState : Option DelayState
  inputEstimation : PrefillableStatus
  outputAllow : Bool
  outputReason : NegotiateReason
  numPrefillable : ℤ
  numTokenWatermarkForceAllow : ℤ
  waitForwardPasses : ℤ := 0
  waitSeconds : ℚ := 0
  deriving DecidableEq, Repr

/-- The configuration, identical on all ranks. What the source computes in floats is a
function here: `queueMin` of the running count is `int(running * queue_min_ratio)`, and the
other two are the time since a reading of the clock, in seconds and in milliseconds. -/
structure DelayerConfig where
  maxDelayPasses : ℤ
  tokenUsageLowWatermark : Option ℚ := none
  queueMin : Option (ℤ → ℤ) := none
  elapsedSeconds : ℚ → ℚ → ℚ := fun now start => now - start
  elapsedMs : ℚ → ℚ → ℚ := fun now start => (now - start) * 1000
  maxDelayMs : Option ℚ := none
  prefillMaxRequests : Option ℤ := none
  dpSize : ℤ
  enableDpAttention : Bool
  maxRunningRequests : ℤ

/-- The arguments of one negotiation. -/
structure NegotiateArgs where
  localPrefillable : Bool := false
  runningBatch : ℤ := 0
  maxPrefillBs : ℚ := 0
  maxRunningRequests : ℤ := 0
  waitingQueueLen : ℤ := 0
  deriving DecidableEq, Repr

/-- One row of the gathered table. -/
structure RankInfo where
  prefillable : ℤ
  tokenWatermarkForceAllow : ℤ
  runningBatch : ℤ
  maxPrefillBs : ℤ
  waitingQueueLen : ℤ
  deriving DecidableEq, Repr

/-- The clock readings a rank can take during one negotiation. -/
structure ClockReadings where
  waitInfo : ℚ
  queueTimeout : ℚ
  delayStart : ℚ
  deriving DecidableEq, Repr

/-- Conversion of a float to an integer drops the fraction. -/
def truncate (value : ℚ) : ℤ :=
  if 0 ≤ value then ⌊value⌋ else ⌈value⌉

/-- `local_token_watermark_force_allow`. -/
def DelayerConfig.localTokenWatermarkForceAllow (config : DelayerConfig) (args : NegotiateArgs)
    (tokenUsage : ℚ) : Bool :=
  args.localPrefillable &&
    match config.tokenUsageLowWatermark with
    | none => false
    | some watermark => decide (tokenUsage < watermark)

/-- The integers a rank contributes to the all-gather. -/
def DelayerConfig.localInfo (config : DelayerConfig) (args : NegotiateArgs) (tokenUsage : ℚ) :
    RankInfo :=
  { prefillable := args.localPrefillable.toInt
    tokenWatermarkForceAllow := (config.localTokenWatermarkForceAllow args tokenUsage).toInt
    runningBatch := args.runningBatch
    maxPrefillBs := truncate args.maxPrefillBs
    waitingQueueLen := args.waitingQueueLen }

section Table

variable {rows : ℕ}

/-- The largest entry of a column of the table. -/
def columnMax (column : Fin (rows + 1) → ℤ) : ℤ := Finset.univ.sup' Finset.univ_nonempty column

/-- The smallest entry of a column of the table. -/
def columnMin (column : Fin (rows + 1) → ℤ) : ℤ := Finset.univ.inf' Finset.univ_nonempty column

/-- The table every rank sees after the all-gather. -/
abbrev GatheredTable (rows : ℕ) := Fin (rows + 1) → RankInfo

variable (table : GatheredTable rows)

/-- `prefillable_status`. -/
def GatheredTable.prefillableStatus : PrefillableStatus :=
  if 0 < columnMin fun row => (table row).prefillable then .all
  else if (columnMax fun row => (table row).prefillable) = 0 then .none
  else .mixed

/-- Some rank is below the watermark. -/
def GatheredTable.existsTokenWatermarkForceAllow : Bool :=
  decide (0 < columnMax fun row => (table row).tokenWatermarkForceAllow)

/-- The largest running batch. -/
def GatheredTable.runningBatchMax : ℤ := columnMax fun row => (table row).runningBatch

/-- The largest prefill size. -/
def GatheredTable.maxPrefillBsMax : ℤ := columnMax fun row => (table row).maxPrefillBs

/-- The longest queue. -/
def GatheredTable.waitingQueueMax : ℤ := columnMax fun row => (table row).waitingQueueLen

/-- The queue-based trigger before its timeout: the longest waiting queue is
below the smaller of the minimum for the running requests and the queue capacity. -/
def DelayerConfig.queueBelowMinimum (config : DelayerConfig) (table : GatheredTable rows) :
    Bool :=
  match config.queueMin with
  | none => false
  | some queueMin =>
    let queueCapacity := config.prefillMaxRequests.getD table.maxPrefillBsMax
    let queueMinEffective := min (queueMin table.runningBatchMax) queueCapacity
    decide (0 < table.runningBatchMax ∧ 0 < queueMinEffective ∧
      table.waitingQueueMax < queueMinEffective)

/-- The wall-clock cap on a delay, read against this rank's clock. -/
def DelayerConfig.timedOut (config : DelayerConfig) (prevState : Option DelayState)
    (now : ℚ) : Bool :=
  match prevState with
  | none => false
  | some state => decide (config.maxDelayMs.getD 5000 ≤ config.elapsedMs now state.startTime)

/-- The slot-based trigger. -/
def DelayerConfig.slotCondition (config : DelayerConfig) (table : GatheredTable rows)
    (maxRunningRequests : ℤ) : Bool :=
  let maxRunningRequests :=
    if config.enableDpAttention then maxRunningRequests
    else (maxRunningRequests + config.dpSize - 1) / config.dpSize
  let requiredPrefillSlots := min table.waitingQueueMax table.maxPrefillBsMax
  decide (maxRunningRequests - table.runningBatchMax < requiredPrefillSlots)

/-- The delayer of one rank between passes. -/
structure DelayerState where
  currState : Option DelayState := none
  skipFirstDelayer : Bool := true
  deriving DecidableEq, Repr

/-- How many passes the delay in progress has lasted. -/
def DelayerState.delayedCount (state : DelayerState) : ℤ :=
  (state.currState.map DelayState.delayedCount).getD 0

/-- Bound the wait: delay once more unless the delay is already at its limit. -/
def DelayerConfig.delayOrTimeOut (config : DelayerConfig) (state : DelayerState)
    (clock : ClockReadings) (release delay : NegotiateOutput) : NegotiateOutput :=
  if state.delayedCount < config.maxDelayPasses - 1 then
    let nextState := state.currState.getD { delayedCount := 0, startTime := clock.delayStart }
    { delay with nextState := some nextState.bumpDelayedCount }
  else
    { release with outputReason := .waitTimeout }

/-- The decision of one rank from the gathered table, with its delayer
afterwards. -/
def DelayerConfig.negotiateShouldAllowPrefill (config : DelayerConfig)
    (table : GatheredTable rows) (state : DelayerState) (maxRunningRequests : ℤ)
    (clock : ClockReadings) : NegotiateOutput × DelayerState :=
  let delay : NegotiateOutput :=
    { nextState := none
      inputEstimation := table.prefillableStatus
      outputAllow := false
      outputReason := .delay
      numPrefillable := ∑ row, (table row).prefillable
      numTokenWatermarkForceAllow := ∑ row, (table row).tokenWatermarkForceAllow }
  let release : NegotiateOutput :=
    { delay with
      outputAllow := true
      outputReason := .tokenWatermark
      waitForwardPasses := state.delayedCount
      waitSeconds :=
        (state.currState.map fun prev =>
          config.elapsedSeconds clock.waitInfo prev.startTime).getD 0 }
  let settle (output : NegotiateOutput) (skipFirst : Bool) : NegotiateOutput × DelayerState :=
    (output, { currState := output.nextState, skipFirstDelayer := skipFirst })
  let skipFirst := state.skipFirstDelayer
  match table.prefillableStatus with
  | .all =>
    if table.existsTokenWatermarkForceAllow then settle release skipFirst
    else
      let slotCondition := config.slotCondition table maxRunningRequests
      let queueCondition := config.queueBelowMinimum table &&
        !config.timedOut state.currState clock.queueTimeout
      let waited : NegotiateOutput :=
        { release with
          outputReason := if state.currState.isSome then .waitSuccess else .noWait }
      if slotCondition || queueCondition then
        if skipFirst then settle waited false
        else settle (config.delayOrTimeOut state clock release delay) skipFirst
      else settle waited skipFirst
  | .none => settle { release with outputReason := .idle } skipFirst
  | .mixed =>
    if table.existsTokenWatermarkForceAllow then settle release skipFirst
    else settle (config.delayOrTimeOut state clock release delay) skipFirst

/-! ## One pass of one rank -/

/-- A call of the prefill adder. It always reports prefillable work and passes
the configured request limit. -/
structure NegotiateCall where
  runningBatch : ℤ
  maxPrefillBs : ℚ
  waitingQueueLen : ℤ
  deriving DecidableEq, Repr

/-- The arguments of a call. -/
def NegotiateCall.args (config : DelayerConfig) (call : NegotiateCall) : NegotiateArgs :=
  { localPrefillable := true
    runningBatch := call.runningBatch
    maxPrefillBs := call.maxPrefillBs
    maxRunningRequests := config.maxRunningRequests
    waitingQueueLen := call.waitingQueueLen }

/-- The executor of one pass remembers the first negotiation. -/
structure SinglePassExecutor where
  result : Option NegotiateOutput := none
  delayer : DelayerState

variable (config : DelayerConfig) (table : GatheredTable rows) (clock : ClockReadings)

/-- `negotiate_should_allow_prefill`. -/
def SinglePassExecutor.negotiateShouldAllowPrefill (executor : SinglePassExecutor)
    (args : NegotiateArgs) : SinglePassExecutor :=
  if executor.result.isSome then executor
  else
    let answer := config.negotiateShouldAllowPrefill table executor.delayer
      args.maxRunningRequests clock
    { result := some answer.1, delayer := answer.2 }

/-- A rank that had no reason to negotiate reports no prefillable work. -/
def SinglePassExecutor.finalize (executor : SinglePassExecutor) : SinglePassExecutor :=
  executor.negotiateShouldAllowPrefill config table clock {}

/-- The calls of one pass on one rank, in order, and the finalisation. -/
def executePass (state : DelayerState) (calls : List NegotiateCall) : SinglePassExecutor :=
  let start : SinglePassExecutor := { delayer := state }
  (calls.foldl (fun (executor : SinglePassExecutor) call =>
      executor.negotiateShouldAllowPrefill config table clock (call.args config))
    start).finalize config table clock

/-- The arguments of the one negotiation that a pass with these calls makes. -/
def DelayerConfig.passArgs (config : DelayerConfig) (calls : List NegotiateCall) :
    NegotiateArgs :=
  (calls.head?.map (NegotiateCall.args config)).getD {}

/-- However often the adder asks, a pass negotiates exactly once. -/
theorem executePass_eq (state : DelayerState) (calls : List NegotiateCall) :
    let answer := config.negotiateShouldAllowPrefill table state
      (config.passArgs calls).maxRunningRequests clock
    executePass config table clock state calls =
      { result := some answer.1, delayer := answer.2 } := by
  cases calls with
  | nil => rfl
  | cons call calls =>
    dsimp only [executePass]
    rw [foldl_cons, foldl_fixed']
    · rfl
    · exact fun _ => if_pos rfl

end Table

/-! ## The group of ranks -/

section Group

variable {rows positions : ℕ}

/-- A rank is a row of the table and a tensor-parallel position in it. -/
abbrev Rank (rows positions : ℕ) := Fin (rows + 1) × Fin (positions + 1)

/-- What a pass brings to the group: the calls and token usage of every row, and
the clock readings of every rank. -/
structure GroupPass (rows positions : ℕ) where
  calls : Fin (rows + 1) → List NegotiateCall
  tokenUsage : Fin (rows + 1) → ℚ
  clock : Rank rows positions → ClockReadings

/-- The delayers of all ranks. -/
abbrev GroupState (rows positions : ℕ) := Rank rows positions → DelayerState

variable (config : DelayerConfig)

/-- The gathered table keeps the first position of every row. -/
def gatherInfo (pass : GroupPass rows positions) : GatheredTable rows :=
  fun row => config.localInfo (config.passArgs (pass.calls row)) (pass.tokenUsage row)

/-- What a rank decides. -/
def rankNegotiation (group : GroupState rows positions) (pass : GroupPass rows positions)
    (rank : Rank rows positions) : NegotiateOutput × DelayerState :=
  config.negotiateShouldAllowPrefill (gatherInfo config pass) (group rank)
    (config.passArgs (pass.calls rank.1)).maxRunningRequests (pass.clock rank)

/-- All ranks after one pass. -/
def groupStep (group : GroupState rows positions) (pass : GroupPass rows positions) :
    GroupState rows positions :=
  fun rank =>
    (executePass config (gatherInfo config pass) (pass.clock rank) (group rank)
      (pass.calls rank.1)).delayer

/-- The verdict of one rank on one pass. -/
def outputAllow (group : GroupState rows positions) (pass : GroupPass rows positions)
    (rank : Rank rows positions) : Bool :=
  ((executePass config (gatherInfo config pass) (pass.clock rank) (group rank)
    (pass.calls rank.1)).result.map NegotiateOutput.outputAllow).getD true

/-! ## The shared decision -/

/-- The part of a delayer that does not depend on the rank's clock: how long the
delay in progress has lasted, if there is one, and the skip flag. -/
def DelayerState.shared (state : DelayerState) : Option ℤ × Bool :=
  (state.currState.map DelayState.delayedCount, state.skipFirstDelayer)

/-- Delay once more, unless the delay is at its limit. -/
def boundedDelay (shared : Option ℤ × Bool) : Bool × (Option ℤ × Bool) :=
  if shared.1.getD 0 < config.maxDelayPasses - 1 then
    (false, some (shared.1.getD 0 + 1), shared.2)
  else (true, none, shared.2)

/-- The verdict and the shared part of the next state, as a function of what all
ranks see and of the one bit that comes from a clock. -/
def sharedDecision (table : GatheredTable rows) (shared : Option ℤ × Bool) (timedOut : Bool) :
    Bool × (Option ℤ × Bool) :=
  match table.prefillableStatus with
  | .all =>
    if table.existsTokenWatermarkForceAllow then (true, none, shared.2)
    else if config.slotCondition table config.maxRunningRequests ||
        (config.queueBelowMinimum table && !timedOut) then
      if shared.2 then (true, none, false) else boundedDelay config shared
    else (true, none, shared.2)
  | .none => (true, none, shared.2)
  | .mixed =>
    if table.existsTokenWatermarkForceAllow then (true, none, shared.2)
    else boundedDelay config shared

/-- The verdict hangs on the clock: every rank is prefillable, no watermark or
free slot decides, the queue is below its minimum, and the delay is not at its
limit (or the first delay is still to be skipped). -/
structure ClockDecides (table : GatheredTable rows) (shared : Option ℤ × Bool) : Prop where
  prefillable : table.prefillableStatus = .all
  usage : table.existsTokenWatermarkForceAllow = false
  slots : config.slotCondition table config.maxRunningRequests = false
  queue : config.queueBelowMinimum table = true
  unsettled : shared.2 = true ∨ shared.1.getD 0 < config.maxDelayPasses - 1

/-- The minimum is below each entry. -/
theorem columnMin_le (column : Fin (rows + 1) → ℤ) (row : Fin (rows + 1)) :
    columnMin column ≤ column row :=
  Finset.inf'_le column (Finset.mem_univ row)

/-- When all ranks are prefillable, every rank called with the configured limit. -/
theorem maxRunningRequests_of_all (pass : GroupPass rows positions) (row : Fin (rows + 1))
    (all : (gatherInfo config pass).prefillableStatus = .all) :
    (config.passArgs (pass.calls row)).maxRunningRequests = config.maxRunningRequests := by
  have positive : 0 < (gatherInfo config pass row).prefillable := by
    unfold GatheredTable.prefillableStatus at all
    split at all
    next smallest => exact smallest.trans_le (columnMin_le _ row)
    · split at all <;> cases all
  cases called : pass.calls row with
  | nil => simp [gatherInfo, DelayerConfig.localInfo, DelayerConfig.passArgs, called] at positive
  | cons call calls => rfl

/-- The bounded delay of a rank is the shared one. -/
theorem delayOrTimeOut_shared (state : DelayerState) (clock : ClockReadings)
    {release delay : NegotiateOutput} (allowed : release.outputAllow = true)
    (released : release.nextState = none) (delayed : delay.outputAllow = false) :
    let output := config.delayOrTimeOut state clock release delay
    (output.outputAllow, (output.nextState.map DelayState.delayedCount, state.skipFirstDelayer)) =
      boundedDelay config state.shared := by
  unfold DelayerConfig.delayOrTimeOut boundedDelay
  change _ = if state.delayedCount < config.maxDelayPasses - 1 then _ else _
  split
  · unfold DelayerState.shared DelayState.bumpDelayedCount
    rw [delayed]
    cases state.currState <;> rfl
  · unfold DelayerState.shared
    simp [allowed, released]

/-- Every rank takes the shared decision, with the timeout of its own clock. -/
theorem rankNegotiation_refines (group : GroupState rows positions)
    (pass : GroupPass rows positions) (rank : Rank rows positions) :
    ((rankNegotiation config group pass rank).1.outputAllow,
      (rankNegotiation config group pass rank).2.shared) =
      sharedDecision config (gatherInfo config pass) (group rank).shared
        (config.timedOut (group rank).currState (pass.clock rank).queueTimeout) := by
  unfold rankNegotiation sharedDecision DelayerConfig.negotiateShouldAllowPrefill
  cases status : (gatherInfo config pass).prefillableStatus with
  | none => rfl
  | mixed =>
    cases (gatherInfo config pass).existsTokenWatermarkForceAllow with
    | true => rfl
    | false => exact delayOrTimeOut_shared config _ _ rfl rfl rfl
  | all =>
    rw [maxRunningRequests_of_all config pass rank.1 status]
    cases (gatherInfo config pass).existsTokenWatermarkForceAllow with
    | true => rfl
    | false =>
      simp only [Bool.false_eq_true, ↓reduceIte]
      split
      · change _ = if (group rank).skipFirstDelayer then _ else _
        split
        · rfl
        · exact delayOrTimeOut_shared config _ _ rfl rfl rfl
      · rfl

variable {table : GatheredTable rows} {shared : Option ℤ × Bool} {group : GroupState rows positions}

/-- With the clock deciding, a timeout releases the ranks and the shared state,
while its absence delays them or uses up the skipped delay. -/
theorem sharedDecision_of_clockDecides (decides : ClockDecides config table shared) :
    sharedDecision config table shared true ≠ sharedDecision config table shared false := by
  obtain ⟨prefillable, usage, slots, queue, unsettled⟩ := decides
  obtain ⟨count, skip⟩ := shared
  simp only [sharedDecision, prefillable, usage, slots, queue]
  cases skip with
  | true => simp
  | false =>
    have below : count.getD 0 < config.maxDelayPasses - 1 := by simpa using unsettled
    simp [boundedDelay, below]

/-- Where the clock does not decide, the timeout bit does not matter. -/
theorem sharedDecision_of_not_clockDecides (unsettled : ¬ ClockDecides config table shared)
    (timedOut : Bool) :
    sharedDecision config table shared timedOut = sharedDecision config table shared false := by
  cases timedOut with
  | false => rfl
  | true =>
    by_contra differs
    refine unsettled ?_
    unfold sharedDecision at differs
    cases prefillable : table.prefillableStatus with
    | none | mixed => simp [prefillable] at differs
    | all =>
      cases usage : table.existsTokenWatermarkForceAllow with
      | true => simp [usage] at differs
      | false =>
        cases slots : config.slotCondition table config.maxRunningRequests with
        | true => simp [slots] at differs
        | false =>
          cases queue : config.queueBelowMinimum table with
          | false => simp [queue] at differs
          | true =>
            refine ⟨prefillable, usage, slots, queue, ?_⟩
            by_contra closed
            rw [not_or] at closed
            simp [boundedDelay, closed] at differs

/-! ## Agreement over whole runs -/

/-- All ranks are at the same point of the same delay. -/
def GroupState.Agrees (group : GroupState rows positions) : Prop :=
  ∀ rank other, (group rank).shared = (group other).shared

/-- All ranks return the same verdict on this pass and agree after it. -/
def PassAgrees (group : GroupState rows positions) (pass : GroupPass rows positions) : Prop :=
  (∀ rank other, outputAllow config group pass rank = outputAllow config group pass other) ∧
    GroupState.Agrees (groupStep config group pass)

/-- If the clock decides this pass, all ranks read the same timeout from it. -/
def TimeoutsAgree (group : GroupState rows positions) (pass : GroupPass rows positions) : Prop :=
  ∀ rank other, ClockDecides config (gatherInfo config pass) (group rank).shared →
    config.timedOut (group rank).currState (pass.clock rank).queueTimeout =
      config.timedOut (group other).currState (pass.clock other).queueTimeout

/-- The verdict and next shared state of a rank. -/
theorem outputAllow_shared (group : GroupState rows positions) (pass : GroupPass rows positions)
    (rank : Rank rows positions) :
    (outputAllow config group pass rank, (groupStep config group pass rank).shared) =
      sharedDecision config (gatherInfo config pass) (group rank).shared
        (config.timedOut (group rank).currState (pass.clock rank).queueTimeout) := by
  rw [← rankNegotiation_refines, outputAllow, groupStep, executePass_eq]
  rfl

/-- From agreeing ranks, a pass agrees exactly when the timeouts that decide it
agree. -/
theorem passAgrees_iff (group : GroupState rows positions) (pass : GroupPass rows positions)
    (agreed : group.Agrees) : PassAgrees config group pass ↔ TimeoutsAgree config group pass := by
  have decisions : PassAgrees config group pass ↔ ∀ rank other,
      sharedDecision config (gatherInfo config pass) (group rank).shared
          (config.timedOut (group rank).currState (pass.clock rank).queueTimeout) =
        sharedDecision config (gatherInfo config pass) (group rank).shared
          (config.timedOut (group other).currState (pass.clock other).queueTimeout) := by
    unfold PassAgrees GroupState.Agrees
    rw [← forall_and]
    refine forall_congr' fun rank => ?_
    rw [← forall_and]
    refine forall_congr' fun other => ?_
    rw [← Prod.mk.injEq, outputAllow_shared, outputAllow_shared, agreed other rank]
  rw [decisions]
  constructor
  · intro same rank other decides
    have differs := sharedDecision_of_clockDecides config decides
    have equal := same rank other
    cases first : config.timedOut (group rank).currState (pass.clock rank).queueTimeout <;>
      cases second : config.timedOut (group other).currState (pass.clock other).queueTimeout <;>
      rw [first, second] at equal
    · exact absurd equal.symm differs
    · exact absurd equal differs
  · intro timeouts rank other
    by_cases decides : ClockDecides config (gatherInfo config pass) (group rank).shared
    · rw [timeouts rank other decides]
    · rw [sharedDecision_of_not_clockDecides config decides,
        sharedDecision_of_not_clockDecides config decides
          (config.timedOut (group other).currState _)]

/-! ## Bounded delays -/

/-- A delay verdict is given below the limit and counts one more pass. -/
theorem sharedDecision_delay {timedOut : Bool}
    (delayed : (sharedDecision config table shared timedOut).1 = false) :
    shared.1.getD 0 < config.maxDelayPasses - 1 ∧
      (sharedDecision config table shared timedOut).2.1 = some (shared.1.getD 0 + 1) := by
  have bounded (late : (boundedDelay config shared).1 = false) :
      shared.1.getD 0 < config.maxDelayPasses - 1 ∧
        (boundedDelay config shared).2.1 = some (shared.1.getD 0 + 1) := by
    unfold boundedDelay at late ⊢
    split at late
    next below => exact ⟨below, by rw [if_pos below]⟩
    · cases late
  unfold sharedDecision at delayed ⊢
  grind

/-- An allowing verdict ends the delay. -/
theorem sharedDecision_allow {timedOut : Bool}
    (allowed : (sharedDecision config table shared timedOut).1 = true) :
    (sharedDecision config table shared timedOut).2.1 = none := by
  unfold sharedDecision boundedDelay at allowed ⊢
  grind

variable {pass : GroupPass rows positions} {rank : Rank rows positions}

/-- A delay counts, within the bound. -/
theorem delayedCount_of_delay (delayed : outputAllow config group pass rank = false) :
    (group rank).delayedCount < config.maxDelayPasses - 1 ∧
      (groupStep config group pass rank).delayedCount = (group rank).delayedCount + 1 := by
  have refines := outputAllow_shared config group pass rank
  have verdict := congrArg Prod.fst refines
  have count := congrArg (fun decision => decision.2.1.getD 0) refines
  rw [delayed] at verdict
  obtain ⟨below, bumped⟩ := sharedDecision_delay config verdict.symm
  refine ⟨below, count.trans ?_⟩
  rw [bumped]
  rfl

/-- Counts stay nonnegative. -/
theorem delayedCount_nonneg_step (nonneg : ∀ rank, 0 ≤ (group rank).delayedCount)
    (rank : Rank rows positions) : 0 ≤ (groupStep config group pass rank).delayedCount := by
  cases verdict : outputAllow config group pass rank with
  | false =>
    rw [(delayedCount_of_delay config verdict).2]
    exact add_nonneg (nonneg rank) zero_le_one
  | true =>
    have refines := outputAllow_shared config group pass rank
    have allowed := congrArg Prod.fst refines
    have count := congrArg (fun decision => decision.2.1.getD 0) refines
    rw [verdict] at allowed
    rw [sharedDecision_allow config allowed.symm] at count
    exact count.ge

/-- Consecutive delays of one rank use up what its delay count leaves. -/
theorem delays_le {block : List (GroupPass rows positions)}
    (delayed : ∀ entry ∈ trace (groupStep config) group block,
      outputAllow config entry.1 entry.2 rank = false) :
    block.length ≤ (config.maxDelayPasses - 1 - (group rank).delayedCount).toNat := by
  induction block generalizing group with
  | nil => exact Nat.zero_le _
  | cons pass block ih =>
    rw [trace_cons, forall_mem_cons] at delayed
    obtain ⟨now, later⟩ := delayed
    obtain ⟨below, bumped⟩ := delayedCount_of_delay config now
    dsimp only at below bumped
    have rest := ih later
    rw [length_cons]
    omega

/-- The group before its first pass. -/
def initialGroup (rows positions : ℕ) : GroupState rows positions := fun _ => {}

/-- Over every run of passes from the start: all ranks return the same verdicts
and stay at the same point of the same delay exactly when, on every pass that a
clock decides, their timeouts agree; and no rank delays more than one pass
short of the configured maximum in a row, whatever the clocks read. -/
theorem prefillDelayer_agreement (passes : List (GroupPass rows positions)) :
    ((∀ entry ∈ trace (groupStep config) (initialGroup rows positions) passes,
        PassAgrees config entry.1 entry.2) ↔
      ∀ entry ∈ trace (groupStep config) (initialGroup rows positions) passes,
        TimeoutsAgree config entry.1 entry.2) ∧
    ∀ before block after rank, passes = before ++ block ++ after →
      (∀ entry ∈ trace (groupStep config)
          (before.foldl (groupStep config) (initialGroup rows positions)) block,
        outputAllow config entry.1 entry.2 rank = false) →
      block.length ≤ (config.maxDelayPasses - 1).toNat := by
  refine ⟨?_, ?_⟩
  · exact forall_mem_trace_iff (groupStep config) (passAgrees_iff config)
      (fun _ _ _ agrees => agrees.2) passes fun _ _ => rfl
  · intro before block after rank _ delayed
    have initial : ∀ rank, 0 ≤ (initialGroup rows positions rank).delayedCount :=
      fun _ => le_refl (0 : ℤ)
    have nonneg := foldlRecOn (motive := fun group => ∀ rank, 0 ≤ (group rank).delayedCount)
      before (groupStep config) initial fun _ nonneg _ _ => delayedCount_nonneg_step config nonneg
    have bound := delays_le config delayed
    have start := nonneg rank
    omega

end Group

/-- Two ranks with the queue trigger at ratio one. -/
def queueDelayer : DelayerConfig :=
  { maxDelayPasses := 3
    queueMin := some id
    dpSize := 2
    enableDpAttention := true
    maxRunningRequests := 100 }

/-- Both ranks run four requests with one waiting; each reads its own clock. -/
def queuePass (first second : ℚ) : GroupPass 1 0 :=
  { calls := fun _ => [{ runningBatch := 4, maxPrefillBs := 4, waitingQueueLen := 1 }]
    tokenUsage := fun _ => 1 / 2
    clock := fun rank =>
      let now := if rank.1.val = 0 then first else second
      { waitInfo := now, queueTimeout := now, delayStart := now } }

/-- Two delayed passes. -/
theorem prefillDelayer_agreement_queueDelayer :
    [queuePass 0 0, queuePass 1 1].length ≤ (queueDelayer.maxDelayPasses - 1).toNat :=
  (prefillDelayer_agreement queueDelayer [queuePass 0 0, queuePass 0 0, queuePass 1 1]).2
    [queuePass 0 0] [queuePass 0 0, queuePass 1 1] [] (0, 0) rfl (by decide +kernel)

/-- The first pass skips the delay and the second one delays both ranks. On the
third the first rank has waited six seconds and the second one four: only the
first is past the default cap of five seconds, and the verdicts differ. -/
theorem prefillDelayer_disagreement :
    let group := [queuePass 0 0, queuePass 0 0].foldl (groupStep queueDelayer)
      (initialGroup 1 0)
    group.Agrees ∧ outputAllow queueDelayer group (queuePass 6 4) (0, 0) = true ∧
      outputAllow queueDelayer group (queuePass 6 4) (1, 0) = false ∧
      ¬ GroupState.Agrees (groupStep queueDelayer group (queuePass 6 4)) := by
  refine ⟨?_, by decide +kernel, by decide +kernel, ?_⟩
  · unfold GroupState.Agrees
    decide +kernel
  · unfold GroupState.Agrees
    decide +kernel

end AvaServe.Scheduler
