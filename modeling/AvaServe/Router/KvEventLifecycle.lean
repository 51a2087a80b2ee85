import AvaServe.Router.KvEventReattach

/-!
# Detaching and attaching over whole runs

A worker that is detached and stays so leaves no trace, and the first batch of a new
subscriber is compared with no cursor of an earlier one, in every run that clears and
marks at rest. A pump that is past its liveness test when `remove_worker` clears the
worker breaks both.
-/

namespace AvaServe.Router

open AvaServe.Foundation

namespace IndexState

/-- A step that clears at rest and covers the old ranks. -/
def CleanStep (state : IndexState) (action : IndexAction) (next : IndexState) : Prop :=
  Step state action next ∧ ClearsAtRest state action ∧ CoversRanks state action

/-- A clean step of serialized calls that also marks at rest. -/
def OrderlyStep (state : IndexState) (action : IndexAction) (next : IndexState) : Prop :=
  CleanStep state action next ∧ Serialized state action ∧ MarksAtRest state action

variable {actions : List IndexAction} {state : IndexState} {maintainTree : Bool}

/-- Every clean run is accounted for. -/
theorem accounted_of_path {now : ℕ}
    (path : Path CleanStep (IndexState.new now maintainTree) actions state) : Accounted state :=
  path.invariant Accounted
    (fun _ _ _ ⟨step, rest, covers⟩ accounted => accounted.step step rest covers)
    (accounted_new now maintainTree)

/-- The invariants of an orderly run. -/
structure Orderly (past : List IndexAction) (state : IndexState) : Prop where
  disciplined : Disciplined state
  sourced : Sourced state
  counted : Counted past state

/-- Every orderly run is orderly. -/
theorem orderly_of_path {now : ℕ}
    (path : Path OrderlyStep (IndexState.new now maintainTree) actions state) :
    Orderly actions state := by
  have start : Orderly [] (IndexState.new now maintainTree) :=
    ⟨⟨nofun, nofun, nofun, nofun, nofun⟩, sourced_new now maintainTree,
      counted_new now maintainTree⟩
  refine path.recorded Orderly ?_ start
  rintro past s action t ⟨⟨step, rest, covers⟩, serialized, marks⟩ ⟨disciplined, sourced, counted⟩
  exact ⟨disciplined.step step serialized, sourced.step disciplined step rest covers marks,
    counted.step sourced disciplined step⟩

/-- A detached URL stays detached along a run that does not add it. -/
theorem Detached.path {source target : IndexState} {url : String} (detached : Detached source url)
    (path : Path CleanStep source actions target)
    (noAdd : ∀ c cfg, IndexAction.beginAdd c url cfg ∉ actions) : Detached target url := by
  have other : ∀ action ∈ actions, ∀ c cfg, action ≠ .beginAdd c url cfg := by
    rintro action member c cfg rfl
    exact noAdd c cfg member
  refine (path.restrict other).invariant (fun state => Detached state url) ?_ detached
  rintro s action t ⟨⟨step, -⟩, other⟩ detached
  exact detached.step step other

/-- The first batch of a subscriber meets no cursor. -/
theorem Orderly.cursor_eq_none {past : List IndexAction} (orderly : Orderly past state)
    {message : Message} (phase : state.pump = .passed message)
    (batch : message.event.isBatch = true) (first : batchesReceived message.task past = [message]) :
    state.cursors message.event.worker = none := by
  by_contra present
  have honest : message.event.worker = message.task.worker := by
    have := orderly.sourced.honest
    rwa [phase] at this
  have more := orderly.counted.held message.task (by rw [phase]; rfl)
    (by rw [phase, ← honest]; rfl) (honest ▸ present)
  rw [Served, phase, PumpPhase.batchTask, if_pos batch, if_pos rfl, first] at more
  exact absurd more (lt_irrefl 1)

/-- In every run that clears at rest, a URL that is removed while no call is yet to record it,
and that is not added again, leaves neither a listing nor a cursor once its removals have
returned; and in every orderly run the first batch of a subscriber is not dropped as out of
order. -/
theorem detach_then_attach (now : ℕ) (maintainTree : Bool) :
    (∀ (before after : List IndexAction) (c : ℕ) (url : String) (s₁ s₂ s₃ : IndexState),
      Path CleanStep (IndexState.new now maintainTree) before s₁ →
      CleanStep s₁ (.beginRemove c url) s₂ →
      Path CleanStep s₂ after s₃ →
      (∀ d call, s₁.calls d = some call → call.url = url → call.records = false) →
      (∀ d cfg, IndexAction.beginAdd d url cfg ∉ after) →
      (∀ d call, s₃.calls d = some call → call.url = url → call.isAdd = true) →
      ∀ rank, ¬s₃.tree.Lists ⟨url, rank⟩ ∧ s₃.cursors ⟨url, rank⟩ = none) ∧
    (∀ (actions : List IndexAction) (state : IndexState) (message : Message)
        (worker : KvWorkerId) (seq : Int64) (events : List KvCacheEvent),
      Path OrderlyStep (IndexState.new now maintainTree) actions state →
      state.pump = .passed message →
      message.event = .batch worker seq events →
      batchesReceived message.task actions = [message] →
      state.outOfOrder worker seq = false) := by
  refine ⟨?_, ?_⟩
  · intro before after c url s₁ s₂ s₃ toRemove removes onwards noAdd noLater returned rank
    have accounted : Accounted s₃ := accounted_of_path (toRemove.append (.cons removes onwards))
    have started : Detached s₂ url := by
      obtain ⟨step, -⟩ := removes
      cases step
      exact detached_beginRemove c noAdd
    have untraced := (started.path onwards noLater).untraced accounted returned rank
    rw [Traced, not_or, not_not] at untraced
    exact untraced
  · intro actions state message worker seq events path phase event first
    have none := (orderly_of_path path).cursor_eq_none phase (by rw [event]; rfl) first
    rw [event, WorkerEvent.worker] at none
    rw [outOfOrder, none]

/-! ### A pump that is past its liveness test -/

namespace Race

/-- One rank, in blocks of 16. -/
def cfg : EventConfig := ⟨5557, 1, 16⟩

/-- One worker. -/
def worker : KvWorkerId := ⟨"w", 0⟩

/-- The subscriber of the first attachment, and of the second. -/
def firstTask : Task := ⟨worker, 0⟩

/-- Its second task. -/
def secondTask : Task := ⟨worker, 1⟩

/-- A stored block. -/
def stored : List KvCacheEvent := [.blockStored none [7]]

/-- The batch number 5 of the first publisher, and number 1 of the second. -/
def oldBatch : Message := ⟨firstTask, .batch worker 5 stored⟩

/-- The second task's batch. -/
def newBatch : Message := ⟨secondTask, .batch worker 1 stored⟩

/-- The worker is attached by call 0. -/
def attached : IndexState :=
  ((((new 0 true).beginAdd 0 "w" (some cfg)).addMark 0 "w" [0]).addRecord 0 "w" [0]).addSubscribe
    0 "w" [0]

/-- The pump has found the worker of the old batch alive. -/
def tested : IndexState := { attached with pump := .passed oldBatch }

/-- Call 1 removes the worker. -/
def removeWorker (state : IndexState) : IndexState :=
  let marked := ((state.beginRemove 1 "w").removeMark 1 "w" [0]).removeDrain 1 "w" [0]
  let joined := { marked with running := ∅ }.setCall 1 (some (.removeLock "w" [0]))
  let locked := { joined with cursorsHolder := some 1 }.setCall 1 (some (.removeClear "w" [0]))
  { locked.removeClear 1 .increasing "w" 0 [] with cursorsHolder := none }.setCall 1 none

/-- The pump applies the old batch. -/
def applyOld (state : IndexState) : IndexState :=
  (({ state with pump := .applying firstTask worker 5 stored }).pumpApply .increasing 1 firstTask
    worker 5 (.blockStored none [7]) []).pumpAdvance worker 5

/-- Call 2 attaches the worker again, and its first batch is tested. -/
def attachAgain (state : IndexState) : IndexState :=
  { (((state.beginAdd 2 "w" (some cfg)).addMark 2 "w" [0]).addRecord 2 "w" [0]).addSubscribe
      2 "w" [0] with pump := .passed newBatch }

/-- The pump applies the old batch after the removal, or before it. -/
def raced : IndexState := applyOld (removeWorker tested)

/-- The old batch is applied. -/
def served : IndexState := applyOld tested

/-- The actions up to the removal. -/
def toRemove : List IndexAction :=
  [.beginAdd 0 "w" (some cfg), .lifecycle 0, .lifecycle 0, .lifecycle 0,
    .send firstTask 5 stored, .receive oldBatch, .pump]

/-- The actions of the removal. -/
def fromRemove : List IndexAction :=
  [.lifecycle 1, .lifecycle 1, .exit firstTask, .lifecycle 1, .lifecycle 1, .lifecycle 1,
    .lifecycle 1, .pump, .pump, .pump]

/-- The actions of the second attach. -/
def again : List IndexAction :=
  [.beginAdd 2 "w" (some cfg), .lifecycle 2, .lifecycle 2, .lifecycle 2,
    .send secondTask 1 stored, .receive newBatch, .pump]

/-- The run up to the removal. -/
theorem path_tested : Path Step (new 0 true) toRemove tested :=
  .cons (.beginAdd rfl _ _) <| .cons (@Step.addMark _ _ "w" [0] rfl) <|
    .cons (.addRecord rfl) <| .cons (.addSubscribe rfl) <|
    .cons (.send (by decide) (by decide) 5 stored) <| .cons (.receive rfl rfl) <|
    .cons (.pumpCheck rfl) <| .nil _

/-- The run of the removal. -/
theorem path_raced : Path Step (tested.beginRemove 1 "w") fromRemove raced :=
  .cons (@Step.removeMark _ _ "w" [0] rfl) <| .cons (.removeDrain rfl) <|
    .cons (.exit (by decide)) <| .cons (.removeJoin rfl (by decide)) <|
    .cons (.removeLock rfl rfl) <| .cons (.removeClear rfl .increasing) <|
    .cons (.removeUnlock rfl) <| .cons (.pumpCursor rfl rfl) <|
    .cons (.pumpApply rfl .increasing 1) <| .cons (.pumpAdvance rfl rfl) <| .nil _

/-- The run of the second attach. -/
theorem path_retested : Path Step raced again (attachAgain raced) :=
  .cons (.beginAdd rfl _ _) <| .cons (@Step.addMark _ _ "w" [0] rfl) <|
    .cons (.addRecord rfl) <| .cons (.addSubscribe rfl) <|
    .cons (.send (by decide) (by decide) 1 stored) <| .cons (.receive rfl rfl) <|
    .cons (.pumpCheck rfl) <| .nil _

/-- No call is left before it. -/
theorem calls_tested (d : ℕ) : tested.calls d = none := by rcases d with _ | d <;> rfl

/-- None is left after a removal. -/
theorem calls_removed (d : ℕ) : (removeWorker served).calls d = none := by
  rcases d with _ | _ | d <;> rfl

/-- None is left after the raced one. -/
theorem calls_raced (d : ℕ) : raced.calls d = none := by rcases d with _ | _ | d <;> rfl

/-- The old batch lists the worker. -/
theorem lists_applyOld {state : IndexState} (wf : state.tree.WellFormed) :
    (applyOld state).tree.Lists worker := by
  obtain ⟨id, inside, -, -, lists⟩ :=
    ((TreeState.insert_spec wf .increasing 1 worker none [7]).2 worker 7).mpr (.inr ⟨rfl, by simp⟩)
  exact ⟨id, inside, lists⟩

/-- The tree still lists the worker. -/
theorem lists_raced : raced.tree.Lists worker :=
  lists_applyOld (TreeState.clearWorker_spec (TreeState.wellFormed_new 0) .increasing worker).1

/-- A step while no lifecycle call is under way is orderly. -/
theorem orderly_of_no_calls {state next : IndexState} {action : IndexAction}
    (step : Step state action next) (none : ∀ d, state.calls d = none) :
    OrderlyStep state action next := by
  refine ⟨⟨step, fun c url rank ranks _ call => ?_, fun c url ranks old _ call => ?_⟩,
    fun c url _ d call found => ?_, fun c url ranks _ call => ?_⟩
  · rw [none] at call
    cases call
  · rw [none] at call
    cases call
  · rw [none] at found
    cases found
  · rw [none] at call
    cases call

/-- A step of a lifecycle call with the pump idle and nothing buffered is orderly, if it
does not replace an entry. -/
theorem orderly_of_idle {state next : IndexState} {c : ℕ} (step : Step state (.lifecycle c) next)
    (idle : state.pump = .idle) (empty : state.channel = [])
    (unrecorded : ∀ url ranks, state.calls c = some (.addRecord url ranks) → state.workers url =
      none) : OrderlyStep state (.lifecycle c) next := by
  refine ⟨⟨step, fun d url rank ranks same call => ?_, fun d url ranks old same call entry => ?_⟩,
    ?_, fun d url ranks same call rank inside dead => ?_⟩
  · rw [idle]
    nofun
  · cases same
    rw [unrecorded url ranks call] at entry
    cases entry
  · rintro d url (started | ⟨cfg, started⟩) <;> cases started
  · rw [Quiet, idle, empty]
    constructor
    · rintro _ ⟨⟩
    · rintro _ ⟨⟩

/-- An exit is orderly. -/
theorem orderly_exit {state next : IndexState} {task : Task}
    (step : Step state (.exit task) next) : OrderlyStep state (.exit task) next :=
  ⟨⟨step, nofun, nofun⟩, (by rintro d url (started | ⟨cfg, started⟩) <;> cases started), nofun⟩

/-- The worker is attached without a disturbance. -/
theorem path_attached : Path OrderlyStep (new 0 true) (toRemove.take 4) attached :=
  .cons (orderly_of_no_calls (.beginAdd rfl _ _) fun _ => rfl) <|
    .cons (orderly_of_idle (@Step.addMark _ _ "w" [0] rfl) rfl rfl nofun) <|
    .cons (orderly_of_idle (.addRecord rfl) rfl rfl fun _ _ _ => rfl) <|
    .cons (orderly_of_idle (.addSubscribe rfl) rfl rfl nofun) <| .nil _

/-- No call is left after an attach. -/
theorem calls_attached (d : ℕ) : attached.calls d = none := by rcases d with _ | d <;> rfl

/-- The first batch of the attached worker is applied. -/
theorem path_served : Path OrderlyStep (new 0 true) (toRemove ++ [.pump, .pump, .pump]) served :=
  path_attached.append <|
    .cons (orderly_of_no_calls (.send (by decide) (by decide) 5 stored) calls_attached) <|
    .cons (orderly_of_no_calls (.receive rfl rfl) calls_attached) <|
    .cons (orderly_of_no_calls (.pumpCheck rfl) calls_attached) <|
    .cons (orderly_of_no_calls (.pumpCursor rfl rfl) calls_tested) <|
    .cons (orderly_of_no_calls (.pumpApply rfl .increasing 1) calls_tested) <|
    .cons (orderly_of_no_calls (.pumpAdvance rfl rfl) calls_tested) <| .nil _

/-- The worker is removed with nothing buffered. -/
theorem path_removed :
    Path OrderlyStep (served.beginRemove 1 "w") (fromRemove.take 7) (removeWorker served) :=
  .cons (orderly_of_idle (@Step.removeMark _ _ "w" [0] rfl) rfl rfl nofun) <|
    .cons (orderly_of_idle (.removeDrain rfl) rfl rfl nofun) <|
    .cons (orderly_exit (.exit (by decide))) <|
    .cons (orderly_of_idle (.removeJoin rfl (by decide)) rfl rfl nofun) <|
    .cons (orderly_of_idle (.removeLock rfl rfl) rfl rfl nofun) <|
    .cons (orderly_of_idle (.removeClear rfl .increasing) rfl rfl nofun) <|
    .cons (orderly_of_idle (.removeUnlock rfl) rfl rfl nofun) <| .nil _

/-- It is attached again, and its first batch is tested. -/
theorem path_again : Path OrderlyStep (removeWorker served) again
    (attachAgain (removeWorker served)) := by
  have calls (d : ℕ) : (attachAgain (removeWorker served)).calls d = none := by
    rcases d with _ | _ | _ | d <;> rfl
  have recorded (url : String) (ranks : List UInt32)
      (found : some (Call.addRecord "w" [0]) = some (.addRecord url ranks)) :
      (removeWorker served).workers url = none := by
    cases found
    rfl
  exact .cons (orderly_of_no_calls (.beginAdd rfl _ _) calls_removed) <|
    .cons (orderly_of_idle (@Step.addMark _ _ "w" [0] rfl) rfl rfl nofun) <|
    .cons (orderly_of_idle (.addRecord rfl) rfl rfl recorded) <|
    .cons (orderly_of_idle (.addSubscribe rfl) rfl rfl nofun) <|
    .cons (orderly_of_no_calls (.send (by decide) (by decide) 1 stored) calls) <|
    .cons (orderly_of_no_calls (.receive rfl rfl) calls) <|
    .cons (orderly_of_no_calls (.pumpCheck rfl) calls) <| .nil _

/-- A worker stores a block and is removed, which leaves no trace of it; it is attached again,
and the batch number 1 of its new publisher is accepted. -/
theorem detach_then_attach_one_worker : ∃ s₁ s₂ s₃ : IndexState,
    Path OrderlyStep (new 0 true) (toRemove ++ [.pump, .pump, .pump]) s₁ ∧
      s₁.tree.Lists worker ∧ s₁.cursors worker = some 5 ∧
    Path OrderlyStep s₁ (.beginRemove 1 "w" :: fromRemove.take 7) s₂ ∧
      (∀ rank, ¬s₂.tree.Lists ⟨"w", rank⟩ ∧ s₂.cursors ⟨"w", rank⟩ = none) ∧
    Path OrderlyStep s₂ again s₃ ∧ s₃.pump = .passed newBatch ∧
      s₃.outOfOrder worker 1 = false := by
  obtain ⟨detaches, attaches⟩ := detach_then_attach 0 true
  have clean : ∀ s a t, OrderlyStep s a t → CleanStep s a t := fun _ _ _ step => step.1
  have removes : OrderlyStep served (.beginRemove 1 "w") (served.beginRemove 1 "w") :=
    orderly_of_no_calls (.beginRemove rfl "w") calls_tested
  refine ⟨served, removeWorker served, _, path_served,
    lists_applyOld (TreeState.wellFormed_new 0), by decide, .cons removes path_removed,
    detaches _ _ 1 "w" _ _ _ (path_served.mono clean) (clean _ _ _ removes)
      (path_removed.mono clean) ?_ ?_ ?_, path_again, rfl,
    attaches _ _ newBatch worker 1 stored
      ((path_served.append (.cons removes path_removed)).append path_again) rfl rfl (by decide)⟩
  · intro d call found
    rw [show served.calls d = none from calls_tested d] at found
    cases found
  · intro d cfg
    simp [fromRemove]
  · intro d call found
    rw [calls_removed] at found
    cases found

/-- `remove_worker` returns while the pump is past its liveness test with a batch of the
worker. The pump then applies the batch, so the removed worker is listed and has a
cursor with every call returned and nothing buffered; when the worker is attached
again, the first batch of its new publisher, number 1, is dropped as out of order. -/
theorem removal_races_pump : ∃ s₁ s₂ s₃ s₄ : IndexState,
      Path Step (new 0 true) toRemove s₁ ∧ Step s₁ (.beginRemove 1 "w") s₂ ∧
      Path Step s₂ fromRemove s₃ ∧
      (∀ d, s₁.calls d = none) ∧ (∀ d cfg, IndexAction.beginAdd d "w" cfg ∉ fromRemove) ∧
      (∀ d, s₃.calls d = none) ∧ s₃.pump = .idle ∧ s₃.channel = [] ∧
      s₃.tree.Lists worker ∧ s₃.cursors worker = some 5 ∧
      Path Step s₃ again s₄ ∧ s₄.pump = .passed newBatch ∧
      newBatch.event = .batch worker 1 stored ∧
      batchesReceived newBatch.task (toRemove ++ .beginRemove 1 "w" :: fromRemove ++ again) =
        [newBatch] ∧
      s₄.outOfOrder worker 1 = true := by
  refine ⟨tested, tested.beginRemove 1 "w", raced, attachAgain raced, path_tested,
    .beginRemove rfl "w", path_raced, calls_tested, ?_, calls_raced, rfl, rfl, lists_raced,
    by decide, path_retested, rfl, rfl, by decide, by decide⟩
  intro d cfg
  simp [fromRemove]

end Race

end IndexState

end AvaServe.Router
