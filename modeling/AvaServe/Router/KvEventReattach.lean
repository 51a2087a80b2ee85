import AvaServe.Router.KvEventDetach

/-!
# Attaching a worker again

When the lifecycle calls of one URL do not overlap and a rank is marked live only
after the pump has gone through the events of its earlier subscription, the cursor of
an attached rank always comes from its present subscriber, so the first batch of a
new subscriber is never taken for an old one.
-/

namespace AvaServe.Router

open Foundation List Function

/-- The task whose message the pump has in hand. -/
def PumpPhase.task : PumpPhase → Option Task
  | .idle => none
  | .received message | .passed message => some message.task
  | .applying task _ _ _ => some task

/-- The worker of the message in hand is the one its task is subscribed to. -/
def PumpPhase.Honest : PumpPhase → Prop
  | .idle => True
  | .received message | .passed message => message.event.worker = message.task.worker
  | .applying task worker _ _ => worker = task.worker

/-- The event is a batch. -/
def WorkerEvent.isBatch : WorkerEvent → Bool
  | .batch _ _ _ => true
  | .publisherReset _ => false

/-- The task whose batch the pump has in hand. -/
def PumpPhase.batchTask : PumpPhase → Option Task
  | .idle => none
  | .received message | .passed message => if message.event.isBatch then some message.task else none
  | .applying task _ _ _ => some task

/-- The batches of a task that the pump has received. -/
def batchesReceived (task : Task) (actions : List IndexAction) : List Message :=
  actions.filterMap fun
    | .receive message => if message.task = task ∧ message.event.isBatch then some message else none
    | _ => none

/-- One more action. -/
theorem batchesReceived_append (task : Task) (actions : List IndexAction) (action : IndexAction) :
    batchesReceived task (actions ++ [action]) =
      batchesReceived task actions ++ batchesReceived task [action] :=
  filterMap_append

namespace Call

/-- The call has taken the worker's handle and has yet to clear it. -/
def released (call : Call) (worker : KvWorkerId) : Prop :=
  match call with
  | .removeJoin url ranks _ | .removeLock url ranks | .removeClear url ranks =>
    worker.url = url ∧ worker.dpRank ∈ ranks
  | _ => False

/-- The call will take the worker's handle. -/
def drains (call : Call) (worker : KvWorkerId) : Prop :=
  match call with
  | .removeMark url ranks | .removeDrain url ranks => worker.url = url ∧ worker.dpRank ∈ ranks
  | _ => False

/-- The call has marked the worker live and has yet to subscribe to it. -/
def attaches (call : Call) (worker : KvWorkerId) : Prop :=
  match call with
  | .addRecord url ranks | .addSubscribe url ranks => worker.url = url ∧ worker.dpRank ∈ ranks
  | _ => False

/-- The call has marked the worker dead and has yet to clear it. -/
def dead (call : Call) (worker : KvWorkerId) : Prop :=
  match call with
  | .removeDrain url ranks | .removeJoin url ranks _ | .removeLock url ranks
  | .removeClear url ranks => worker.url = url ∧ worker.dpRank ∈ ranks
  | _ => False

variable {call : Call} {worker : KvWorkerId}

/-- A call releases workers of its url. -/
theorem released_url (released : call.released worker) : worker.url = call.url := by
  cases call <;> first | exact released.1 | exact released.elim

/-- It drains such workers. -/
theorem drains_url (drains : call.drains worker) : worker.url = call.url := by
  cases call <;> first | exact drains.1 | exact drains.elim

/-- It attaches such workers. -/
theorem attaches_url (attaches : call.attaches worker) : worker.url = call.url := by
  cases call <;> first | exact attaches.1 | exact attaches.elim

/-- Only an add attaches. -/
theorem isAdd_of_attaches (attaches : call.attaches worker) : call.isAdd = true := by
  cases call <;> first | rfl | exact attaches.elim

/-- The dead workers of a call are of its url. -/
theorem dead_url (dead : call.dead worker) : worker.url = call.url := by
  cases call <;> first | exact dead.1 | exact dead.elim

/-- The tasks the call has taken are the only ones of its URL that still run, and none
does once it has joined them. -/
def Joins (call : Call) (running : Finset Task) : Prop :=
  match call with
  | .removeJoin url _ tasks => ∀ task ∈ running, task.worker.url = url → task ∈ tasks
  | .removeLock url _ | .removeClear url _ => ∀ task ∈ running, task.worker.url ≠ url
  | _ => True

/-- Fewer tasks run. -/
theorem Joins.anti {running fewer : Finset Task} (joins : call.Joins running)
    (subset : fewer ⊆ running) : call.Joins fewer := by
  cases call <;> first | exact fun task member => joins task (subset member) | trivial

end Call

namespace IndexState

/-- A lifecycle call starts when no other call of its URL is under way. -/
def Serialized (state : IndexState) (action : IndexAction) : Prop :=
  ∀ c url, (action = .beginRemove c url ∨ ∃ cfg, action = .beginAdd c url cfg) →
    ∀ d call, state.calls d = some call → call.url ≠ url

/-- The worker has no message in the channel or in the pump's hands. -/
def Quiet (state : IndexState) (worker : KvWorkerId) : Prop :=
  (∀ message ∈ state.channel, message.task.worker ≠ worker) ∧
    ∀ task, state.pump.task = some task → task.worker ≠ worker

/-- When `add_worker` marks a rank live that was not, no message of an earlier
subscription to it is left. -/
def MarksAtRest (state : IndexState) (action : IndexAction) : Prop :=
  ∀ c url ranks, action = .lifecycle c → state.calls c = some (.addMark url ranks) →
    ∀ rank ∈ ranks, (⟨url, rank⟩ : KvWorkerId) ∉ state.live → state.Quiet ⟨url, rank⟩

/-! ### Calls of one URL do not overlap -/

/-- What serialized calls keep of the calls, the entries and the live set. -/
structure Disciplined (state : IndexState) : Prop where
  one : ∀ {c d : ℕ} {call other : Call}, state.calls c = some call →
    state.calls d = some other → call.url = other.url → c = d
  subscribing : ∀ {c : ℕ} {url : String} {ranks : List UInt32},
    state.calls c = some (.addSubscribe url ranks) → state.workers url = some ranks
  removing : ∀ {c : ℕ} {call : Call}, state.calls c = some call → call.isAdd = false →
    state.workers call.url = none
  attached : ∀ {c : ℕ} {call : Call} {worker : KvWorkerId}, state.calls c = some call →
    call.attaches worker → worker ∈ state.live
  dead : ∀ {c : ℕ} {call : Call} {worker : KvWorkerId}, state.calls c = some call →
    call.dead worker → worker ∉ state.live

variable {state next : IndexState} {c : ℕ} {url : String} {ranks : List UInt32}
  {action : IndexAction} {past : List IndexAction} {task : Task}

section

variable (disciplined : Disciplined state)
include disciplined

/-- The discipline reads calls, workers and live set. -/
theorem Disciplined.frame (calls : next.calls = state.calls)
    (workers : next.workers = state.workers) (live : next.live = state.live) :
    Disciplined next where
  one := fun here there => disciplined.one (calls ▸ here) (calls ▸ there)
  subscribing := fun here => by
    rw [workers]
    exact disciplined.subscribing (calls ▸ here)
  removing := fun here => by
    rw [workers]
    exact disciplined.removing (calls ▸ here)
  attached := fun here => by
    rw [live]
    exact disciplined.attached (calls ▸ here)
  dead := fun here => by
    rw [live]
    exact disciplined.dead (calls ▸ here)

/-- One call starts, moves on or ends: what has to hold of the call itself, and of the
entries and the live set for other URLs. -/
theorem Disciplined.move {later : Option Call}
    (alone : ∀ d call, d ≠ c → state.calls d = some call → call.url ≠ url)
    (calls : next.calls = update state.calls c later)
    (workers : ∀ other, other ≠ url → next.workers other = state.workers other)
    (live : ∀ worker : KvWorkerId, worker.url ≠ url → (worker ∈ next.live ↔ worker ∈ state.live))
    (named : ∀ call, later = some call → call.url = url)
    (subscribing : ∀ ranks, later = some (.addSubscribe url ranks) → next.workers url = some ranks)
    (removing : ∀ call, later = some call → call.isAdd = false → next.workers url = none)
    (attached : ∀ call worker, later = some call → call.attaches worker → worker ∈ next.live)
    (dead : ∀ call worker, later = some call → call.dead worker → worker ∉ next.live) :
    Disciplined next := by
  have source : ∀ {d : ℕ} {call : Call}, next.calls d = some call →
      (d = c ∧ later = some call) ∨ (d ≠ c ∧ state.calls d = some call ∧ call.url ≠ url) := by
    intro d call here
    exact (call_cases calls here).imp_right fun ⟨other, found⟩ =>
      ⟨other, found, alone d call other found⟩
  constructor
  · intro d e call other here there same
    rcases source here with ⟨rfl, isLater⟩ | ⟨_, found, foreign⟩
    · rcases source there with ⟨rfl, -⟩ | ⟨-, -, foreign⟩
      · rfl
      · exact absurd (same.symm.trans (named call isLater)) foreign
    · rcases source there with ⟨rfl, isLater⟩ | ⟨-, found', -⟩
      · exact absurd (same.trans (named other isLater)) foreign
      · exact disciplined.one found found' same
  · intro d url' ranks here
    rcases source here with ⟨rfl, isLater⟩ | ⟨-, found, foreign⟩
    · obtain rfl : url' = url := named _ isLater
      exact subscribing ranks isLater
    · rw [workers url' foreign]
      exact disciplined.subscribing found
  · intro d call here kind
    rcases source here with ⟨rfl, isLater⟩ | ⟨-, found, foreign⟩
    · rw [named call isLater]
      exact removing call isLater kind
    · rw [workers _ foreign]
      exact disciplined.removing found kind
  · intro d call worker here attaches
    rcases source here with ⟨rfl, isLater⟩ | ⟨-, found, foreign⟩
    · exact attached call worker isLater attaches
    · exact (live worker (Call.attaches_url attaches ▸ foreign)).mpr
        (disciplined.attached found attaches)
  · intro d call worker here isDead
    rcases source here with ⟨rfl, isLater⟩ | ⟨-, found, foreign⟩
    · exact dead call worker isLater isDead
    · exact fun inside => disciplined.dead found isDead
        ((live worker (Call.dead_url isDead ▸ foreign)).mp inside)

/-- The call under way is the only one of its URL. -/
theorem Disciplined.alone {call : Call} (here : state.calls c = some call) :
    ∀ d other, d ≠ c → state.calls d = some other → other.url ≠ call.url :=
  fun _ _ different there same => different (disciplined.one there here same)

/-- One call at a time for a url. -/
theorem Disciplined.call_eq {d : ℕ} {call other : Call} (here : state.calls c = some call)
    (found : state.calls d = some other) (same : other.url = call.url) : other = call := by
  obtain rfl := disciplined.one found here same
  exact Option.some.inj (found.symm.trans here)

/-- A step of `remove_worker` after it has marked the ranks dead. -/
theorem Disciplined.removeMoves {old later : Call} (call : state.calls c = some old)
    (calls : next.calls = update state.calls c (some later))
    (workers : next.workers = state.workers) (live : next.live = state.live)
    (url : later.url = old.url) (kind : old.isAdd = false) (kind' : later.isAdd = false)
    (dead : ∀ worker, later.dead worker → old.dead worker) : Disciplined next := by
  refine disciplined.move (disciplined.alone call) calls (fun _ _ => by rw [workers])
    (fun _ _ => by rw [live]) ?_ ?_ ?_ ?_ ?_
  · rintro _ ⟨⟩
    exact url
  · rintro _ ⟨⟩
    cases kind'
  · rintro _ ⟨⟩ -
    rw [workers]
    exact disciplined.removing call kind
  · rintro _ worker ⟨⟩ attaches
    rw [Call.isAdd_of_attaches attaches] at kind'
    cases kind'
  · rintro _ worker ⟨⟩ isDead
    rw [live]
    exact disciplined.dead call (dead worker isDead)

/-- Serialized steps keep the discipline. -/
theorem Disciplined.step (step : Step state action next)
    (serialized : Serialized state action) : Disciplined next := by
  cases step with
  | @beginAdd c free url cfg =>
    obtain ⟨_, _, same, rfl | ⟨ranks, rfl⟩⟩ := exists_beginAdd_eq state c url cfg
    · rw [same]
      exact disciplined.frame rfl rfl rfl
    · rw [same]
      refine disciplined.move (fun d call _ => serialized c url (.inr ⟨cfg, rfl⟩) d call) rfl
        (fun _ _ => rfl) (fun _ _ => Iff.rfl) ?_ nofun nofun nofun nofun
      rintro call ⟨⟩
      rfl
  | @addMark c url ranks call =>
    refine disciplined.move (disciplined.alone call) rfl (fun _ _ => rfl) ?_ ?_ nofun nofun ?_ nofun
    · intro worker foreign
      refine Finset.mem_union.trans (or_iff_left fun new => foreign ?_)
      exact (mem_map_mk.mp (mem_toFinset.mp new)).1
    · rintro _ ⟨⟩
      rfl
    · rintro _ worker ⟨⟩ attaches
      exact Finset.mem_union_right _ (mem_toFinset.mpr (mem_map_mk.mpr attaches))
  | @addRecord c url ranks call =>
    refine disciplined.move (disciplined.alone call) rfl
      (fun other different => update_of_ne different _ _) (fun _ _ => Iff.rfl)
      ?_ ?_ nofun ?_ nofun
    · rintro _ ⟨⟩
      rfl
    · rintro _ ⟨⟩
      exact update_self ..
    · rintro _ worker ⟨⟩ attaches
      exact disciplined.attached call attaches
  | @addSubscribe c url ranks call =>
    obtain ⟨_, _, _, same⟩ := exists_addSubscribe_eq state c url ranks
    rw [same]
    exact disciplined.move (disciplined.alone call) rfl (fun _ _ => rfl) (fun _ _ => Iff.rfl)
      nofun nofun nofun nofun nofun
  | @beginRemove c free url =>
    unfold IndexState.beginRemove
    split
    next => exact disciplined
    next ranks entry =>
      refine disciplined.move (fun d call _ => serialized c url (.inl rfl) d call) rfl
        (fun other different => update_of_ne different _ _) (fun _ _ => Iff.rfl)
        ?_ nofun ?_ nofun nofun
      · rintro _ ⟨⟩
        rfl
      · rintro _ ⟨⟩ -
        exact update_self ..
  | @removeMark c url ranks call =>
    refine disciplined.move (disciplined.alone call) rfl (fun _ _ => rfl) ?_ ?_ nofun ?_ nofun ?_
    · intro worker foreign
      refine Finset.mem_sdiff.trans (and_iff_left fun gone => foreign ?_)
      exact (mem_map_mk.mp (mem_toFinset.mp gone)).1
    · rintro _ ⟨⟩
      rfl
    · rintro _ ⟨⟩ -
      exact disciplined.removing call rfl
    · rintro _ worker ⟨⟩ isDead inside
      exact (Finset.mem_sdiff.mp inside).2 (mem_toFinset.mpr (mem_map_mk.mpr isDead))
  | removeDrain call | removeJoin call | removeLock call =>
    exact disciplined.removeMoves call rfl rfl rfl rfl rfl rfl fun _ isDead => isDead
  | removeClear call =>
    exact disciplined.removeMoves call rfl rfl rfl rfl rfl rfl
      fun _ isDead => ⟨isDead.1, .tail _ isDead.2⟩
  | @removeUnlock c url call =>
    exact disciplined.move (disciplined.alone call) rfl (fun _ _ => rfl) (fun _ _ => Iff.rfl)
      nofun nofun nofun nofun nofun
  | send | exit | receive | pumpCheck | pumpApply | pumpAdvance =>
    exact disciplined.frame rfl rfl rfl
  | pumpCursor =>
    unfold IndexState.pumpCursor
    split <;> exact disciplined.frame rfl rfl rfl

end

/-! ### Every worker has one source of messages -/

/-- Nothing of the task's worker comes from another task. -/
structure Owner (state : IndexState) (task : Task) : Prop where
  handles : ∀ other ∈ state.handles, other.worker = task.worker → other = task
  running : ∀ other ∈ state.running, other.worker = task.worker → other = task
  channel : ∀ message ∈ state.channel, message.task.worker = task.worker → message.task = task
  pump : ∀ other, state.pump.task = some other → other.worker = task.worker → other = task

/-- Nothing is left of a worker but, while it is dead, messages that will be dropped. -/
structure Vacant (state : IndexState) (worker : KvWorkerId) : Prop where
  running : ∀ task ∈ state.running, task.worker ≠ worker
  cursor : state.cursors worker = none
  pump : state.pump.holds ≠ some worker
  quiet : worker ∈ state.live → state.Quiet worker

/-- A `remove_worker` under way has taken the worker's handle and not yet cleared it. -/
def Released (state : IndexState) (worker : KvWorkerId) : Prop :=
  ∃ c call, state.calls c = some call ∧ call.released worker

/-- **Where batches and cursors come from.** -/
structure Sourced (state : IndexState) : Prop where
  honest : state.pump.Honest
  honestChannel : ∀ message ∈ state.channel, message.event.worker = message.task.worker
  owner : ∀ task ∈ state.handles, state.Owner task
  vacant : ∀ worker, (∀ task ∈ state.handles, task.worker ≠ worker) → ¬state.Released worker →
    state.Vacant worker
  drained : ∀ task ∈ state.handles, state.Backed Call.drains task.worker
  joins : ∀ c call, state.calls c = some call → call.Joins state.running

/-- It holds of a new index. -/
theorem sourced_new (now : ℕ) (maintainTree : Bool) :
    Sourced (IndexState.new now maintainTree) where
  honest := trivial
  honestChannel := nofun
  owner := nofun
  vacant := fun _ _ _ =>
    { running := fun task member => absurd member (Finset.notMem_empty task)
      cursor := rfl
      pump := nofun
      quiet := nofun }
  drained := nofun
  joins := nofun

section

variable (sourced : Sourced state)
include sourced

/-- The pump holds honest messages. -/
theorem Sourced.honestIn {phase : PumpPhase} (here : state.pump = phase) : phase.Honest :=
  here ▸ sourced.honest

/-- A lifecycle call starts, moves on or ends without touching the subscribers, the
channel, the pump or the cursors. -/
theorem Sourced.move {old later : Option Call} (here : state.calls c = old)
    (calls : next.calls = update state.calls c later) (handles : next.handles = state.handles)
    (running : next.running = state.running) (channel : next.channel = state.channel)
    (pump : next.pump = state.pump) (cursors : next.cursors = state.cursors)
    (live : ∀ worker ∈ next.live, worker ∈ state.live ∨ state.Quiet worker)
    (released : ∀ call worker, old = some call → call.released worker → next.Released worker)
    (recorded : ∀ worker, state.Recorded worker → next.Backed Call.drains worker)
    (drains : ∀ call worker, old = some call → call.drains worker → next.Backed Call.drains worker)
    (joins : ∀ call, later = some call → call.Joins state.running) : Sourced next := by
  constructor
  · rw [pump]
    exact sourced.honest
  · rw [channel]
    exact sourced.honestChannel
  · intro task member
    obtain ⟨handles', running', channel', pump'⟩ := sourced.owner task (handles ▸ member)
    exact ⟨handles ▸ handles', running ▸ running', channel ▸ channel', pump ▸ pump'⟩
  · intro worker noHandle notReleased
    have before : state.Vacant worker := by
      refine sourced.vacant worker (handles ▸ noHandle) ?_
      rintro ⟨d, call, found, stands⟩
      rcases call_cases (calls_undo here calls) found with ⟨-, isOld⟩ | ⟨-, found⟩
      · exact notReleased (released call worker isOld stands)
      · exact notReleased ⟨d, call, found, stands⟩
    have quiet : next.Quiet worker ↔ state.Quiet worker := by rw [Quiet, Quiet, channel, pump]
    exact ⟨running ▸ before.running, by rw [cursors, before.cursor], pump ▸ before.pump,
      fun alive => quiet.mpr ((live worker alive).elim before.quiet id)⟩
  · intro task member
    exact (sourced.drained task (handles ▸ member)).move here calls (recorded task.worker)
      (drains · task.worker)
  · intro d call found
    rw [running]
    rcases call_cases calls found with ⟨-, isLater⟩ | ⟨-, found⟩
    · exact joins call isLater
    · exact sourced.joins d call found

/-- Marking keeps it. -/
theorem Sourced.addMark (call : state.calls c = some (.addMark url ranks))
    (quiet : ∀ rank ∈ ranks, (⟨url, rank⟩ : KvWorkerId) ∉ state.live → state.Quiet ⟨url, rank⟩) :
    Sourced (state.addMark c url ranks) := by
  refine sourced.move call rfl rfl rfl rfl rfl rfl ?_ nofun (fun _ => .inl) nofun ?_
  · intro worker alive
    rcases Finset.mem_union.mp alive with old | new
    · exact .inl old
    · obtain ⟨rank, inside, rfl⟩ := mem_map.mp (mem_toFinset.mp new)
      exact (em _).imp_right (quiet rank inside)
  · rintro _ ⟨⟩
    trivial

/-- So does recording. -/
theorem Sourced.addRecord (call : state.calls c = some (.addRecord url ranks))
    (covers : ∀ old, state.workers url = some old → old ⊆ ranks) :
    Sourced (state.addRecord c url ranks) := by
  refine sourced.move call rfl rfl rfl rfl rfl rfl (fun _ => .inl) nofun ?_ nofun ?_
  · rintro worker ⟨old, entry, inside⟩
    by_cases same : worker.url = url
    · rw [same] at entry
      refine .inl ⟨ranks, ?_, covers old entry inside⟩
      rw [same]
      exact update_self ..
    · exact .inl ⟨old, (update_of_ne same _ _).trans entry, inside⟩
  · rintro _ ⟨⟩
    trivial

/-- So does the start of a removal. -/
theorem Sourced.beginRemove (free : state.calls c = none) (url : String) :
    Sourced (state.beginRemove c url) := by
  unfold IndexState.beginRemove
  split
  next => exact sourced
  next ranks entry =>
    refine sourced.move free rfl rfl rfl rfl rfl rfl (fun _ => .inl) nofun ?_ nofun ?_
    · rintro worker ⟨old, recorded, inside⟩
      by_cases same : worker.url = url
      · rw [same, entry, Option.some.injEq] at recorded
        subst recorded
        exact .of_call (setCall_calls_self ..) ⟨same, inside⟩
      · exact .inl ⟨old, (update_of_ne same _ _).trans recorded, inside⟩
    · rintro _ ⟨⟩
      trivial

/-- So does unmarking. -/
theorem Sourced.removeMark (call : state.calls c = some (.removeMark url ranks)) :
    Sourced (state.removeMark c url ranks) := by
  refine sourced.move call rfl rfl rfl rfl rfl rfl
    (fun worker alive => .inl (Finset.mem_sdiff.mp alive).1) nofun (fun _ => .inl) ?_ ?_
  · rintro _ worker ⟨⟩ drains
    exact .of_call (setCall_calls_self ..) drains
  · rintro _ ⟨⟩
    trivial

/-- The handles of a URL that `remove_worker` drains are those of the ranks it will
clear. -/
theorem Sourced.mem_ranks (disciplined : Disciplined state)
    (call : state.calls c = some (.removeDrain url ranks)) (member : task ∈ state.handles)
    (here : task.worker.url = url) : task.worker.dpRank ∈ ranks := by
  rcases sourced.drained task member with ⟨old, entry, -⟩ | ⟨d, other, found, drains⟩
  · have noEntry : state.workers url = none := disciplined.removing call rfl
    rw [here, noEntry] at entry
    cases entry
  · obtain rfl := disciplined.call_eq call found ((Call.drains_url drains).symm.trans here)
    exact drains.2

/-- So does draining. -/
theorem Sourced.removeDrain (disciplined : Disciplined state)
    (call : state.calls c = some (.removeDrain url ranks)) :
    Sourced (state.removeDrain c url ranks) := by
  have here : (state.removeDrain c url ranks).calls c = some (.removeJoin url ranks
      (state.handles.filter fun task => task.worker.url = url)) := setCall_calls_self ..
  have calls : (state.removeDrain c url ranks).calls = update state.calls c _ := rfl
  have notReleased : ∀ worker : KvWorkerId, worker.url = url → ¬state.Released worker := by
    rintro worker same ⟨d, other, found, released⟩
    obtain rfl := disciplined.call_eq call found ((Call.released_url released).symm.trans same)
    exact released
  constructor
  · exact sourced.honest
  · exact sourced.honestChannel
  · intro task member
    obtain ⟨handles, running, channel, pump⟩ := sourced.owner task (Finset.mem_filter.mp member).1
    exact ⟨fun other inside => handles other (Finset.mem_filter.mp inside).1, running, channel,
      pump⟩
  · intro worker noHandle released
    have noHandleBefore : ∀ task ∈ state.handles, task.worker ≠ worker := by
      rintro task member rfl
      by_cases same : task.worker.url = url
      · exact released ⟨c, _, here, same, sourced.mem_ranks disciplined call member same⟩
      · exact noHandle task (Finset.mem_filter.mpr ⟨member, same⟩) rfl
    have vacant : state.Vacant worker := by
      refine sourced.vacant worker noHandleBefore ?_
      rintro ⟨d, other, found, stands⟩
      rcases call_cases (calls_undo call calls) found with ⟨-, ⟨⟩⟩ | ⟨-, found⟩
      · exact stands
      · exact released ⟨d, other, found, stands⟩
    exact ⟨vacant.running, vacant.cursor, vacant.pump, vacant.quiet⟩
  · intro task member
    obtain ⟨member, foreign⟩ := Finset.mem_filter.mp member
    refine (sourced.drained task member).move call calls .inl ?_
    rintro _ ⟨⟩ drains
    exact absurd drains.1 foreign
  · intro d other found
    rcases call_cases calls found with ⟨-, ⟨⟩⟩ | ⟨-, found⟩
    · intro task runs isUrl
      by_contra notTaken
      refine (sourced.vacant task.worker (fun handle member same => notTaken ?_)
        (notReleased _ isUrl)).running task runs rfl
      rw [(sourced.owner handle member).running task runs same.symm]
      exact Finset.mem_filter.mpr ⟨member, by rw [same, isUrl]⟩
    · exact sourced.joins d other found

/-- So does clearing a rank. -/
theorem Sourced.removeClear (disciplined : Disciplined state)
    {rank : UInt32} (call : state.calls c = some (.removeClear url (rank :: ranks))) (order : Order)
    (rest : state.pump.holds ≠ some ⟨url, rank⟩) :
    Sourced (state.removeClear c order url rank ranks) := by
  have here : (state.removeClear c order url rank ranks).calls c =
      some (.removeClear url ranks) := setCall_calls_self ..
  have calls : (state.removeClear c order url rank ranks).calls = update state.calls c _ := rfl
  constructor
  · exact sourced.honest
  · exact sourced.honestChannel
  · intro task member
    obtain ⟨handles, running, channel, pump⟩ := sourced.owner task member
    exact ⟨handles, running, channel, pump⟩
  · intro worker noHandle released
    by_cases cleared : worker = ⟨url, rank⟩
    · subst cleared
      refine ⟨fun task runs same => ?_, update_self .., rest, fun alive => ?_⟩
      · exact sourced.joins c _ call task runs (by rw [same])
      · exact absurd alive (disciplined.dead call ⟨rfl, .head _⟩)
    · obtain ⟨running, cursor, pump, quiet⟩ : state.Vacant worker := by
        refine sourced.vacant worker noHandle ?_
        rintro ⟨d, other, found, stands⟩
        rcases call_cases (calls_undo call calls) found with ⟨-, ⟨⟩⟩ | ⟨-, found⟩
        · refine released ⟨_, _, here, stands.1,
            (mem_cons.mp stands.2).resolve_left fun isRank => cleared ?_⟩
          rw [← stands.1, ← isRank]
        · exact released ⟨d, other, found, stands⟩
      exact ⟨running, (update_of_ne cleared _ _).trans cursor, pump, quiet⟩
  · intro task member
    refine (sourced.drained task member).move call calls .inl ?_
    rintro _ ⟨⟩ drains
    exact drains.elim
  · intro d other found
    rcases call_cases calls found with ⟨-, ⟨⟩⟩ | ⟨-, found⟩
    · exact fun task runs => sourced.joins c _ call task runs
    · exact sourced.joins d other found

/-- Subscribing to a live, recorded worker that no removal has in hand. -/
theorem Sourced.subscribe {id : KvWorkerId} (alive : id ∈ state.live) (recorded : state.Recorded id)
    (free : ∀ c call, state.calls c = some call → call.isAdd = false → call.url ≠ id.url) :
    Sourced (state.subscribe id) := by
  unfold IndexState.subscribe
  split
  next => exact sourced
  next unregistered =>
    have noHandle : ∀ task ∈ state.handles, task.worker ≠ id := fun task member same =>
      unregistered ⟨task, member, same⟩
    have notReleased : ¬state.Released id := by
      rintro ⟨c, call, found, released⟩
      refine free c call found ?_ (Call.released_url released).symm
      cases call <;> first | rfl | exact released.elim
    have vacant := sourced.vacant id noHandle notReleased
    have quiet := vacant.quiet alive
    constructor
    · exact sourced.honest
    · exact sourced.honestChannel
    · intro task member
      rcases Finset.mem_insert.mp member with rfl | old
      · refine ⟨fun other inside same => ?_, fun other inside same => ?_,
        fun message inside same => ?_, fun other inHand same => ?_⟩
        · exact (Finset.mem_insert.mp inside).resolve_right fun o => noHandle other o same
        · exact (Finset.mem_insert.mp inside).resolve_right fun o => vacant.running other o same
        · exact absurd same (quiet.1 message inside)
        · exact absurd same (quiet.2 other inHand)
      · obtain ⟨handles, running, channel, pump⟩ := sourced.owner task old
        refine ⟨fun other inside same => ?_, fun other inside same => ?_, channel, pump⟩
        · rcases Finset.mem_insert.mp inside with rfl | inside
          · exact absurd same.symm (noHandle task old)
          · exact handles other inside same
        · rcases Finset.mem_insert.mp inside with rfl | inside
          · exact absurd same.symm (noHandle task old)
          · exact running other inside same
    · intro worker noHandle' released
      have before := sourced.vacant worker
        (fun task inside => noHandle' task (Finset.mem_insert_of_mem inside)) released
      refine ⟨fun task inside => ?_, before.cursor, before.pump, before.quiet⟩
      rcases Finset.mem_insert.mp inside with rfl | inside
      · exact noHandle' _ (Finset.mem_insert_self _ _)
      · exact before.running task inside
    · intro task member
      rcases Finset.mem_insert.mp member with rfl | old
      · exact .inl recorded
      · exact (sourced.drained task old).frame rfl rfl
    · intro c call found
      have joins := sourced.joins c call found
      have foreign : call.isAdd = false → id.url ≠ call.url := fun kind =>
        (free c call found kind).symm
      cases call with
      | addMark | addRecord | addSubscribe | removeMark | removeDrain => trivial
      | removeJoin url ranks tasks =>
        intro task inside same
        rcases Finset.mem_insert.mp inside with rfl | inside
        · exact absurd same (foreign rfl)
        · exact joins task inside same
      | removeLock url ranks | removeClear url ranks =>
        intro task inside
        rcases Finset.mem_insert.mp inside with rfl | inside
        · exact foreign rfl
        · exact joins task inside

/-- So do subscriptions of live workers. -/
theorem Sourced.foldl_subscribe (ids : List KvWorkerId) (alive : ∀ id ∈ ids, id ∈ state.live)
    (recorded : ∀ id ∈ ids, state.Recorded id)
    (free : ∀ id ∈ ids, ∀ c call, state.calls c = some call → call.isAdd = false →
      call.url ≠ id.url) : Sourced (ids.foldl IndexState.subscribe state) := by
  induction ids generalizing state with
  | nil => exact sourced
  | cons id ids ih =>
    obtain ⟨aliveHead, aliveTail⟩ := forall_mem_cons.mp alive
    obtain ⟨recordedHead, recordedTail⟩ := forall_mem_cons.mp recorded
    obtain ⟨freeHead, freeTail⟩ := forall_mem_cons.mp free
    obtain ⟨_, _, _, same⟩ : ∃ handles running nextTask, state.subscribe id = _ :=
      exists_subscribe_eq state [id]
    have after := sourced.subscribe aliveHead recordedHead freeHead
    rw [foldl_cons]
    rw [same] at after ⊢
    exact ih after aliveTail recordedTail freeTail

/-- So does the end of an add. -/
theorem Sourced.addSubscribe (disciplined : Disciplined state)
    (call : state.calls c = some (.addSubscribe url ranks)) :
    Sourced (state.addSubscribe c url ranks) := by
  have after := sourced.foldl_subscribe (ranks.map (KvWorkerId.mk url))
    (fun id member => disciplined.attached call (mem_map_mk.mp member))
    (fun id member => by
      obtain ⟨same, inside⟩ := mem_map_mk.mp member
      exact ⟨ranks, by rw [same, disciplined.subscribing call], inside⟩)
    (fun id member d other found kind same => by
      obtain rfl := disciplined.call_eq call found (same.trans (mem_map_mk.mp member).1)
      cases kind)
  obtain ⟨_, _, _, same⟩ := exists_subscribe_eq state (ranks.map (KvWorkerId.mk url))
  rw [IndexState.addSubscribe]
  rw [same] at after ⊢
  refine after.move call rfl rfl rfl rfl rfl rfl (fun _ => .inl) ?_ (fun _ => .inl) ?_ ?_
  · rintro _ _ ⟨⟩ ⟨⟩
  · rintro _ _ ⟨⟩ ⟨⟩
  · rintro _ ⟨⟩

/-- A step of a subscriber or of the pump. -/
theorem Sourced.message (calls : next.calls = state.calls) (workers : next.workers = state.workers)
    (live : next.live = state.live) (handles : next.handles = state.handles)
    (running : next.running ⊆ state.running) (honest : next.pump.Honest)
    (channel : ∀ message ∈ next.channel, message ∈ state.channel ∨ (message.event.worker =
      message.task.worker ∧ message.task ∈ state.running))
    (inHand : ∀ task, next.pump.task = some task → state.pump.task = some task ∨ ∃ message ∈
      state.channel, message.task = task)
    (held : ∀ worker, next.pump.holds = some worker → state.pump.holds = some worker ∨ (worker ∈
      state.live ∧ ¬state.Quiet worker))
    (cursors : ∀ worker, next.cursors worker ≠ none → state.cursors worker ≠ none ∨
      state.pump.holds = some worker) : Sourced next := by
  constructor
  · exact honest
  · intro message member
    rcases channel message member with old | ⟨same, -⟩
    · exact sourced.honestChannel message old
    · exact same
  · intro task member
    rw [handles] at member
    have owner := sourced.owner task member
    refine ⟨handles ▸ owner.handles, fun other inside => owner.running other (running inside),
      fun message inside same => ?_, fun other inside same => ?_⟩
    · rcases channel message inside with old | ⟨-, runs⟩
      · exact owner.channel message old same
      · exact owner.running _ runs same
    · rcases inHand other inside with old | ⟨message, old, rfl⟩
      · exact owner.pump other old same
      · exact owner.channel message old same
  · intro worker noHandle released
    have before : state.Vacant worker := by
      refine sourced.vacant worker (handles ▸ noHandle) ?_
      rwa [Released, ← calls]
    refine ⟨fun task inside => before.running task (running inside), ?_, fun holds => ?_,
      fun alive => ?_⟩
    · by_contra present
      rcases cursors worker present with old | holds
      · exact old before.cursor
      · exact before.pump holds
    · rcases held worker holds with old | ⟨alive, loud⟩
      · exact before.pump old
      · exact loud (before.quiet alive)
    · obtain ⟨quietChannel, quietPump⟩ := before.quiet (live ▸ alive)
      refine ⟨fun message inside => ?_, fun task inside => ?_⟩
      · rcases channel message inside with old | ⟨-, runs⟩
        · exact quietChannel message old
        · exact before.running _ runs
      · rcases inHand task inside with old | ⟨message, old, rfl⟩
        · exact quietPump task old
        · exact quietChannel message old
  · intro task member
    exact (sourced.drained task (handles ▸ member)).frame calls workers
  · intro c call found
    exact (sourced.joins c call (calls ▸ found)).anti running

/-- So does the pump's cursor. -/
theorem Sourced.pumpCursor {message : Message}
    (phase : state.pump = .passed message) : Sourced (state.pumpCursor message) := by
  have honest : message.event.worker = message.task.worker := sourced.honestIn phase
  unfold IndexState.pumpCursor
  split
  next worker event =>
    exact sourced.message rfl rfl rfl rfl subset_rfl trivial (fun _ => .inl) nofun
      nofun fun w present => .inl fun none => present (update_none none worker)
  next worker seq events event =>
    split
    next =>
      exact sourced.message rfl rfl rfl rfl subset_rfl trivial (fun _ => .inl) nofun
        nofun fun w => .inl
    next =>
      rw [event] at honest
      refine sourced.message rfl rfl rfl rfl subset_rfl honest (fun _ => .inl) ?_ ?_
        fun w => .inl
      · intro task inHand
        exact .inl (by rw [phase]; exact inHand)
      · intro w holds
        exact .inl (by rw [phase, PumpPhase.holds, event]; exact holds)

/-- **So does every step.** -/
theorem Sourced.step (disciplined : Disciplined state)
    (step : Step state action next) (rest : ClearsAtRest state action)
    (covers : CoversRanks state action) (marks : MarksAtRest state action) : Sourced next := by
  cases step with
  | @beginAdd c free url cfg =>
    obtain ⟨_, _, same, rfl | ⟨ranks, rfl⟩⟩ := exists_beginAdd_eq state c url cfg
    · rw [same]
      exact sourced.message rfl rfl rfl rfl subset_rfl sourced.honest (fun _ => .inl)
        (fun _ => .inl) (fun _ => .inl) fun _ => .inl
    · rw [same]
      refine sourced.move free rfl rfl rfl rfl rfl rfl (fun _ => .inl) nofun (fun _ => .inl) nofun
        ?_
      rintro _ ⟨⟩
      trivial
  | addMark call => exact sourced.addMark call (marks _ _ _ rfl call)
  | addRecord call => exact sourced.addRecord call fun old => covers _ _ _ old rfl call
  | addSubscribe call => exact sourced.addSubscribe disciplined call
  | beginRemove free url => exact sourced.beginRemove free url
  | removeMark call => exact sourced.removeMark call
  | removeDrain call => exact sourced.removeDrain disciplined call
  | @removeJoin c url ranks tasks call ended =>
    refine sourced.move call rfl rfl rfl rfl rfl rfl (fun _ => .inl) ?_ (fun _ => .inl) nofun ?_
    · rintro _ worker ⟨⟩ released
      exact ⟨c, _, setCall_calls_self .., released⟩
    · rintro _ ⟨⟩ task runs same
      exact Finset.disjoint_left.mp ended (sourced.joins c _ call task runs same) runs
  | @removeLock c url ranks call =>
    refine sourced.move call rfl rfl rfl rfl rfl rfl (fun _ => .inl) ?_ (fun _ => .inl) nofun ?_
    · rintro _ worker ⟨⟩ released
      exact ⟨c, _, setCall_calls_self .., released⟩
    · rintro _ ⟨⟩
      exact fun task runs => sourced.joins c _ call task runs
  | removeClear call order =>
    exact sourced.removeClear disciplined call order (rest _ _ _ _ rfl call)
  | removeUnlock call =>
    refine sourced.move call rfl rfl rfl rfl rfl rfl (fun _ => .inl) ?_ (fun _ => .inl) nofun nofun
    rintro _ worker ⟨⟩ released
    exact absurd released.2 not_mem_nil
  | send alive room seq events =>
    refine sourced.message rfl rfl rfl rfl subset_rfl sourced.honest ?_
      (fun _ => .inl) (fun _ => .inl) fun _ => .inl
    intro message member
    refine (mem_append.mp member).imp_right fun new => ?_
    obtain rfl := mem_singleton.mp new
    exact ⟨decodeMessage_worker .., alive⟩
  | exit =>
    exact sourced.message rfl rfl rfl rfl (Finset.erase_subset _ _) sourced.honest
      (fun _ => .inl) (fun _ => .inl) (fun _ => .inl) fun _ => .inl
  | @receive message rest idle head =>
    have inside : message ∈ state.channel := head ▸ mem_cons_self
    refine sourced.message rfl rfl rfl rfl subset_rfl
      (sourced.honestChannel message inside) ?_ ?_ nofun fun _ => .inl
    · intro other member
      exact .inl (head ▸ mem_cons_of_mem _ member)
    · rintro task ⟨⟩
      exact .inr ⟨message, inside, rfl⟩
  | @pumpCheck message phase =>
    have honest : message.event.worker = message.task.worker := sourced.honestIn phase
    unfold IndexState.pumpCheck
    split
    next alive =>
      refine sourced.message rfl rfl rfl rfl subset_rfl honest (fun _ => .inl) ?_ ?_
        fun _ => .inl
      · intro task inHand
        exact .inl (by rw [phase]; exact inHand)
      · rintro worker ⟨⟩
        refine .inr ⟨alive, fun quiet => quiet.2 message.task ?_ honest.symm⟩
        rw [phase]
        rfl
    next =>
      exact sourced.message rfl rfl rfl rfl subset_rfl trivial (fun _ => .inl) nofun
        nofun fun _ => .inl
  | pumpCursor phase => exact sourced.pumpCursor phase
  | @pumpApply task worker seq event events phase order now =>
    have honest : worker = task.worker := sourced.honestIn phase
    refine sourced.message rfl rfl rfl rfl subset_rfl honest (fun _ => .inl) ?_ ?_
      fun _ => .inl
    · intro other inHand
      exact .inl (by rw [phase]; exact inHand)
    · intro w holds
      exact .inl (by rw [phase]; exact holds)
  | @pumpAdvance task worker seq phase =>
    refine sourced.message rfl rfl rfl rfl subset_rfl trivial (fun _ => .inl) nofun
      nofun fun w present => ?_
    by_cases same : w = worker
    · subst same
      exact .inr (by rw [phase]; rfl)
    · exact .inl fun none => present ((update_of_ne same _ _).trans none)

end

/-! ### The cursor of an attached worker comes from its subscriber -/

/-- The task has sent a batch the pump is done with. -/
def Served (past : List IndexAction) (state : IndexState) (task : Task) : Prop :=
  (if state.pump.batchTask = some task then 1 else 0) < (batchesReceived task past).length

/-- A batch in hand has been received, and a cursor of a worker is due to an earlier
batch of its present subscriber, and of the task whose message the pump is past testing. -/
structure Counted (past : List IndexAction) (state : IndexState) : Prop where
  inHand : ∀ task, state.pump.batchTask = some task → 0 < (batchesReceived task past).length
  cursor : ∀ task ∈ state.handles, state.cursors task.worker ≠ none → Served past state task
  held : ∀ task, state.pump.task = some task → state.pump.holds = some task.worker →
    state.cursors task.worker ≠ none → Served past state task

/-- A new index has counted nothing. -/
theorem counted_new (now : ℕ) (maintainTree : Bool) :
    Counted [] (IndexState.new now maintainTree) where
  inHand := nofun
  cursor := nofun
  held := nofun

/-- A step that receives nothing takes nothing from what a task has been served. -/
theorem Served.keep (served : Served past state task)
    (silent : ∀ task, batchesReceived task [action] = [])
    (inHand : next.pump.batchTask = some task → state.pump.batchTask = some task) :
    Served (past ++ [action]) next task := by
  rw [Served, batchesReceived_append, silent, append_nil]
  rw [Served] at served
  split
  next held => rwa [if_pos (inHand held)] at served
  next => omega

/-- A step that receives nothing and sets no cursor. -/
theorem Counted.keep (counted : Counted past state)
    (silent : ∀ task, batchesReceived task [action] = [])
    (handles : ∀ task ∈ next.handles, task ∈ state.handles ∨ next.cursors task.worker = none)
    (inHand : ∀ task, next.pump.batchTask = some task → state.pump.batchTask = some task)
    (cursors : ∀ worker, next.cursors worker ≠ none → state.cursors worker ≠ none)
    (held : ∀ task, next.pump.task = some task → next.pump.holds = some task.worker →
      state.pump.task = some task ∧ state.pump.holds = some task.worker ∨ task ∈ state.handles) :
    Counted (past ++ [action]) next where
  inHand := fun task held => by
    rw [batchesReceived_append, silent, append_nil]
    exact counted.inHand task (inHand task held)
  cursor := fun task member present =>
    (counted.cursor task ((handles task member).resolve_right present)
      (cursors _ present)).keep silent (inHand task)
  held := fun task named holds present => by
    rcases held task named holds with ⟨named', holds'⟩ | registered
    · exact (counted.held task named' holds' (cursors _ present)).keep silent (inHand task)
    · exact (counted.cursor task registered (cursors _ present)).keep silent (inHand task)

/-- A handle that is new after subscribing belongs to a worker that had none. -/
theorem foldl_subscribe_handles (ids : List KvWorkerId) (state : IndexState)
    (member : task ∈ (ids.foldl subscribe state).handles) : task ∈ state.handles ∨
      (task.worker ∈ ids ∧ ∀ other ∈ state.handles, other.worker ≠ task.worker) := by
  induction ids generalizing state with
  | nil => exact .inl member
  | cons id ids ih =>
    rcases ih _ member with here | ⟨later, unregistered⟩
    · unfold subscribe at here
      split at here
      next => exact .inl here
      next absent =>
        rcases Finset.mem_insert.mp here with rfl | old
        · exact .inr ⟨.head _, fun other inside same => absent ⟨other, inside, same⟩⟩
        · exact .inl old
    · refine .inr ⟨.tail _ later, fun other inside => unregistered other ?_⟩
      unfold subscribe
      split
      next => exact inside
      next => exact Finset.mem_insert_of_mem inside

/-- New tasks have received nothing. -/
theorem Counted.addSubscribe (counted : Counted past state) (sourced : Sourced state)
    (disciplined : Disciplined state) (call : state.calls c = some (.addSubscribe url ranks)) :
    Counted (past ++ [.lifecycle c]) (state.addSubscribe c url ranks) := by
  obtain ⟨_, _, _, same⟩ := exists_subscribe_eq state (ranks.map (KvWorkerId.mk url))
  have handles := fun task => @foldl_subscribe_handles task (ranks.map (KvWorkerId.mk url)) state
  rw [same] at handles
  rw [IndexState.addSubscribe, same]
  refine counted.keep (fun _ => rfl) (fun task member => ?_) (fun _ held => held)
    (fun _ present => present) fun _ named holds => .inl ⟨named, holds⟩
  refine (handles task member).imp_right ?_
  rintro ⟨named, unregistered⟩
  refine (sourced.vacant task.worker unregistered ?_).cursor
  rintro ⟨d, other, found, released⟩
  obtain rfl := disciplined.call_eq call found
    ((Call.released_url released).symm.trans (mem_map_mk.mp named).1)
  exact released

/-- A message of a live worker comes from the subscriber that is registered for it. -/
theorem Sourced.registered (sourced : Sourced state) (disciplined : Disciplined state)
    {message : Message} (phase : state.pump = .received message)
    (alive : message.event.worker ∈ state.live) : message.task ∈ state.handles := by
  have honest : message.event.worker = message.task.worker := sourced.honestIn phase
  have named : state.pump.task = some message.task := by
    rw [phase]
    rfl
  rw [honest] at alive
  by_cases registered : ∃ task ∈ state.handles, task.worker = message.task.worker
  · obtain ⟨task, member, same⟩ := registered
    rwa [(sourced.owner task member).pump message.task named same.symm]
  · refine absurd rfl (((sourced.vacant message.task.worker ?_ ?_).quiet alive).2 _ named)
    · exact fun task member same => registered ⟨task, member, same⟩
    · rintro ⟨c, call, found, released⟩
      refine disciplined.dead found ?_ alive
      cases call <;> first | exact released | exact released.elim

/-- Every step keeps the counts. -/
theorem Counted.step (counted : Counted past state) (sourced : Sourced state)
    (disciplined : Disciplined state) (step : Step state action next) :
    Counted (past ++ [action]) next := by
  cases step with
  | @beginAdd c free url cfg =>
    obtain ⟨_, _, same, -⟩ := exists_beginAdd_eq state c url cfg
    rw [same]
    exact counted.keep (fun _ => rfl) (fun _ => .inl) (fun _ held => held)
      (fun _ present => present) fun _ named holds => .inl ⟨named, holds⟩
  | addSubscribe call => exact counted.addSubscribe sourced disciplined call
  | beginRemove =>
    unfold IndexState.beginRemove
    split <;> exact counted.keep (fun _ => rfl) (fun _ => .inl) (fun _ held => held)
      (fun _ present => present) fun _ named holds => .inl ⟨named, holds⟩
  | addMark | addRecord | removeMark | removeJoin | removeLock | removeUnlock | send | exit =>
    exact counted.keep (fun _ => rfl) (fun _ => .inl) (fun _ held => held)
      (fun _ present => present) fun _ named holds => .inl ⟨named, holds⟩
  | removeDrain =>
    exact counted.keep (fun _ => rfl) (fun _ member => .inl (Finset.mem_filter.mp member).1)
      (fun _ held => held) (fun _ present => present)
      fun _ named holds => .inl ⟨named, holds⟩
  | @removeClear c url rank ranks call order =>
    exact counted.keep (fun _ => rfl) (fun _ => .inl) (fun _ held => held)
      (fun _ present none => present (update_none none ⟨url, rank⟩))
      fun _ named holds => .inl ⟨named, holds⟩
  | @receive message rest idle head =>
    have grows : ∀ task, (batchesReceived task (past ++ [.receive message])).length =
        (batchesReceived task past).length +
          if (PumpPhase.received message).batchTask = some task then 1 else 0 := by
      intro task
      rw [batchesReceived_append, length_append, add_left_cancel_iff]
      simp only [batchesReceived, filterMap_cons, PumpPhase.batchTask]
      by_cases batch : message.event.isBatch <;> by_cases same : message.task = task <;>
        simp [batch, same]
    refine ⟨fun task held => ?_, fun task member present => ?_, nofun⟩
    · rw [grows, if_pos held]
      exact Nat.succ_pos _
    · have before := counted.cursor task member present
      rw [Served, idle] at before
      rw [Served, grows]
      dsimp only
      omega
  | @pumpCheck message phase =>
    unfold IndexState.pumpCheck
    split
    next alive =>
      refine counted.keep (fun _ => rfl) (fun _ => .inl) (fun task held => ?_)
        (fun _ present => present) ?_
      · rw [phase]
        exact held
      · rintro task ⟨⟩ -
        exact .inr (sourced.registered disciplined phase alive)
    next => exact counted.keep (fun _ => rfl) (fun _ => .inl) nofun (fun _ present => present) nofun
  | @pumpCursor message phase =>
    unfold IndexState.pumpCursor
    split
    next worker event =>
      exact counted.keep (fun _ => rfl) (fun _ => .inl) nofun
        (fun _ present none => present (update_none none worker)) nofun
    next worker seq events event =>
      split
      next =>
        exact counted.keep (fun _ => rfl) (fun _ => .inl) nofun (fun _ present => present) nofun
      next =>
        refine counted.keep (fun _ => rfl) (fun _ => .inl) (fun task held => ?_)
          (fun _ present => present) fun task named holds => .inl ?_
        · rw [phase, PumpPhase.batchTask, event]
          exact held
        · rw [phase, PumpPhase.holds, event]
          exact ⟨named, holds⟩
  | pumpApply phase =>
    refine counted.keep (fun _ => rfl) (fun _ => .inl) (fun task held => ?_)
      (fun _ present => present) fun task named holds => .inl ?_
    · rw [phase]
      exact held
    · rw [phase]
      exact ⟨named, holds⟩
  | @pumpAdvance task worker seq phase =>
    refine ⟨?_, fun other member present => ?_, ?_⟩
    · rintro _ ⟨⟩
    swap
    · rintro _ ⟨⟩
    rw [Served, batchesReceived_append, show batchesReceived other [.pump] = [] from rfl,
      append_nil]
    by_cases same : other.worker = worker
    · have honest : worker = task.worker := sourced.honestIn phase
      have isTask : task = other := (sourced.owner other member).pump task
        (by rw [phase]; rfl) (honest.symm.trans same.symm)
      exact counted.inHand other (by rw [phase, ← isTask]; rfl)
    · have before := counted.cursor other member
        fun none => present ((update_of_ne same _ _).trans none)
      exact Nat.zero_lt_of_lt before

end IndexState

end AvaServe.Router
