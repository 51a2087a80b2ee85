import AvaServe.Router.HashTreeRuns

/-!
# The KV-event index

`KvEventIndex`: one subscriber task per attached worker rank forwards the rank's
event batches into a channel, a pump task applies them to the hash tree, and
`add_worker` and `remove_worker` attach and detach workers while the pump runs.

Every step below is one lock acquisition of one task, so a path of steps is an
interleaving of the pump, the subscribers and any number of lifecycle calls.
-/

namespace AvaServe.Router

open Foundation Function

/-- `EventConfig`, as far as `add_worker` reads it. -/
structure EventConfig where
  portBase : UInt16
  dpSize : UInt32
  blockSize : UInt32
  deriving DecidableEq, Repr

/-- The ranks whose port does not overflow. -/
def EventConfig.dpRanks (cfg : EventConfig) : List UInt32 :=
  ((List.range cfg.dpSize.toNat).map UInt32.ofNat).filter fun rank =>
    cfg.portBase.toUInt32 + rank ≤ 65535

/-- `BlockSizeOracle::try_set`: the value established afterwards, `none` on a
mismatch.  0 stands for a value not yet known. -/
def trySet (value candidate : UInt32) : Option UInt32 :=
  if candidate = 0 then none
  else if value = 0 then some candidate
  else if value = candidate then some value
  else none

/-- A subscriber task and the worker rank it is subscribed to. -/
structure Task where
  worker : KvWorkerId
  number : ℕ
  deriving DecidableEq, Repr

/-- `WorkerEvent`. -/
inductive WorkerEvent
  | batch (worker : KvWorkerId) (seq : Int64) (events : List KvCacheEvent)
  | publisherReset (worker : KvWorkerId)
  deriving DecidableEq

/-- `WorkerEvent::worker`. -/
def WorkerEvent.worker : WorkerEvent → KvWorkerId
  | .batch worker _ _ => worker
  | .publisherReset worker => worker

/-- `END_SEQ_SENTINEL`. -/
def endSeqSentinel : Int64 := -1

/-- `decode_message`, on a message whose frames decode. -/
def decodeMessage (worker : KvWorkerId) (seq : Int64) (events : List KvCacheEvent) :
    WorkerEvent :=
  if seq = endSeqSentinel then .publisherReset worker else .batch worker seq events

/-- A message is of its worker. -/
@[simp] theorem decodeMessage_worker (worker : KvWorkerId) (seq : Int64)
    (events : List KvCacheEvent) : (decodeMessage worker seq events).worker = worker := by
  unfold decodeMessage
  split <;> rfl

/-- A channel entry, with the task that sent it. -/
structure Message where
  task : Task
  event : WorkerEvent
  deriving DecidableEq

/-- `EVENT_CHANNEL_BUFFER`. -/
def eventChannelBuffer : ℕ := 1024

/-- Where the pump is: it waits on the channel, is about to look a message's worker up
among the live ones, is about to lock the cursors for it, or is applying a batch. -/
inductive PumpPhase
  | idle
  | received (message : Message)
  | passed (message : Message)
  | applying (task : Task) (worker : KvWorkerId) (seq : Int64) (events : List KvCacheEvent)

/-- The lock a lifecycle call takes next. -/
inductive Call
  /-- `add_worker`: `live_workers`, `workers`, and the subscribers' `handles`. -/
  | addMark (url : String) (ranks : List UInt32)
  | addRecord (url : String) (ranks : List UInt32)
  | addSubscribe (url : String) (ranks : List UInt32)
  /-- `remove_worker`, with the ranks of the entry it took: `live_workers`, `handles`,
  then the joins. -/
  | removeMark (url : String) (ranks : List UInt32)
  | removeDrain (url : String) (ranks : List UInt32)
  | removeJoin (url : String) (ranks : List UInt32) (tasks : Finset Task)
  /-- `remove_worker`: `cursors`, then the tree once for every rank still to clear. -/
  | removeLock (url : String) (ranks : List UInt32)
  | removeClear (url : String) (ranks : List UInt32)

/-- `KvEventIndex` with its tasks. `cursorsHolder` is the call that keeps the lock of
`cursors` over several steps. -/
structure IndexState where
  maintainTree : Bool
  blockSize : UInt32
  tree : TreeState
  workers : String → Option (List UInt32)
  live : Finset KvWorkerId
  cursors : KvWorkerId → Option Int64
  cursorsHolder : Option ℕ
  handles : Finset Task
  running : Finset Task
  nextTask : ℕ
  channel : List Message
  pump : PumpPhase
  calls : ℕ → Option Call

namespace IndexState

/-- `new_with_mode`. -/
def new (now : ℕ) (maintainTree : Bool) : IndexState where
  maintainTree := maintainTree
  blockSize := 0
  tree := .new now
  workers := fun _ => none
  live := ∅
  cursors := fun _ => none
  cursorsHolder := none
  handles := ∅
  running := ∅
  nextTask := 0
  channel := []
  pump := .idle
  calls := fun _ => none

variable (state : IndexState)

variable (c : ℕ)

/-- The call goes on. -/
def setCall (call : Option Call) : IndexState := { state with calls := update state.calls c call }

variable (url : String)

/-- `add_worker` up to its first lock; `cfg` is what discovery found. -/
def beginAdd (cfg : Option EventConfig) : IndexState :=
  match cfg with
  | none => state
  | some cfg =>
    match trySet state.blockSize cfg.blockSize with
    | none => state
    | some blockSize =>
      let state := { state with blockSize := blockSize }
      if state.maintainTree = false ∨ cfg.dpRanks = [] then state
      else state.setCall c (some (.addMark url cfg.dpRanks))

variable (ranks : List UInt32)

/-- `add_worker` marks every rank live. -/
def addMark : IndexState :=
  { state with live := state.live ∪ (ranks.map (KvWorkerId.mk url)).toFinset }.setCall c
    (some (.addRecord url ranks))

/-- `add_worker` records the worker's entry. -/
def addRecord : IndexState :=
  { state with workers := update state.workers url (some ranks) }.setCall c
    (some (.addSubscribe url ranks))

/-- One rank of `KvEventSubscriberRegistry::add_worker`. -/
def subscribe (id : KvWorkerId) : IndexState :=
  if ∃ task ∈ state.handles, task.worker = id then state
  else
    let task : Task := ⟨id, state.nextTask⟩
    { state with
      handles := insert task state.handles
      running := insert task state.running
      nextTask := state.nextTask + 1 }

/-- `KvEventSubscriberRegistry::add_worker`. -/
def addSubscribe : IndexState :=
  ((ranks.map (KvWorkerId.mk url)).foldl subscribe state).setCall c none

/-- `remove_worker` takes the worker's entry. -/
def beginRemove : IndexState :=
  match state.workers url with
  | none => state
  | some ranks =>
    { state with workers := update state.workers url none }.setCall c
      (some (.removeMark url ranks))

/-- `remove_worker` marks every rank dead. -/
def removeMark : IndexState :=
  { state with live := state.live \ (ranks.map (KvWorkerId.mk url)).toFinset }.setCall c
    (some (.removeDrain url ranks))

/-- `KvEventSubscriberRegistry::remove_worker` takes the handles of the URL. -/
def removeDrain : IndexState :=
  { state with handles := state.handles.filter fun task => task.worker.url ≠ url }.setCall c
    (some (.removeJoin url ranks (state.handles.filter fun task => task.worker.url = url)))

/-- `remove_worker` drops the tree state and the cursor of one rank. -/
def removeClear (order : Order) (url : String) (rank : UInt32) (ranks : List UInt32) : IndexState :=
  { state with
    tree := state.tree.clearWorker order ⟨url, rank⟩
    cursors := update state.cursors ⟨url, rank⟩ none }.setCall c
    (some (.removeClear url ranks))

/-- The pump's test for a batch that is not newer than the last applied one. -/
def outOfOrder (worker : KvWorkerId) (seq : Int64) : Bool :=
  match state.cursors worker with
  | none => false
  | some last => seq ≤ last

/-- The pump looks the worker of a message up among the live ones. -/
def pumpCheck (message : Message) : IndexState :=
  { state with
    pump := if message.event.worker ∈ state.live then .passed message else .idle }

/-- The pump locks the cursors for a message of a live worker. -/
def pumpCursor (message : Message) : IndexState :=
  match message.event with
  | .publisherReset worker =>
    { state with cursors := update state.cursors worker none, pump := .idle }
  | .batch worker seq events =>
    { state with
      pump := if state.outOfOrder worker seq then .idle
        else .applying message.task worker seq events }

/-- The pump applies one event of a batch. -/
def pumpApply (order : Order) (now : ℕ) (task : Task)
    (worker : KvWorkerId) (seq : Int64) (event : KvCacheEvent) (events : List KvCacheEvent) :
    IndexState :=
  { state with
    tree := state.tree.apply (event.call order now worker)
    pump := .applying task worker seq events }

/-- The pump records the batch it has applied. -/
def pumpAdvance (worker : KvWorkerId) (seq : Int64) : IndexState :=
  { state with cursors := update state.cursors worker (some seq), pump := .idle }

end IndexState

/-- The steps of a run as an observer sees them. -/
inductive IndexAction
  | beginAdd (c : ℕ) (url : String) (cfg : Option EventConfig)
  | beginRemove (c : ℕ) (url : String)
  /-- The next lock, or wait, of a lifecycle call. -/
  | lifecycle (c : ℕ)
  /-- A subscriber task forwards a message of its publisher. -/
  | send (task : Task) (seq : Int64) (events : List KvCacheEvent)
  /-- A subscriber task ends. -/
  | exit (task : Task)
  | receive (message : Message)
  /-- The next lock of the pump. -/
  | pump

namespace IndexState

/-- One step of one task. -/
inductive Step : IndexState → IndexAction → IndexState → Prop
  | beginAdd {state : IndexState} {c : ℕ} (free : state.calls c = none) (url : String)
      (cfg : Option EventConfig) :
      Step state (.beginAdd c url cfg) (state.beginAdd c url cfg)
  | addMark {state : IndexState} {c : ℕ} {url : String} {ranks : List UInt32}
      (call : state.calls c = some (.addMark url ranks)) :
      Step state (.lifecycle c) (state.addMark c url ranks)
  | addRecord {state : IndexState} {c : ℕ} {url : String} {ranks : List UInt32}
      (call : state.calls c = some (.addRecord url ranks)) :
      Step state (.lifecycle c) (state.addRecord c url ranks)
  | addSubscribe {state : IndexState} {c : ℕ} {url : String} {ranks : List UInt32}
      (call : state.calls c = some (.addSubscribe url ranks)) :
      Step state (.lifecycle c) (state.addSubscribe c url ranks)
  | beginRemove {state : IndexState} {c : ℕ} (free : state.calls c = none) (url : String) :
      Step state (.beginRemove c url) (state.beginRemove c url)
  | removeMark {state : IndexState} {c : ℕ} {url : String} {ranks : List UInt32}
      (call : state.calls c = some (.removeMark url ranks)) :
      Step state (.lifecycle c) (state.removeMark c url ranks)
  | removeDrain {state : IndexState} {c : ℕ} {url : String} {ranks : List UInt32}
      (call : state.calls c = some (.removeDrain url ranks)) :
      Step state (.lifecycle c) (state.removeDrain c url ranks)
  | removeJoin {state : IndexState} {c : ℕ} {url : String} {ranks : List UInt32}
      {tasks : Finset Task} (call : state.calls c = some (.removeJoin url ranks tasks))
      (ended : Disjoint tasks state.running) :
      Step state (.lifecycle c) (state.setCall c (some (.removeLock url ranks)))
  | removeLock {state : IndexState} {c : ℕ} {url : String} {ranks : List UInt32}
      (call : state.calls c = some (.removeLock url ranks)) (free : state.cursorsHolder = none) :
      Step state (.lifecycle c)
        ({ state with cursorsHolder := some c }.setCall c (some (.removeClear url ranks)))
  | removeClear {state : IndexState} {c : ℕ} {url : String} {rank : UInt32}
      {ranks : List UInt32} (call : state.calls c = some (.removeClear url (rank :: ranks)))
      (order : Order) :
      Step state (.lifecycle c) (state.removeClear c order url rank ranks)
  | removeUnlock {state : IndexState} {c : ℕ} {url : String}
      (call : state.calls c = some (.removeClear url [])) :
      Step state (.lifecycle c) ({ state with cursorsHolder := none }.setCall c none)
  | send {state : IndexState} {task : Task} (alive : task ∈ state.running)
      (room : state.channel.length < eventChannelBuffer) (seq : Int64)
      (events : List KvCacheEvent) :
      Step state (.send task seq events)
        { state with
          channel := state.channel ++ [⟨task, decodeMessage task.worker seq events⟩] }
  | exit {state : IndexState} {task : Task} (alive : task ∈ state.running) :
      Step state (.exit task) { state with running := state.running.erase task }
  | receive {state : IndexState} {message : Message} {rest : List Message}
      (idle : state.pump = .idle) (head : state.channel = message :: rest) :
      Step state (.receive message) { state with channel := rest, pump := .received message }
  | pumpCheck {state : IndexState} {message : Message}
      (phase : state.pump = .received message) : Step state .pump (state.pumpCheck message)
  | pumpCursor {state : IndexState} {message : Message} (phase : state.pump = .passed message)
      (free : state.cursorsHolder = none) : Step state .pump (state.pumpCursor message)
  | pumpApply {state : IndexState} {task : Task} {worker : KvWorkerId} {seq : Int64}
      {event : KvCacheEvent} {events : List KvCacheEvent}
      (phase : state.pump = .applying task worker seq (event :: events)) (order : Order)
      (now : ℕ) :
      Step state .pump (state.pumpApply order now task worker seq event events)
  | pumpAdvance {state : IndexState} {task : Task} {worker : KvWorkerId} {seq : Int64}
      (phase : state.pump = .applying task worker seq []) (free : state.cursorsHolder = none) :
      Step state .pump (state.pumpAdvance worker seq)

end IndexState

end AvaServe.Router
