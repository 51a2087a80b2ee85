import Mathlib
import AvaServe.Foundation.Path

/-!
# The request lifecycle of the frontend

The server is a pipeline of threads joined by channels. An API handler submits a request
and keeps a guard that aborts it when the handler goes away. The intake loop takes items
from its inbox and from a separate abort lane, in any order; it drives a request through
validation, hands it to the tokenizer or multimodal workers where needed, and pushes it to
the scheduler's ring. The dispatcher routes the scheduler's frames to detokenizer shards,
which own the response sinks.

Every action below is one thread handling one item. Threads and channels live as long as
the server, and the ring has room. What a request's payload decides (whether it validates,
normalizes, fits, encodes) is a flag of the request or of the worker's answer; whether a
sink has room is a flag of the item sent. `phase`, `log`, `decodes` and `aborted` record
history and are read by no handler.
-/

namespace AvaServe.Frontend

open Function

/-! ## Messages -/

/-- `RequestKind`. -/
inductive RequestKind where
  | generate
  | control
  | detokenize
  deriving DecidableEq, Repr

/-- The states of a request on its way to the scheduler. -/
inductive RequestState where
  | received
  | validating
  | normalizing
  | encoding
  | tokenizing
  | preSendValidating
  | queued
  | failed
  deriving DecidableEq, Repr

/-- `Request`. -/
structure Request where
  rid : ℕ
  state : RequestState
  kind : RequestKind
  /-- `validate` accepts it. -/
  valid : Bool
  /-- Its sampling parameters normalize. -/
  normalizes : Bool
  multimodal : Bool
  alreadyTokenized : Bool
  /-- `check_total_tokens` accepts it. -/
  fits : Bool
  /-- Its header can be encoded. -/
  encodes : Bool
  deriving DecidableEq, Repr

/-- What a worker's `input_ids` decide: whether there are any, and whether they fit. -/
structure InputIds where
  nonempty : Bool
  fits : Bool
  deriving DecidableEq, Repr

/-- The ids are filled in. -/
def Request.fill (req : Request) (ids : InputIds) : Request :=
  { req with alreadyTokenized := ids.nonempty, fits := ids.fits }

/-- Events into the intake loop. -/
inductive TmEvent where
  | intake (req : Request)
  | tokenized (req : Request)
  | mmEncoded (rid : ℕ) (ids : InputIds)
  | mmFailed (rid : ℕ)
  deriving DecidableEq, Repr

/-- Who sends an abort. -/
inductive AbortSource where
  | guard (rid : ℕ)
  | detok (rid : ℕ)
  deriving DecidableEq, Repr

/-- The request it is for. -/
def AbortSource.rid : AbortSource → ℕ
  | .guard rid => rid
  | .detok rid => rid

/-- What the intake loop pushes to the scheduler. -/
inductive SchedulerRequest where
  | generate (rid : ℕ)
  | control (rid : ℕ)
  | abort (rid : ℕ)
  deriving DecidableEq, Repr

/-- One request's part of a decode step. `decodes` says whether its tokens decode,
`sinkFull` whether the sink has no room when it is delivered. -/
structure ChunkEvent where
  rid : ℕ
  finished : Bool
  decodes : Bool
  sinkFull : Bool
  deriving DecidableEq, Repr

/-- A frame from the scheduler. A batch that does not decode names its requests only. -/
inductive Frame where
  | batch (chunks : List ChunkEvent)
  | badBatch (rids : List ℕ)
  | result (rid : ℕ)
  | error (rid : ℕ)
  deriving DecidableEq, Repr

/-- The requests a frame is about. -/
def Frame.rids : Frame → List ℕ
  | .batch chunks => chunks.map ChunkEvent.rid
  | .badBatch rids => rids
  | .result rid => [rid]
  | .error rid => [rid]

/-- `DetokMsg`. -/
inductive DetokMsg where
  | register (rid : ℕ)
  | chunks (evs : List ChunkEvent)
  | decode (rid : ℕ)
  | result (rid : ℕ)
  | fail (rid : ℕ)
  | deregister (rid : ℕ)
  deriving DecidableEq, Repr

/-- `ResponseItem`. -/
inductive ResponseItem where
  | frame
  | done
  | control
  | data
  | error
  deriving DecidableEq, Repr

/-- Every item but an intermediate frame ends its request. -/
def ResponseItem.isTerminal : ResponseItem → Bool
  | .frame => false
  | _ => true

/-- How far a request has come: not submitted, waiting for the intake loop, inside its
stages, handed to the stage that answers it, rejected, or cancelled while parked. -/
inductive Phase where
  | absent
  | received
  | intake
  | handed
  | failed
  | cancelled
  deriving DecidableEq, Repr

/-! ## The server -/

/-- The server's state. -/
structure Server where
  mmEnabled : Bool
  /-- `Rid::shard`. -/
  shard : ℕ → ℕ
  inbox : List TmEvent
  abortLane : List AbortSource
  tokenizerPool : List Request
  mmPool : List ℕ
  pendingMm : ℕ → Option Request
  sidecar : ℕ → Bool
  ring : List SchedulerRequest
  /-- The requests the scheduler has drained from the ring. -/
  scheduled : ℕ → Bool
  fromScheduler : List Frame
  detokenizer : ℕ → List DetokMsg
  /-- The tables of the shards; only a request's own shard looks it up. -/
  table : ℕ → Bool
  /-- What a request's handler has been sent. -/
  sink : ℕ → List ResponseItem
  closed : ℕ → Bool
  armed : ℕ → Bool
  /-- The guard was dropped armed. -/
  dropped : ℕ → Bool
  phase : ℕ → Phase
  /-- Everything pushed to the ring so far. -/
  log : List SchedulerRequest
  /-- Every request handed to its shard to be decoded. -/
  decodes : List ℕ
  /-- The intake loop has handled the guard's abort. -/
  aborted : ℕ → Bool

namespace Server

/-- The server at start. -/
def new (mmEnabled : Bool) (shard : ℕ → ℕ) : Server where
  mmEnabled := mmEnabled
  shard := shard
  inbox := []
  abortLane := []
  tokenizerPool := []
  mmPool := []
  pendingMm := fun _ => none
  sidecar := fun _ => false
  ring := []
  scheduled := fun _ => false
  fromScheduler := []
  detokenizer := fun _ => []
  table := fun _ => false
  sink := fun _ => []
  closed := fun _ => false
  armed := fun _ => false
  dropped := fun _ => false
  phase := fun _ => .absent
  log := []
  decodes := []
  aborted := fun _ => false

variable (server : Server)

variable (rid : ℕ)

/-- The request moves on. -/
def setPhase (phase : Phase) : Server := { server with phase := update server.phase rid phase }

/-- `sink.try_send`: nothing reaches a handler that is gone or has no room. -/
def trySend (item : ResponseItem) (full : Bool) : Server :=
  { server with
    sink := update server.sink rid
      (if server.closed rid || full then server.sink rid else server.sink rid ++ [item]) }

/-- `senders.detok_for(rid).send(msg)`. -/
def detokFor (msg : DetokMsg) : Server :=
  { server with
    detokenizer := update server.detokenizer (server.shard rid)
      (server.detokenizer (server.shard rid) ++ [msg]) }

/-- `try_push`. -/
def tryPush (item : SchedulerRequest) : Server :=
  { server with
    ring := server.ring ++ [item]
    log := server.log ++ [item] }

/-- `sidecar.purge`, and `sidecar.take` at the scheduler's drain. -/
def purge : Server := { server with sidecar := update server.sidecar rid false }

/-- `pending_mm.remove`. -/
def unpark : Server := { server with pendingMm := update server.pendingMm rid none }

/-! ## The intake loop -/

variable (req : Request)

/-- `fail`: reject a request. Its sink is empty then, and so has room. -/
def fail (registered : Bool) : Server :=
  let rejected := ((server.purge req.rid).trySend req.rid .error false).setPhase req.rid .failed
  if registered then rejected.detokFor req.rid (.deregister req.rid) else rejected

/-- `register_detok`. -/
def registerDetok : Server := (server.detokFor req.rid (.register req.rid)).setPhase req.rid .intake

/-- `push_to_ring`. -/
def pushToRing : Server :=
  if req.alreadyTokenized && req.encodes then
    (server.tryPush (.generate req.rid)).setPhase req.rid .handed
  else server.fail req true

/-- `push_control_to_ring`. -/
def pushControlToRing : Server :=
  if req.encodes then (server.tryPush (.control req.rid)).setPhase req.rid .handed
  else server.fail req true

/-- A request that only decodes skips the scheduler. -/
def pushDetokenizeToShard : Server :=
  { server.detokFor req.rid (.decode req.rid) with
    decodes := server.decodes ++ [req.rid] }.setPhase req.rid .handed

/-- The `Queued` arm of `drive`. -/
def driveQueued : Server :=
  match req.kind with
  | .generate => server.pushToRing req
  | .control => server.pushControlToRing req
  | .detokenize => server.pushDetokenizeToShard req

/-- The `PreSendValidating` arm. -/
def drivePreSendValidating : Server :=
  if req.kind = .generate ∧ req.fits = false then server.fail req true
  else server.driveQueued { req with state := .queued }

/-- The `Tokenizing` arm. -/
def driveTokenizing : Server := { server with tokenizerPool := server.tokenizerPool ++ [req] }

variable (mmFull : Bool)

/-- The `Encoding` arm; the workers' queue is bounded. -/
def driveEncoding : Server :=
  if req.kind ≠ .generate ∨ mmFull then server.fail req true
  else { server with
    mmPool := server.mmPool ++ [req.rid]
    pendingMm := update server.pendingMm req.rid (some req) }

/-- The `Normalizing` arm. The multimodal pipeline wins over ids the client sent. -/
def driveNormalizing : Server :=
  if req.kind ≠ .generate ∨ req.normalizes = false then server.fail req true
  else if server.mmEnabled && req.multimodal then
    server.driveEncoding { req with state := .encoding } mmFull
  else if req.alreadyTokenized then
    server.drivePreSendValidating { req with state := .preSendValidating }
  else server.driveTokenizing { req with state := .tokenizing }

/-- The `Validating` arm. -/
def driveValidating : Server :=
  if req.kind = .generate then server.driveNormalizing { req with state := .normalizing } mmFull
  else server.drivePreSendValidating { req with state := .preSendValidating }

/-- The `Received` arm: validate, then register the sink. -/
def driveReceived : Server :=
  if req.valid then
    (server.registerDetok req).driveValidating { req with state := .validating } mmFull
  else server.fail req false

/-- `drive`: every arm moves the request on, so that the loop is a chain of the arms. -/
def drive : Server :=
  match req.state with
  | .received => server.driveReceived req mmFull
  | .validating => server.driveValidating req mmFull
  | .normalizing => server.driveNormalizing req mmFull
  | .encoding => server.driveEncoding req mmFull
  | .tokenizing => server.driveTokenizing req
  | .preSendValidating => server.drivePreSendValidating req
  | .queued => server.driveQueued req
  | .failed => server.fail req true

/-- `on_mm_encoded`. -/
def onMmEncoded (ids : InputIds) (mmFull : Bool) : Server :=
  match server.pendingMm rid with
  | none => server.purge rid
  | some req =>
    (server.unpark rid).drive
      (if req.kind = .generate then { req.fill ids with state := .preSendValidating }
       else { req with state := .preSendValidating }) mmFull

/-- `on_mm_failed`. -/
def onMmFailed : Server :=
  match server.pendingMm rid with
  | none => server
  | some req => (server.unpark rid).fail req true

/-- A request parked for the workers is cancelled. -/
def cancelParked : Server :=
  if (server.pendingMm rid).isSome then (server.unpark rid).setPhase rid .cancelled
  else server

/-- `on_abort`: cancel a parked request, deregister the sink, tell the scheduler. -/
def onAbort (source : AbortSource) : Server :=
  let told :=
    ((server.cancelParked source.rid).detokFor source.rid (.deregister source.rid)).tryPush
      (.abort source.rid)
  match source with
  | .guard rid => { told with aborted := update told.aborted rid true }
  | .detok _ => told

/-- The intake loop's dispatch of an event. -/
def onEvent : TmEvent → Server
  | .intake req => server.drive req mmFull
  | .tokenized req => server.drive req mmFull
  | .mmEncoded rid ids => server.onMmEncoded rid ids mmFull
  | .mmFailed rid => server.onMmFailed rid

/-! ## The workers -/

/-- A tokenizer worker's answer: `none` when the prompt does not encode. -/
def tokenize (ids : Option InputIds) : Server :=
  if req.kind ≠ .generate then server
  else match ids with
  | none => { server with inbox := server.inbox ++ [.tokenized { req with state := .failed }] }
  | some ids =>
    { server with
      inbox := server.inbox ++ [.tokenized { req.fill ids with state := .preSendValidating }] }

/-- A multimodal worker's answer: the result is parked before the event is sent. -/
def process (ids : Option InputIds) : Server :=
  match ids with
  | none => { server with inbox := server.inbox ++ [.mmFailed rid] }
  | some ids =>
    { server with
      sidecar := update server.sidecar rid true
      inbox := server.inbox ++ [.mmEncoded rid ids] }

/-! ## The scheduler's side -/

/-- `recv_requests`: a header that does not decode is answered with an error. -/
def recvRequest (decodes : Bool) : SchedulerRequest → Server
  | .generate rid =>
    if decodes then
      { server.purge rid with scheduled := update server.scheduled rid true }
    else { server with fromScheduler := server.fromScheduler ++ [.error rid] }
  | .control rid =>
    if decodes then { server with scheduled := update server.scheduled rid true }
    else { server with fromScheduler := server.fromScheduler ++ [.error rid] }
  | .abort _ => server

/-! ## The dispatcher -/

/-- The part of a batch that goes to a shard. -/
def bucket (chunks : List ChunkEvent) (shard : ℕ) : List ChunkEvent :=
  chunks.filter fun ev => decide (server.shard ev.rid = shard)

/-- The dispatcher's routing of a frame. -/
def route : Frame → Server
  | .batch chunks =>
    { server with detokenizer := fun shard =>
        if server.bucket chunks shard = [] then server.detokenizer shard
        else server.detokenizer shard ++ [.chunks (server.bucket chunks shard)] }
  | .badBatch rids => rids.foldl (fun server rid => server.detokFor rid (.fail rid)) server
  | .result rid => server.detokFor rid (.result rid)
  | .error rid => server.detokFor rid (.fail rid)

/-! ## The detokenizer -/

/-- The table gets an entry. -/
def insert : Server := { server with table := update server.table rid true }

/-- The entry goes. -/
def remove : Server := { server with table := update server.table rid false }

/-- `abort.send(AbortSource::Detok(rid))`. -/
def sendAbort : Server := { server with abortLane := server.abortLane ++ [.detok rid] }

/-- `handle_chunk`. A closed sink is not aborted from here: its guard is trusted to. -/
def handleChunk (ev : ChunkEvent) : Server :=
  if server.table ev.rid = false then server
  else if ev.decodes = false then
    ((server.sendAbort ev.rid).trySend ev.rid .error ev.sinkFull).remove ev.rid
  else if ev.finished then (server.trySend ev.rid .done ev.sinkFull).remove ev.rid
  else if server.closed ev.rid then server.remove ev.rid
  else if ev.sinkFull then (server.sendAbort ev.rid).remove ev.rid
  else server.trySend ev.rid .frame false

/-- `handle_decode`. -/
def handleDecode (decodes sinkFull : Bool) : Server :=
  if server.table rid then
    (server.trySend rid (if decodes then .data else .error) sinkFull).remove rid
  else server

/-- `handle_result`. -/
def handleResult (sinkFull : Bool) : Server :=
  if server.table rid then (server.trySend rid .control sinkFull).remove rid else server

/-- `handle_fail`. -/
def handleFail (sinkFull : Bool) : Server :=
  if server.table rid then ((server.sendAbort rid).trySend rid .error sinkFull).remove rid
  else server

/-- A shard's handling of a message. -/
def onDetokMsg (decodes sinkFull : Bool) : DetokMsg → Server
  | .register rid => server.insert rid
  | .chunks evs => evs.foldl handleChunk server
  | .decode rid => server.handleDecode rid decodes sinkFull
  | .result rid => server.handleResult rid sinkFull
  | .fail rid => server.handleFail rid sinkFull
  | .deregister rid => server.remove rid

/-! ## Actions -/

/-- What a thread may do next. A worker takes any item of its pool. -/
inductive Action where
  | submit (req : Request)
  | disarm (rid : ℕ)
  | closeSink (rid : ℕ)
  | dropGuard (rid : ℕ)
  | takeAbort
  | takeEvent (mmFull : Bool)
  | tokenize (req : Request) (ids : Option InputIds)
  | process (rid : ℕ) (ids : Option InputIds)
  | recvRequest (decodes : Bool)
  | emit (frame : Frame)
  | dispatch
  | detok (shard : ℕ) (decodes sinkFull : Bool)
  deriving DecidableEq, Repr

/-- The handler arms a guard once its request is in the inbox. -/
def submit : Server :=
  { server with
    inbox := server.inbox ++ [TmEvent.intake req]
    armed := update server.armed req.rid true }.setPhase req.rid .received

/-- `disarm`. -/
def disarm : Server := { server with armed := update server.armed rid false }

/-- The client closes its sink. -/
def closeSink : Server := { server with closed := update server.closed rid true }

/-- `AbortGuard::drop`. -/
def dropGuard : Server :=
  { server.disarm rid with
    dropped := update server.dropped rid true
    abortLane := server.abortLane ++ [.guard rid] }

/-- One action of one thread; `none` where it has nothing to handle. A request id is
submitted once, and the scheduler speaks about requests it has drained. -/
def step : Action → Option Server
  | .submit req =>
    if server.phase req.rid = .absent ∧ req.state = .received then some (server.submit req)
    else none
  | .disarm rid => some (server.disarm rid)
  | .closeSink rid => some (server.closeSink rid)
  | .dropGuard rid => if server.armed rid then some (server.dropGuard rid) else none
  | .takeAbort =>
    match server.abortLane with
    | [] => none
    | source :: rest => some ({ server with abortLane := rest }.onAbort source)
  | .takeEvent mmFull =>
    match server.inbox with
    | [] => none
    | event :: rest => some ({ server with inbox := rest }.onEvent mmFull event)
  | .tokenize req ids =>
    if req ∈ server.tokenizerPool then
      some ({ server with tokenizerPool := server.tokenizerPool.erase req }.tokenize req ids)
    else none
  | .process rid ids =>
    if rid ∈ server.mmPool then
      some ({ server with mmPool := server.mmPool.erase rid }.process rid ids)
    else none
  | .recvRequest decodes =>
    match server.ring with
    | [] => none
    | item :: rest => some ({ server with ring := rest }.recvRequest decodes item)
  | .emit frame =>
    if ∀ rid ∈ frame.rids, server.scheduled rid then
      some { server with fromScheduler := server.fromScheduler ++ [frame] }
    else none
  | .dispatch =>
    match server.fromScheduler with
    | [] => none
    | frame :: rest => some ({ server with fromScheduler := rest }.route frame)
  | .detok shard decodes sinkFull =>
    match server.detokenizer shard with
    | [] => none
    | msg :: rest =>
      some ({ server with
        detokenizer := update server.detokenizer shard rest }.onDetokMsg
          decodes sinkFull msg)

/-- The steps of the server, as a relation. -/
def Step (action : Action) (next : Server) : Prop := server.step action = some next

/-! ## What the frontend owes its requests -/

/-- At most one terminal item, and nothing after it. -/
def AtMostOneTerminal (items : List ResponseItem) : Prop :=
  ∀ before item after, items = before ++ item :: after → item.isTerminal = true → after = []

/-- No item waits in any channel. -/
structure Drained (server : Server) : Prop where
  inbox : server.inbox = []
  abortLane : server.abortLane = []
  tokenizerPool : server.tokenizerPool = []
  mmPool : server.mmPool = []
  ring : server.ring = []
  fromScheduler : server.fromScheduler = []
  detokenizer : ∀ shard, server.detokenizer shard = []

/-- Every generate request for `rid` was followed by an abort for it. -/
def Covered (log : List SchedulerRequest) : Prop :=
  ∀ before after, log = before ++ .generate rid :: after → SchedulerRequest.abort rid ∈ after

/-- The request is on its way to the intake loop or with a tokenizer worker. -/
def InTransit : Prop :=
  (∃ req, req.rid = rid ∧
    (TmEvent.intake req ∈ server.inbox ∨ TmEvent.tokenized req ∈ server.inbox)) ∨
    ∃ req ∈ server.tokenizerPool, req.rid = rid

/-- The intake loop takes the guard's abort for `rid` when the request is not in transit,
and the scheduler can decode a generate header for `rid`. -/
def Timely (server : Server) : Action → Prop
  | .takeAbort => server.abortLane.head? = some (.guard rid) → ¬InTransit server rid
  | .recvRequest decodes => server.ring.head? = some (.generate rid) → decodes = true
  | _ => True

end Server

end AvaServe.Frontend
