import AvaServe.Frontend.RequestTokens
import AvaServe.Frontend.Responses

/-!
# The lifecycle in every run

A registered request in the hand of the intake loop leaves the intake stages or waits for a
worker. From that and the effect of a shard's and the dispatcher's messages, every action of
every thread keeps requests in one place each and keeps their sinks to one terminal item.
-/

namespace AvaServe.Frontend

open Foundation List Function Option

namespace Server

/-! ## What the intake loop does with a registered request -/

/-- The request leaves the intake stages: rejected, or handed over. -/
inductive Answered (server : Server) (req : Request) : Server → Prop
  | rejected : Answered server req (server.fail req true)
  | generate (kind : req.kind = .generate) :
      Answered server req ((server.tryPush (.generate req.rid)).setPhase req.rid .handed)
  | control (kind : req.kind ≠ .generate) :
      Answered server req ((server.tryPush (.control req.rid)).setPhase req.rid .handed)
  | decode (kind : req.kind ≠ .generate) :
      Answered server req (server.pushDetokenizeToShard req)

/-- It leaves the stages, or waits for a worker. -/
inductive Outcome (server : Server) (req : Request) : Server → Prop
  | answered {next : Server} (left : Answered server req next) : Outcome server req next
  | tokenizing (held : Request) (same : held.rid = req.rid) (state : held.state = .tokenizing)
      (kind : held.kind = .generate) : Outcome server req (server.driveTokenizing held)
  | parked (held : Request) (same : held.rid = req.rid) (state : held.state = .encoding)
      (kind : held.kind = .generate) :
      Outcome server req { server with
        mmPool := server.mmPool ++ [held.rid]
        pendingMm := update server.pendingMm held.rid (some held) }

variable (server : Server) (req : Request) (mmFull : Bool)

/-- A queued request is answered. -/
theorem driveQueued_answered : Answered server req (server.driveQueued req) := by
  cases kind : req.kind with
  | generate =>
    simp only [driveQueued, kind, pushToRing]
    split
    · exact .generate kind
    · exact .rejected
  | control =>
    simp only [driveQueued, kind, pushControlToRing]
    split
    · exact .control (by simp [kind])
    · exact .rejected
  | detokenize =>
    simp only [driveQueued, kind]
    exact .decode (by simp [kind])

variable {next : Server}

/-- Only the id and the kind of a request decide where it may go. -/
theorem Answered.congr {server : Server} {held req : Request} (answered : Answered server held next)
    (rid : held.rid = req.rid) (kind : held.kind = req.kind) : Answered server req next := by
  cases answered with
  | rejected =>
    have same : server.fail held true = server.fail req true := by simp only [fail, rid]
    rw [same]
    exact .rejected
  | generate generates =>
    rw [rid]
    exact .generate (kind ▸ generates)
  | control other =>
    rw [rid]
    exact .control (kind ▸ other)
  | decode other =>
    have same : server.pushDetokenizeToShard held = server.pushDetokenizeToShard req := by
      simp only [pushDetokenizeToShard, rid]
    rw [same]
    exact .decode (kind ▸ other)

/-- An outcome reads the rid and the kind. -/
theorem Outcome.congr {server : Server} {held req : Request} (outcome : Outcome server held next)
    (rid : held.rid = req.rid) (kind : held.kind = req.kind) : Outcome server req next := by
  cases outcome with
  | answered left => exact .answered (left.congr rid kind)
  | tokenizing other same state generates =>
    exact .tokenizing other (same.trans rid) state generates
  | parked other same state generates => exact .parked other (same.trans rid) state generates

/-- So is one whose ids are validated. -/
theorem drivePreSendValidating_answered :
    Answered server req (server.drivePreSendValidating req) := by
  rw [drivePreSendValidating]
  split
  · exact .rejected
  · exact (driveQueued_answered server { req with state := .queued }).congr rfl rfl

/-- An encoded request has an outcome. -/
theorem driveEncoding_outcome (state : req.state = .encoding) :
    Outcome server req (server.driveEncoding req mmFull) := by
  rw [driveEncoding]
  split
  · exact .answered .rejected
  next accepted =>
    push Not at accepted
    exact .parked req rfl state accepted.1

/-- So has a normalized one. -/
theorem driveNormalizing_outcome : Outcome server req (server.driveNormalizing req mmFull) := by
  rw [driveNormalizing]
  split
  · exact .answered .rejected
  next generates =>
    push Not at generates
    split
    · exact (driveEncoding_outcome server _ mmFull rfl).congr rfl rfl
    · split
      · exact .answered ((drivePreSendValidating_answered server _).congr rfl rfl)
      · exact .tokenizing _ rfl rfl generates.1

/-- So has a validated one. -/
theorem driveValidating_outcome : Outcome server req (server.driveValidating req mmFull) := by
  rw [driveValidating]
  split
  · exact (driveNormalizing_outcome server _ mmFull).congr rfl rfl
  · exact .answered ((drivePreSendValidating_answered server _).congr rfl rfl)

/-- A fresh request is rejected unregistered, or registered and taken on. -/
theorem drive_received (state : req.state = .received) :
    server.drive req mmFull = server.fail req false ∨
      Outcome (server.registerDetok req) req (server.drive req mmFull) := by
  simp only [drive, state, driveReceived]
  split
  · exact .inr ((driveValidating_outcome _ _ mmFull).congr rfl rfl)
  · exact .inl rfl

/-- A request back from a tokenizer worker leaves the intake stages. -/
theorem drive_returned (state : req.state = .preSendValidating ∨ req.state = .failed) :
    Answered server req (server.drive req mmFull) := by
  rcases state with state | state
  · simp only [drive, state]
    exact drivePreSendValidating_answered server req
  · simp only [drive, state]
    exact .rejected

variable {server req mmFull}

/-- An abort is taken. -/
theorem Step.takeAbort (taken : Step server .takeAbort next) :
    ∃ source rest, server.abortLane = source :: rest ∧
      { server with abortLane := rest }.onAbort source = next := by
  cases channel : server.abortLane <;> simp_all [Step, step]

/-- An event is taken. -/
theorem Step.takeEvent (taken : Step server (.takeEvent mmFull) next) :
    ∃ event rest, server.inbox = event :: rest ∧
      { server with inbox := rest }.onEvent mmFull event = next := by
  cases channel : server.inbox <;> simp_all [Step, step]

/-- The scheduler drains a message. -/
theorem Step.recvRequest {decodes : Bool} (taken : Step server (.recvRequest decodes) next) :
    ∃ item rest, server.ring = item :: rest ∧
      { server with ring := rest }.recvRequest decodes item = next := by
  cases channel : server.ring <;> simp_all [Step, step]

/-- A frame is routed. -/
theorem Step.dispatch (taken : Step server .dispatch next) :
    ∃ frame rest, server.fromScheduler = frame :: rest ∧
      { server with fromScheduler := rest }.route frame = next := by
  cases channel : server.fromScheduler <;> simp_all [Step, step]

/-- A shard takes a message. -/
theorem Step.detok {k : ℕ} {decodes sinkFull : Bool}
    (taken : Step server (.detok k decodes sinkFull) next) :
    ∃ msg rest, server.detokenizer k = msg :: rest ∧
      { server with detokenizer := update server.detokenizer k rest }.onDetokMsg
        decodes sinkFull msg = next := by
  cases channel : server.detokenizer k <;> simp_all [Step, step]

/-- An encoding that nobody waits for is purged. -/
theorem onMmEncoded_of_none {rid : ℕ} (parked : server.pendingMm rid = none) (ids : InputIds) :
    server.onMmEncoded rid ids mmFull = server.purge rid := by
  simp [onMmEncoded, parked]

/-- The answer for a parked request takes it out of the intake stages. -/
theorem onMmEncoded_answered {rid : ℕ} (parked : server.pendingMm rid = some req)
    (kind : req.kind = .generate) (ids : InputIds) :
    Answered (server.unpark rid) req (server.onMmEncoded rid ids mmFull) := by
  simp only [onMmEncoded, parked, kind]
  exact (drive_returned _ _ mmFull (.inl rfl)).congr rfl rfl

/-- A failure that nobody waits for does nothing. -/
theorem onMmFailed_of_none {rid : ℕ} (parked : server.pendingMm rid = none) :
    server.onMmFailed rid = server := by
  simp [onMmFailed, parked]

/-- A failed encoding fails the parked request. -/
theorem onMmFailed_of_some {rid : ℕ} (parked : server.pendingMm rid = some req) :
    server.onMmFailed rid = (server.unpark rid).fail req true := by
  simp [onMmFailed, parked]

/-- Nothing parked, nothing cancelled. -/
theorem cancelParked_of_none {rid : ℕ} (parked : server.pendingMm rid = none) :
    server.cancelParked rid = server := by
  simp [cancelParked, parked]

/-- A parked request is taken and cancelled. -/
theorem cancelParked_of_some {rid : ℕ} (parked : server.pendingMm rid = some req) :
    server.cancelParked rid = (server.unpark rid).setPhase rid .cancelled := by
  simp [cancelParked, parked]

/-- A cancellation changes the parked requests and phases. -/
theorem cancelParked_eq (server : Server) (rid : ℕ) : ∃ pendingMm phase,
    server.cancelParked rid = { server with pendingMm := pendingMm, phase := phase } := by
  rw [cancelParked]
  split <;> exact ⟨_, _, rfl⟩

/-! ## What a shard and the dispatcher can change -/

/-- A shard handling a message touches its table, the sinks and the abort lane, and sends
aborts of its own kind only. -/
def ShardEffect (server next : Server) : Prop :=
  ∃ lane table sink, next = { server with
      abortLane := server.abortLane ++ lane, table := table, sink := sink } ∧
    ∀ rid, AbortSource.guard rid ∉ lane

variable (evs : List ChunkEvent)

namespace ShardEffect

/-- No effect. -/
theorem refl (server : Server) : ShardEffect server server :=
  ⟨[], server.table, server.sink, by simp, by simp⟩

/-- Effects one after the other. -/
theorem trans {first second third : Server} (left : ShardEffect first second)
    (right : ShardEffect second third) : ShardEffect first third := by
  obtain ⟨lane, table, sink, rfl, own⟩ := left
  obtain ⟨later, table', sink', rfl, own'⟩ := right
  refine ⟨lane ++ later, table', sink', by simp, ?_⟩
  intro rid member
  exact (mem_append.mp member).elim (own rid) (own' rid)

/-- An answer is an effect of the shard. -/
theorem trySend (server : Server) (rid : ℕ) (item : ResponseItem) (full : Bool) :
    ShardEffect server (server.trySend rid item full) :=
  ⟨[], server.table, _, by rw [append_nil]; rfl, by simp⟩

/-- So is a removed entry. -/
theorem remove (server : Server) (rid : ℕ) : ShardEffect server (server.remove rid) :=
  ⟨[], _, server.sink, by rw [append_nil]; rfl, by simp⟩

/-- So is a new entry. -/
theorem insert (server : Server) (rid : ℕ) : ShardEffect server (server.insert rid) :=
  ⟨[], _, server.sink, by rw [append_nil]; rfl, by simp⟩

/-- So is an abort. -/
theorem sendAbort (server : Server) (rid : ℕ) : ShardEffect server (server.sendAbort rid) :=
  ⟨[.detok rid], server.table, server.sink, rfl, by simp⟩

/-- So is a chunk. -/
theorem handleChunk (server : Server) (ev : ChunkEvent) :
    ShardEffect server (server.handleChunk ev) := by
  rw [Server.handleChunk]
  split
  · exact refl server
  · split
    · exact (sendAbort _ _).trans ((trySend ..).trans (remove _ _))
    · split
      · exact (trySend ..).trans (remove _ _)
      · split
        · exact remove _ _
        · split
          · exact (sendAbort _ _).trans (remove _ _)
          · exact trySend ..

/-- So are several chunks. -/
theorem foldl_handleChunk (server : Server) :
    ShardEffect server (evs.foldl Server.handleChunk server) :=
  foldlRecOn evs _ (refl server) fun _ effect ev _ => effect.trans (handleChunk _ ev)

/-- So is every message. -/
theorem onDetokMsg (server : Server) (decodes sinkFull : Bool) (msg : DetokMsg) :
    ShardEffect server (server.onDetokMsg decodes sinkFull msg) := by
  cases msg with
  | register rid => exact insert _ _
  | chunks evs => exact foldl_handleChunk evs server
  | decode rid | result rid =>
    simp only [Server.onDetokMsg, handleDecode, handleResult]
    split
    · exact (trySend ..).trans (remove _ _)
    · exact refl server
  | fail rid =>
    rw [Server.onDetokMsg, handleFail]
    split
    · exact (sendAbort _ _).trans ((trySend ..).trans (remove _ _))
    · exact refl server
  | deregister rid => exact remove _ _

end ShardEffect

/-- The dispatcher writes to the shards' channels only. -/
theorem route_eq (server : Server) (frame : Frame) :
    ∃ detok, server.route frame = { server with detokenizer := detok } := by
  cases frame with
  | batch chunks | result rid | error rid => exact ⟨_, rfl⟩
  | badBatch rids =>
    induction rids generalizing server with
    | nil => exact ⟨server.detokenizer, rfl⟩
    | cons rid rids ih =>
      obtain ⟨detok, same⟩ := ih (server.detokFor rid (.fail rid))
      exact ⟨detok, same⟩

/-! ## The invariant of every run -/

/-- The facts about where requests are and who may answer them. -/
structure Sound (held : Option (ℕ × Phase)) (server : Server) : Prop where
  tokens : Tokens held server.inbox server.tokenizerPool server.pendingMm server.phase
  attended : Attended server.pendingMm server.mmPool server.inbox
  answers : Answers server.shard server.detokenizer server.table server.fromScheduler server.ring
    server.scheduled server.phase server.sink server.closed

namespace Sound

/-- A new server is sound. -/
theorem new (mmEnabled : Bool) (shard : ℕ → ℕ) : Sound none (Server.new mmEnabled shard) where
  tokens := .start
  attended rid parked := by cases parked
  answers := .start shard

variable {rid : ℕ} {msg : DetokMsg}

/-- Messages that register nothing keep the server sound. -/
theorem detokFor (sound : Sound none server) (other : ∀ rid, msg.isRegister rid = false)
    (handed : ∀ rid ∈ msg.rids, server.phase rid = .handed) :
    Sound none (server.detokFor rid msg) :=
  ⟨sound.tokens, sound.attended, sound.answers.send (server.shard rid) msg other handed⟩

variable {item : SchedulerRequest}

/-- So does an item for the scheduler. -/
theorem tryPush (sound : Sound none server)
    (handed : ∀ rid ∈ item.rids, server.phase rid = .handed) : Sound none (server.tryPush item) :=
  ⟨sound.tokens, sound.attended, sound.answers.push item handed⟩

attribute [simp] SchedulerRequest.rids DetokMsg.rids

/-- So does the failure of a request that is owned. -/
theorem fail {rid : ℕ} {now : Phase} (sound : Sound (some (rid, now)) server)
    (owned : now = .received ∨ now = .intake) (same : req.rid = rid) (registered : Bool) :
    Sound none (server.fail req registered) := by
  subst same
  have phase : server.phase req.rid = .received ∨ server.phase req.rid = .intake := by
    rw [(sound.tokens.of_held owned).1]
    exact owned
  have tokens := sound.tokens.settle owned .failed (by simp)
  have answers := sound.answers.reject phase
  have rejected : Sound none
      (((server.purge req.rid).trySend req.rid .error false).setPhase req.rid .failed) :=
    ⟨tokens, sound.attended, answers⟩
  cases registered with
  | false => exact rejected
  | true => exact rejected.detokFor (fun _ => rfl) (by simp)

/-- So does an answer. -/
theorem answered (sound : Sound (some (req.rid, .intake)) server)
    (answered : Answered server req next) : Sound none next := by
  have now := (sound.tokens.of_held (.inr rfl)).1
  have tokens := sound.tokens.settle (.inr rfl) .handed (by simp)
  have handed : Sound none (server.setPhase req.rid .handed) := ⟨tokens, sound.attended,
    sound.answers.setPhase .handed (.inr (.inr now)) (by simp) (by simp)⟩
  cases answered with
  | rejected => exact sound.fail (.inr rfl) rfl true
  | generate _ | control _ => exact handed.tryPush (by simp [Server.setPhase])
  | decode _ => exact { handed.detokFor (fun _ => rfl) (by simp [Server.setPhase]) with }

/-- So does an outcome. -/
theorem outcome (sound : Sound (some (req.rid, .intake)) server)
    (outcome : Outcome server req next) : Sound none next := by
  cases outcome with
  | answered left => exact sound.answered left
  | tokenizing held same state kind =>
    exact ⟨sound.tokens.toPool same state kind, sound.attended, sound.answers⟩
  | parked held same state kind =>
    refine ⟨?_, sound.attended.park held.rid held, sound.answers⟩
    rw [same]
    exact sound.tokens.park same state kind

/-- Registration moves a received request to the intake. -/
theorem registerDetok (sound : Sound (some (req.rid, .received)) server) :
    Sound (some (req.rid, .intake)) (server.registerDetok req) := by
  have now := (sound.tokens.of_held (.inl rfl)).1
  have moved := sound.answers.setPhase .intake (.inr (.inl now)) (by simp) (by simp)
  exact ⟨sound.tokens.register, sound.attended,
    moved.register (by simp) (sound.answers.unregistered req.rid (.inr now))⟩

section

variable (sound : Sound none server)
include sound

/-- A parked request that is taken is owned. -/
theorem unpark (parked : server.pendingMm rid = some req) :
    Sound (some (rid, .intake)) (server.unpark rid) :=
  ⟨sound.tokens.unpark parked, sound.attended.unpark rid, sound.answers⟩

/-- A multimodal worker's answer is taken, with the request it is for if that is parked. -/
theorem takeMm {event : TmEvent} {rest : List TmEvent} (inbox : server.inbox = event :: rest)
    (about : event.mmRid = some rid) :
    (server.pendingMm rid = none → Sound none { server with inbox := rest }) ∧
    ∀ req, server.pendingMm rid = some req → req.rid = rid ∧ req.kind = .generate ∧
      Sound (some (rid, .intake)) ({ server with inbox := rest }.unpark rid) := by
  obtain ⟨tokens, attended, answers⟩ := sound
  rw [inbox] at tokens attended
  have taken := tokens.takeMm (by simp [about])
  have attended := attended.takeMm about
  refine ⟨fun parked => ⟨taken, ?_, answers⟩, fun req parked => ?_⟩
  · rwa [← parked, update_eq_self] at attended
  · obtain ⟨same, -, kind⟩ := tokens.parked rid req parked
    exact ⟨same, kind, taken.unpark parked, attended, answers⟩

/-- Handling an event of the inbox. -/
theorem onEvent {event : TmEvent} {rest : List TmEvent} (inbox : server.inbox = event :: rest) :
    Sound none ({ server with inbox := rest }.onEvent mmFull event) := by
  obtain ⟨tokens, attended, answers⟩ := id sound
  rw [inbox] at tokens attended
  cases event with
  | intake req =>
    have held : Sound (some (req.rid, .received)) { server with inbox := rest } :=
      ⟨tokens.takeIntake, attended.take rfl, answers⟩
    have state := tokens.intakes req mem_cons_self
    rcases drive_received { server with inbox := rest } req mmFull state with failed | driven
    · rw [Server.onEvent, failed]
      exact held.fail (.inl rfl) rfl false
    · exact held.registerDetok.outcome driven
  | tokenized req =>
    have held : Sound (some (req.rid, .intake)) { server with inbox := rest } :=
      ⟨tokens.takeTokenized, attended.take rfl, answers⟩
    have answered := drive_returned { server with inbox := rest } req mmFull
      (tokens.returns req mem_cons_self)
    exact held.answered answered
  | mmEncoded rid ids =>
    obtain ⟨absent, present⟩ := sound.takeMm inbox rfl
    cases parked : server.pendingMm rid with
    | none =>
      rw [Server.onEvent, @onMmEncoded_of_none { server with inbox := rest } mmFull rid parked]
      exact { absent parked with }
    | some req =>
      obtain ⟨rfl, kind, held⟩ := present req parked
      have answered :=
        @onMmEncoded_answered { server with inbox := rest } req mmFull req.rid parked kind ids
      exact held.answered answered
  | mmFailed rid =>
    obtain ⟨absent, present⟩ := sound.takeMm inbox rfl
    cases parked : server.pendingMm rid with
    | none =>
      rw [Server.onEvent, @onMmFailed_of_none { server with inbox := rest } rid parked]
      exact absent parked
    | some req =>
      obtain ⟨rfl, -, held⟩ := present req parked
      rw [Server.onEvent, @onMmFailed_of_some { server with inbox := rest } req req.rid parked]
      exact held.fail (.inr rfl) rfl true

/-- A cancellation keeps the server sound. -/
theorem cancelParked (rid : ℕ) : Sound none (server.cancelParked rid) := by
  cases parked : server.pendingMm rid with
  | none =>
    rw [cancelParked_of_none parked]
    exact sound
  | some req =>
    have held := sound.unpark parked
    have now := (held.tokens.of_held (.inr rfl)).1
    rw [cancelParked_of_some parked]
    exact ⟨held.tokens.settle (.inr rfl) .cancelled (by simp), held.attended,
      held.answers.setPhase .cancelled (.inr (.inr now)) (by simp) (by simp)⟩

/-- Handling an abort. -/
theorem onAbort (source : AbortSource) : Sound none (server.onAbort source) := by
  have told : Sound none (((server.cancelParked source.rid).detokFor source.rid
      (.deregister source.rid)).tryPush (.abort source.rid)) :=
    ((sound.cancelParked source.rid).detokFor (fun _ => rfl) (by simp)).tryPush
      (by simp)
  cases source with
  | guard rid => exact { told with }
  | detok rid => exact told

/-- A registered request that was handed over gets a last item. -/
theorem finish (registered : server.table rid = true) (handed : server.phase rid = .handed)
    (item : ResponseItem) (full : Bool) :
    Sound none ((server.trySend rid item full).remove rid) := by
  refine ⟨sound.tokens, sound.attended, sound.answers.close ?_⟩
  cases lost : server.closed rid || full with
  | true => exact .inl rfl
  | false => exact .inr ⟨registered, handed, item, rfl⟩

/-- So does an abort. -/
theorem sendAbort (rid : ℕ) : Sound none (server.sendAbort rid) := { sound with }

/-- So does a removed entry. -/
theorem remove (rid : ℕ) : Sound none (server.remove rid) :=
  ⟨sound.tokens, sound.attended, sound.answers.remove rid⟩

/-- So does a chunk of a handed request. -/
theorem handleChunk {ev : ChunkEvent}
    (handed : server.phase ev.rid = .handed) : Sound none (server.handleChunk ev) := by
  rw [Server.handleChunk]
  split
  · exact sound
  next found =>
    have registered : server.table ev.rid = true := by simpa using found
    split
    · exact (sound.sendAbort ev.rid).finish registered handed .error ev.sinkFull
    · split
      · exact sound.finish registered handed .done ev.sinkFull
      · split
        · exact sound.remove ev.rid
        next connected =>
          split
          · exact (sound.sendAbort ev.rid).remove ev.rid
          · refine ⟨sound.tokens, sound.attended, ?_⟩
            have streamed := sound.answers.stream handed registered
            simpa only [trySend, connected]

end

/-- So do several chunks. -/
theorem foldl_handleChunk (sound : Sound none server)
    (handed : ∀ ev ∈ evs, server.phase ev.rid = .handed) :
    Sound none (evs.foldl Server.handleChunk server) := by
  induction evs generalizing server with
  | nil => exact sound
  | cons ev evs ih =>
    apply ih (sound.handleChunk (handed ev mem_cons_self))
    intro later member
    obtain ⟨lane, table, sink, same, -⟩ := ShardEffect.handleChunk server ev
    rw [same]
    exact handed later (mem_cons_of_mem _ member)

section

variable (sound : Sound none server)
include sound

/-- A shard handles the next message of its channel. -/
theorem onDetokMsg {k : ℕ} {rest : List DetokMsg} (channel : server.detokenizer k = msg :: rest)
    (decodes sinkFull : Bool) : Sound none ({ server with
      detokenizer := update server.detokenizer k rest }.onDetokMsg
        decodes sinkFull msg) := by
  have handed := sound.answers.messages k msg (by rw [channel]; exact mem_cons_self)
  have popped : (∀ rid, msg.isRegister rid = false) → Sound none { server with
      detokenizer := update server.detokenizer k rest } :=
    fun other => ⟨sound.tokens, sound.attended, sound.answers.popMsg channel other⟩
  cases msg with
  | register rid => exact ⟨sound.tokens, sound.attended, sound.answers.popRegister channel⟩
  | chunks evs =>
    refine (popped fun _ => rfl).foldl_handleChunk evs ?_
    exact fun ev member => handed ev.rid (mem_map_of_mem member)
  | decode rid | result rid =>
    simp only [Server.onDetokMsg, handleDecode, handleResult]
    split
    next registered => exact (popped fun _ => rfl).finish registered (handed rid (by simp)) _ _
    · exact popped fun _ => rfl
  | fail rid =>
    rw [Server.onDetokMsg, handleFail]
    split
    next registered =>
      exact ((popped fun _ => rfl).sendAbort rid).finish registered
        (handed rid (by simp)) _ _
    · exact popped fun _ => rfl
  | deregister rid => exact (popped fun _ => rfl).remove rid

/-- Every shard is sent its part of a batch. -/
theorem bucket {chunks : List ChunkEvent}
    (handed : ∀ rid ∈ chunks.map ChunkEvent.rid, server.phase rid = .handed) :
    Sound none (server.route (.batch chunks)) := by
  refine ⟨sound.tokens, sound.attended, sound.answers.channels (fun j found member => ?_)
    fun rid => ?_⟩
  · simp only [route] at member
    split at member
    · exact .inl member
    · refine (mem_append.mp member).imp_right fun new => ?_
      rw [mem_singleton.mp new]
      refine ⟨fun _ => rfl, fun rid named => ?_⟩
      obtain ⟨ev, inside, rfl⟩ := mem_map.mp named
      exact handed ev.rid (mem_map_of_mem (mem_filter.mp inside).1)
  · simp only [registrations, route]
    split
    · rfl
    · simp [DetokMsg.isRegister]
      rfl

/-- So does a frame of handed requests. -/
theorem route {frame : Frame} (handed : ∀ rid ∈ frame.rids, server.phase rid = .handed) :
    Sound none (server.route frame) := by
  cases frame with
  | batch chunks => exact sound.bucket handed
  | result rid | error rid => exact sound.detokFor (fun _ => rfl) handed
  | badBatch rids =>
    induction rids generalizing server with
    | nil => exact sound
    | cons rid rids ih =>
      obtain ⟨first, later⟩ := forall_mem_cons.mp handed
      apply ih (sound.detokFor (fun _ => rfl) _)
      · exact later
      · simpa using first

/-- The scheduler takes an item of the ring. -/
theorem recvRequest {rest : List SchedulerRequest} (ring : server.ring = item :: rest)
    (decodes : Bool) : Sound none ({ server with ring := rest }.recvRequest decodes item) := by
  obtain ⟨tokens, attended, answers⟩ := sound
  have handed := answers.ring item (by rw [ring]; exact mem_cons_self)
  rw [ring] at answers
  have popped := answers.popRing
  cases item with
  | generate rid | control rid =>
    have known := handed rid (by simp)
    rw [Server.recvRequest]
    split
    · exact ⟨tokens, attended, popped.schedule known⟩
    · exact ⟨tokens, attended, popped.emit (by simpa [Frame.rids] using known)⟩
  | abort rid => exact ⟨tokens, attended, popped⟩

/-- A tokenizer worker answers. -/
theorem tokenize (member : req ∈ server.tokenizerPool) (ids : Option InputIds) :
    Sound none ({ server with tokenizerPool := server.tokenizerPool.erase req }.tokenize
      req ids) := by
  have kind := (sound.tokens.pooled req member).2
  simp only [Server.tokenize, kind]
  cases ids with
  | none =>
    exact ⟨sound.tokens.returned member rfl (.inr rfl), sound.attended.append _, sound.answers⟩
  | some ids =>
    exact ⟨sound.tokens.returned member rfl (.inl rfl), sound.attended.append _, sound.answers⟩

/-- A multimodal worker answers. -/
theorem process (rid : ℕ) (ids : Option InputIds) :
    Sound none ({ server with mmPool := server.mmPool.erase rid }.process rid ids) := by
  cases ids with
  | none | some ids =>
    exact ⟨sound.tokens.appendMm (by simp [TmEvent.mmRid]), sound.attended.answered rfl,
      sound.answers⟩

/-- So does a fresh request. -/
theorem submit (absent : server.phase req.rid = .absent)
    (state : req.state = .received) : Sound none (server.submit req) :=
  ⟨sound.tokens.submit absent state, sound.attended.append _,
    sound.answers.setPhase .received (.inl absent) (by simp) (fun _ => absent)⟩

/-- One action of any thread. -/
theorem step {action : Action} (taken : Step server action next) : Sound none next := by
  cases action with
  | submit req =>
    obtain ⟨allowed, ⟨⟩⟩ := ite_none_right_eq_some.mp taken
    exact sound.submit allowed.1 allowed.2
  | disarm rid =>
    cases taken
    exact { sound with }
  | closeSink rid =>
    cases taken
    exact ⟨sound.tokens, sound.attended, sound.answers.closeSink rid⟩
  | dropGuard rid =>
    obtain ⟨-, ⟨⟩⟩ := ite_none_right_eq_some.mp taken
    exact { sound with }
  | takeAbort =>
    obtain ⟨source, rest, -, rfl⟩ := taken.takeAbort
    have popped : Sound none { server with abortLane := rest } := { sound with }
    exact popped.onAbort source
  | takeEvent mmFull =>
    obtain ⟨_, _, inbox, rfl⟩ := taken.takeEvent
    exact sound.onEvent inbox
  | tokenize req ids =>
    obtain ⟨member, ⟨⟩⟩ := ite_none_right_eq_some.mp taken
    exact sound.tokenize member ids
  | process rid ids =>
    obtain ⟨-, ⟨⟩⟩ := ite_none_right_eq_some.mp taken
    exact sound.process rid ids
  | recvRequest decodes =>
    obtain ⟨_, _, ring, rfl⟩ := taken.recvRequest
    exact sound.recvRequest ring decodes
  | emit frame =>
    obtain ⟨drained, ⟨⟩⟩ := ite_none_right_eq_some.mp taken
    exact ⟨sound.tokens, sound.attended,
      sound.answers.emit fun rid named => sound.answers.scheduled rid (drained rid named)⟩
  | dispatch =>
    obtain ⟨frame, rest, frames, rfl⟩ := taken.dispatch
    have handed := sound.answers.frames frame (by rw [frames]; exact mem_cons_self)
    have answers := sound.answers
    rw [frames] at answers
    have popped : Sound none { server with fromScheduler := rest } :=
      ⟨sound.tokens, sound.attended, { answers with
        frames := fun other member => answers.frames other (mem_cons_of_mem _ member) }⟩
    exact popped.route handed
  | detok k decodes sinkFull =>
    obtain ⟨_, _, channel, rfl⟩ := taken.detok
    exact sound.onDetokMsg channel decodes sinkFull

end

end Sound

end Server

end AvaServe.Frontend
