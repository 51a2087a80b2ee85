import AvaServe.Foundation.Path

/-!
# Tagged request fan-out between pipeline stages

`PPReqForwardRelay`: the first stage stamps the requests of every loop iteration
with its iteration counter and hands them to a worker thread that sends them to
every other stage; each other stage has a worker thread that queues what arrives,
and its main thread drains the queue up to its own iteration counter.

The threads are interleaved freely. The connection from the first stage to each
other stage is an in-order lossless list of messages. The main result is that a
poll at local iteration `i` returns exactly the requests submitted with the tags
after the stage's previous poll, up to `i`, whatever the delivery timing.
-/

namespace AvaServe.Pipeline

open Foundation List Function

variable {ι Req : Type*}

/-- One fanned-out message: the first stage's loop iteration and its requests. -/
structure Tagged (Req : Type*) where
  tag : ℕ
  reqs : List Req
  deriving DecidableEq, Repr

/-- What `_raise_if_fatal` raises. -/
inductive RelayError
  | workerDied
  deriving DecidableEq, Repr

/-- The relay object of the first stage. `sending` holds the sends of the message
in the worker's hands that it has not issued yet. -/
structure FirstRelay (ι Req : Type*) where
  loopCounter : ℕ
  sendQueue : List (Tagged Req)
  sending : List (ι × Tagged Req)
  fatal : Bool

/-- The relay object of every other stage. -/
structure StageRelay (Req : Type*) where
  loopCounter : ℕ
  pending : List (Tagged Req)
  fatal : Bool

namespace FirstRelay

/-- `set_loop_iteration` on the first stage. -/
def setLoopIteration (relay : FirstRelay ι Req) (counter : ℕ) : FirstRelay ι Req :=
  { relay with loopCounter := counter }

/-- `submit`: queue one iteration's requests for the fan-out worker. -/
def submit (relay : FirstRelay ι Req) (tag : ℕ) (reqs : List Req) :
    Except RelayError (FirstRelay ι Req) :=
  if relay.fatal then .error .workerDied
  else .ok { relay with sendQueue := relay.sendQueue ++ [⟨tag, reqs⟩] }

end FirstRelay

/-- The drain loop of `poll`: messages tagged at most `gate` leave the front of the
queue and their requests are concatenated. -/
def drain (gate : ℕ) : List (Tagged Req) → List Req × List (Tagged Req)
  | [] => ([], [])
  | message :: rest =>
    if message.tag ≤ gate then
      (message.reqs ++ (drain gate rest).1, (drain gate rest).2)
    else ([], message :: rest)

namespace StageRelay

/-- `set_loop_iteration` on every other stage. -/
def setLoopIteration (relay : StageRelay Req) (counter : ℕ) : StageRelay Req :=
  { relay with loopCounter := counter }

/-- The predicate `poll` waits for. -/
def ready (relay : StageRelay Req) : Bool :=
  relay.fatal ||
    match relay.pending.getLast? with
    | none => false
    | some last => relay.loopCounter ≤ last.tag

/-- `poll`: `none` while the calling thread waits. -/
def poll (relay : StageRelay Req) : Option (Except RelayError (List Req) × StageRelay Req) :=
  if relay.ready then
    if relay.fatal then some (.error .workerDied, relay)
    else
      let drained := drain relay.loopCounter relay.pending
      some (.ok drained.1, { relay with pending := drained.2 })
  else none

end StageRelay

/-- All stages together with the connections from the first stage. -/
structure Relays (ι Req : Type*) where
  first : FirstRelay ι Req
  wire : ι → List (Tagged Req)
  stage : ι → StageRelay Req

/-- What the threads do; the main threads' calls carry what they return. -/
inductive Event (ι Req : Type*)
  /-- One loop iteration of the first stage, up to its `submit`. -/
  | submit (tag : ℕ) (reqs : List Req)
  | submitRaised
  /-- The send worker takes the next message from its queue. -/
  | take
  /-- The send worker issues one send. -/
  | send (stage : ι)
  | sendWorkerDied
  /-- A receive worker appends the next message of its connection. -/
  | receive (stage : ι)
  | receiveWorkerDied (stage : ι)
  /-- A stage's main thread starts its next loop iteration. -/
  | iterate (stage : ι)
  | poll (stage : ι) (iteration : ℕ) (out : List Req)
  | pollRaised (stage : ι)

namespace Relays

variable [DecidableEq ι]

/-- Every relay as `__init__` leaves it. -/
def initial : Relays ι Req where
  first := { loopCounter := 0, sendQueue := [], sending := [], fatal := false }
  wire := fun _ => []
  stage := fun _ => { loopCounter := 0, pending := [], fatal := false }

/-- One stage is replaced. -/
def setStage (relays : Relays ι Req) (k : ι) (relay : StageRelay Req) : Relays ι Req :=
  { relays with stage := update relays.stage k relay }

/-- One wire is replaced. -/
def setWire (relays : Relays ι Req) (k : ι) (messages : List (Tagged Req)) : Relays ι Req :=
  { relays with wire := update relays.wire k messages }

/-- One step of one thread; `peers` are the stages after the first. -/
inductive Step (peers : List ι) : Relays ι Req → Event ι Req → Relays ι Req → Prop
  | submit {relays : Relays ι Req} {first : FirstRelay ι Req} (reqs : List Req)
      (queued : (relays.first.setLoopIteration (relays.first.loopCounter + 1)).submit
        (relays.first.loopCounter + 1) reqs = .ok first) :
      Step peers relays (.submit (relays.first.loopCounter + 1) reqs)
        { relays with first := first }
  | submitRaised {relays : Relays ι Req} (reqs : List Req)
      (raised : (relays.first.setLoopIteration (relays.first.loopCounter + 1)).submit
        (relays.first.loopCounter + 1) reqs = .error .workerDied) :
      Step peers relays .submitRaised relays
  | take {relays : Relays ι Req} {message : Tagged Req} {rest : List (Tagged Req)}
      (alive : relays.first.fatal = false) (idle : relays.first.sending = [])
      (head : relays.first.sendQueue = message :: rest) :
      Step peers relays .take
        { relays with
          first := { relays.first with
            sendQueue := rest
            sending := peers.map fun k => (k, message) } }
  | send {relays : Relays ι Req} {k : ι} {message : Tagged Req}
      {rest : List (ι × Tagged Req)}
      (alive : relays.first.fatal = false) (head : relays.first.sending = (k, message) :: rest) :
      Step peers relays (.send k)
        { relays.setWire k (relays.wire k ++ [message]) with
          first := { relays.first with sending := rest } }
  | sendWorkerDied {relays : Relays ι Req} : Step peers relays .sendWorkerDied
        { relays with first := { relays.first with sending := [], fatal := true } }
  | receive {relays : Relays ι Req} {k : ι} {message : Tagged Req} {rest : List (Tagged Req)}
      (alive : (relays.stage k).fatal = false) (head : relays.wire k = message :: rest) :
      Step peers relays (.receive k)
        ((relays.setWire k rest).setStage k
          { relays.stage k with pending := (relays.stage k).pending ++ [message] })
  | receiveWorkerDied {relays : Relays ι Req} {k : ι} : Step peers relays (.receiveWorkerDied k)
        (relays.setStage k { relays.stage k with fatal := true })
  | iterate {relays : Relays ι Req} {k : ι} : Step peers relays (.iterate k)
        (relays.setStage k ((relays.stage k).setLoopIteration ((relays.stage k).loopCounter + 1)))
  | poll {relays : Relays ι Req} {k : ι} {out : List Req} {relay : StageRelay Req}
      (returned : (relays.stage k).poll = some (.ok out, relay)) :
      Step peers relays (.poll k (relays.stage k).loopCounter out) (relays.setStage k relay)
  | pollRaised {relays : Relays ι Req} {k : ι} {relay : StageRelay Req}
      (raised : (relays.stage k).poll = some (.error .workerDied, relay)) :
      Step peers relays (.pollRaised k) (relays.setStage k relay)

end Relays

/-! ## What a run has submitted, iterated and ingested -/

section History

variable [DecidableEq ι]

/-- The message an event submits. -/
def Event.message? : Event ι Req → Option (Tagged Req)
  | .submit tag reqs => some ⟨tag, reqs⟩
  | _ => none

/-- The messages the first stage has submitted, in order. -/
def submitted (events : List (Event ι Req)) : List (Tagged Req) := events.filterMap Event.message?

/-- An event is an iteration of the stage. -/
def Event.iterates (k : ι) : Event ι Req → Bool
  | .iterate stage => stage = k
  | _ => false

/-- The loop iteration a stage is in. -/
def iteration (k : ι) (events : List (Event ι Req)) : ℕ := events.countP (Event.iterates k)

/-- What a poll of the stage returned. -/
def Event.polled? (k : ι) : Event ι Req → Option (ℕ × List Req)
  | .poll stage gate out => if stage = k then some (gate, out) else none
  | _ => none

/-- The polls of a stage: the iteration of each and what it returned. -/
def polls (k : ι) (events : List (Event ι Req)) : List (ℕ × List Req) :=
  events.filterMap (Event.polled? k)

/-- The iteration of a stage's last poll, 0 before the first. -/
def lastPoll (k : ι) (events : List (Event ι Req)) : ℕ :=
  ((polls k events).getLast?.map Prod.fst).getD 0

/-- Everything a stage's polls have returned. -/
def ingested (k : ι) (events : List (Event ι Req)) : List Req := (polls k events).flatMap Prod.snd

/-- The requests of the messages tagged above `low`, up to `high`. -/
def requestsBetween (low high : ℕ) (messages : List (Tagged Req)) : List Req :=
  (messages.filter fun message => low < message.tag ∧ message.tag ≤ high).flatMap Tagged.reqs

omit [DecidableEq ι] in
/-- Submissions add up. -/
@[simp] theorem submitted_append (left right : List (Event ι Req)) :
    submitted (left ++ right) = submitted left ++ submitted right :=
  filterMap_append

variable (k : ι)

/-- Iterations add up. -/
@[simp] theorem iteration_append (left right : List (Event ι Req)) :
    iteration k (left ++ right) = iteration k left + iteration k right :=
  countP_append

/-- Polls add up. -/
@[simp] theorem polls_append (left right : List (Event ι Req)) :
    polls k (left ++ right) = polls k left ++ polls k right :=
  filterMap_append

/-- The last poll stays without a new one. -/
theorem lastPoll_append_of_polls_nil {k : ι} {left right : List (Event ι Req)}
    (none : polls k right = []) : lastPoll k (left ++ right) = lastPoll k left := by
  rw [lastPoll, lastPoll, polls_append, none, append_nil]

variable (past : List (Event ι Req))

/-- A new poll is the last. -/
theorem lastPoll_append_poll (gate : ℕ) (out : List Req) :
    lastPoll k (past ++ [.poll k gate out]) = gate := by
  simp [lastPoll, polls, Event.polled?]

/-- Nothing is ingested without a poll. -/
theorem ingested_append_of_polls_nil {k : ι} {left right : List (Event ι Req)}
    (none : polls k right = []) : ingested k (left ++ right) = ingested k left := by
  rw [ingested, ingested, polls_append, none, append_nil]

/-- A poll ingests what it returns. -/
theorem ingested_append_poll (gate : ℕ) (out : List Req) :
    ingested k (past ++ [.poll k gate out]) = ingested k past ++ out := by
  simp [ingested, polls, Event.polled?]

end History

/-! ## Consecutive tags -/

/-- The messages carry the tags after `start` in order, without a gap. -/
def Numbered (start : ℕ) (messages : List (Tagged Req)) : Prop :=
  messages.map Tagged.tag = range' (start + 1) messages.length

/-- No messages are numbered. -/
theorem Numbered.nil (start : ℕ) : Numbered start ([] : List (Tagged Req)) := rfl

variable {start : ℕ} {messages : List (Tagged Req)} {relay after : StageRelay Req}

/-- The first message has the next tag. -/
theorem numbered_cons {message : Tagged Req} {rest : List (Tagged Req)} :
    Numbered start (message :: rest) ↔ message.tag = start + 1 ∧ Numbered (start + 1) rest := by
  simp [Numbered, range'_succ]

/-- The second part goes on counting. -/
theorem numbered_append {left right : List (Tagged Req)} : Numbered start (left ++ right) ↔
      Numbered start left ∧ Numbered (start + left.length) right := by
  induction left generalizing start with
  | nil => simp [Numbered.nil]
  | cons message left ih =>
    rw [cons_append, numbered_cons, numbered_cons, ih, length_cons, and_assoc,
      add_right_comm start 1, add_assoc start left.length 1]

variable (numbered : Numbered start messages)

section

include numbered

/-- A suffix is numbered. -/
theorem Numbered.drop {n : ℕ} (within : n ≤ messages.length) :
    Numbered (start + n) (messages.drop n) := by
  rw [← take_append_drop n messages, numbered_append] at numbered
  simpa [within] using numbered.2

/-- The drain loop on consecutive tags takes a prefix of known length. -/
theorem drain_eq {gate : ℕ} : drain gate messages =
      ((messages.take (gate - start)).flatMap Tagged.reqs, messages.drop (gate - start)) := by
  induction messages generalizing start with
  | nil => simp [drain]
  | cons message rest ih =>
    obtain ⟨tag, numbered⟩ := numbered_cons.mp numbered
    rw [drain]
    split
    next due =>
      have step : gate - start = gate - (start + 1) + 1 := by omega
      rw [ih numbered, step, take_succ_cons, drop_succ_cons, flatMap_cons]
    next early =>
      have step : gate - start = 0 := by omega
      rw [step, take_zero, drop_zero, flatMap_nil]

/-- The tags of a window are a slice. -/
theorem filter_between_eq {low high : ℕ} :
    (messages.filter fun message => low < message.tag ∧ message.tag ≤ high) =
      (messages.take (high - start)).drop (low - start) := by
  induction messages generalizing start with
  | nil => simp
  | cons message rest ih =>
    obtain ⟨tag, numbered⟩ := numbered_cons.mp numbered
    rw [filter_cons, ih numbered, tag]
    by_cases above : low < start + 1
    · by_cases below : start + 1 ≤ high
      · have high_step : high - start = high - (start + 1) + 1 := by omega
        have low_zero : low - start = 0 := by omega
        have low_zero' : low - (start + 1) = 0 := by omega
        simp [above, below, high_step, low_zero, low_zero']
      · have high_zero : high - start = 0 := by omega
        have high_zero' : high - (start + 1) = 0 := by omega
        simp [below, high_zero, high_zero']
    · have low_step : low - start = low - (start + 1) + 1 := by omega
      by_cases below : start + 1 ≤ high
      · have high_step : high - start = high - (start + 1) + 1 := by omega
        simp [above, high_step, low_step]
      · have high_zero : high - start = 0 := by omega
        have high_zero' : high - (start + 1) = 0 := by omega
        simp [above, high_zero, high_zero']

end

/-- So are the requests between two tags. -/
theorem requestsBetween_eq {low high : ℕ} (numbered : Numbered 0 messages) :
    requestsBetween low high messages = ((messages.take high).drop low).flatMap Tagged.reqs := by
  rw [requestsBetween, filter_between_eq numbered, Nat.sub_zero, Nat.sub_zero]

include numbered in
/-- The last of consecutive tags counts them. -/
theorem Numbered.getLast_tag {last : Tagged Req}
    (isLast : messages.getLast? = some last) : last.tag = start + messages.length := by
  obtain ⟨front, rfl⟩ := getLast?_eq_some_iff.mp isLast
  obtain ⟨tag, -⟩ := numbered_cons.mp (numbered_append.mp numbered).2
  rw [tag, length_append, length_singleton, add_assoc]

variable {out : List Req}

/-- What a returning poll did, on consecutive tags after `start`. -/
theorem StageRelay.poll_returned (numbered : Numbered start relay.pending)
    (returned : relay.poll = some (.ok out, after)) :
    relay.loopCounter ≤ start + relay.pending.length ∧
      out = (relay.pending.take (relay.loopCounter - start)).flatMap Tagged.reqs ∧
      after = { relay with pending := relay.pending.drop (relay.loopCounter - start) } := by
  unfold poll at returned
  split at returned
  case isFalse => cases returned
  case isTrue ready =>
    cases dead : relay.fatal with
    | true => simp [dead] at returned
    | false =>
      rw [drain_eq numbered] at returned
      simp only [dead] at returned
      obtain ⟨rfl, rfl⟩ := returned
      rw [StageRelay.ready, dead] at ready
      cases isLast : relay.pending.getLast? with
      | none => simp [isLast] at ready
      | some last =>
        rw [← numbered.getLast_tag isLast]
        simpa [isLast] using ready

/-- A poll whose iteration's message has been queued, and was not drained by an
earlier poll, does not wait. -/
theorem StageRelay.poll_returns (numbered : Numbered start relay.pending)
    (alive : relay.fatal = false) (fresh : start < relay.loopCounter)
    (arrived : relay.loopCounter ≤ start + relay.pending.length) :
    ∃ out after, relay.poll = some (.ok out, after) := by
  have isReady : relay.ready = true := by
    cases isLast : relay.pending.getLast? with
    | none =>
      rw [getLast?_eq_none_iff.mp isLast, length_nil] at arrived
      omega
    | some last =>
      rw [← numbered.getLast_tag isLast] at arrived
      simp [StageRelay.ready, isLast, arrived]
  exact ⟨_, _, by simp [poll, isReady, alive]; exact ⟨rfl, rfl⟩⟩

/-- A poll keeps the counter. -/
theorem StageRelay.poll_keeps {result : Except RelayError (List Req)}
    (polled : relay.poll = some (result, after)) : after.loopCounter = relay.loopCounter := by
  unfold poll at polled
  split at polled
  case isFalse => cases polled
  case isTrue => split at polled <;> cases polled <;> rfl

/-- A failed poll keeps the stage. -/
theorem StageRelay.poll_raised (raised : relay.poll = some (.error .workerDied, after)) :
    after = relay := by
  unfold poll at raised
  split at raised
  case isFalse => cases raised
  case isTrue =>
    split at raised <;> cases raised
    rfl

/-! ## Where every message is -/

variable {events : List (Event ι Req)} {target : Relays ι Req} {event : Event ι Req}
  {reqs : List Req}

section Invariant

variable [DecidableEq ι]

/-- The sends to one stage that the worker has not issued yet. -/
def toSend (k : ι) (sending : List (ι × Tagged Req)) : List (Tagged Req) :=
  (sending.filter fun entry => entry.1 = k).map Prod.snd

/-- What a stage has not ingested is, in tag order, in its queue, on its
connection, or (while the send worker lives) still at the first stage. -/
def Routed (messages : List (Tagged Req)) (relays : Relays ι Req) (k : ι) : Prop :=
  ∃ unsent, (relays.stage k).pending ++ relays.wire k ++ unsent = messages ∧
    (relays.first.fatal = false → unsent = toSend k relays.first.sending ++ relays.first.sendQueue)

/-- The invariant of the fan-out, between the events so far and the relays. -/
structure Consistent (peers : List ι) (past : List (Event ι Req)) (relays : Relays ι Req) :
    Prop where
  counter : relays.first.loopCounter = (submitted past).length
  numbered : Numbered 0 (submitted past)
  iterations : ∀ k, (relays.stage k).loopCounter = iteration k past
  polledBefore : ∀ k, lastPoll k past ≤ iteration k past
  polledWithin : ∀ k ∈ peers, lastPoll k past ≤ (submitted past).length
  ingestedUpTo : ∀ k ∈ peers,
    ingested k past = ((submitted past).take (lastPoll k past)).flatMap Tagged.reqs
  routed : ∀ k ∈ peers, Routed ((submitted past).drop (lastPoll k past)) relays k

/-- The stages after one was replaced. -/
theorem Relays.setStage_stage (relays : Relays ι Req) (stage k : ι) (relay : StageRelay Req) :
    (relays.setStage stage relay).stage k = if k = stage then relay else relays.stage k :=
  update_apply ..

variable {peers : List ι} {relays : Relays ι Req} {past : List (Event ι Req)} {k : ι}
  {relay : StageRelay Req}

/-- Replacing a stage's relay by one with the same queue moves no message. -/
theorem Routed.setStage {messages : List (Tagged Req)} (routed : Routed messages relays k)
    (stage : ι) (same : relay.pending = (relays.stage stage).pending) :
    Routed messages (relays.setStage stage relay) k := by
  obtain ⟨unsent, route, atFirst⟩ := routed
  refine ⟨unsent, ?_, atFirst⟩
  rw [← route, Relays.setStage_stage]
  split
  next here => rw [same, here]; rfl
  next => rfl

/-- The start is consistent. -/
theorem consistent_initial (peers : List ι) :
    Consistent peers ([] : List (Event ι Req)) Relays.initial where
  counter := rfl
  numbered := .nil 0
  iterations := fun _ => rfl
  polledBefore := fun _ => le_refl _
  polledWithin := fun _ _ => le_refl _
  ingestedUpTo := fun _ _ => rfl
  routed := fun _ _ => ⟨[], rfl, fun _ => rfl⟩

/-- Events that submit nothing and return no poll. -/
structure Event.Silent (event : Event ι Req) : Prop where
  message : event.message? = none
  polled : ∀ k, event.polled? k = none

variable (consistent : Consistent peers past relays)

section

variable {after : Relays ι Req} {event : Event ι Req}
  (iterations : ∀ k, (after.stage k).loopCounter =
    (relays.stage k).loopCounter + if event.iterates k then 1 else 0)
include consistent iterations

/-- A step that returns no poll and routes what it submits behind the rest. -/
theorem Consistent.unpolled {fresh : List (Tagged Req)} (submits : submitted [event] = fresh)
    (noPolls : ∀ k, polls k [event] = []) (numbered : Numbered relays.first.loopCounter fresh)
    (counter : after.first.loopCounter = relays.first.loopCounter + fresh.length)
    (routed : ∀ k ∈ peers, ∀ messages, Routed messages relays k →
      Routed (messages ++ fresh) after k) :
    Consistent peers (past ++ [event]) after := by
  have within := consistent.polledWithin
  constructor
  case counter => rw [counter, submitted_append, submits, length_append, consistent.counter]
  case numbered =>
    rw [submitted_append, submits, numbered_append, zero_add, ← consistent.counter]
    exact ⟨consistent.numbered, numbered⟩
  case iterations =>
    intro k
    rw [iterations, consistent.iterations, iteration_append, iteration, iteration, countP_singleton]
  case polledBefore =>
    intro k
    rw [lastPoll_append_of_polls_nil (noPolls k), iteration_append]
    exact Nat.le_add_right_of_le (consistent.polledBefore k)
  case polledWithin =>
    intro k member
    rw [lastPoll_append_of_polls_nil (noPolls k), submitted_append, length_append]
    exact Nat.le_add_right_of_le (within k member)
  case ingestedUpTo =>
    intro k member
    rw [lastPoll_append_of_polls_nil (noPolls k), ingested_append_of_polls_nil (noPolls k),
      submitted_append, take_append_of_le_length (within k member)]
    exact consistent.ingestedUpTo k member
  case routed =>
    intro k member
    rw [lastPoll_append_of_polls_nil (noPolls k), submitted_append, submits,
      drop_append_of_le_length (within k member)]
    exact routed k member _ (consistent.routed k member)

/-- Events outside the history keep it. -/
theorem Consistent.silent (silent : event.Silent)
    (counter : after.first.loopCounter = relays.first.loopCounter)
    (routed : ∀ k ∈ peers, ∀ messages, Routed messages relays k → Routed messages after k) :
    Consistent peers (past ++ [event]) after := by
  have none : submitted [event] = [] := by simp [submitted, silent.message]
  refine consistent.unpolled iterations none (fun k => ?_) (.nil _) counter ?_
  · simp [polls, silent.polled k]
  · simpa only [append_nil] using routed

end

/-- A message to the stage. -/
theorem toSend_cons_self (k : ι) (message : Tagged Req) (rest : List (ι × Tagged Req)) :
    toSend k ((k, message) :: rest) = message :: toSend k rest := by
  simp [toSend]

/-- A message to another. -/
theorem toSend_cons_of_ne {other : ι} (different : other ≠ k) (message : Tagged Req)
    (rest : List (ι × Tagged Req)) : toSend k ((other, message) :: rest) = toSend k rest := by
  simp [toSend, different]

/-- The fan-out of one message has one send for every stage. -/
theorem toSend_fanOut (nodup : peers.Nodup) (member : k ∈ peers) (message : Tagged Req) :
    toSend k (peers.map fun stage => (stage, message)) = [message] := by
  induction peers with
  | nil => cases member
  | cons stage peers ih =>
    obtain ⟨absent, nodup⟩ := nodup_cons.mp nodup
    rw [map_cons]
    by_cases same : stage = k
    · subst same
      rw [toSend_cons_self]
      have none : toSend stage (peers.map fun other => (other, message)) = [] := by
        simp only [toSend, map_eq_nil_iff, filter_eq_nil_iff, mem_map]
        rintro entry ⟨other, inPeers, rfl⟩
        simp only [decide_eq_true_eq]
        rintro rfl
        exact absent inPeers
      rw [none]
    · rw [toSend_cons_of_ne same]
      exact ih nodup ((mem_cons.mp member).resolve_left fun eq => same eq.symm)

omit [DecidableEq ι] in
/-- A submission is queued. -/
theorem FirstRelay.submit_ok {relay after : FirstRelay ι Req} {tag : ℕ}
    (queued : relay.submit tag reqs = .ok after) :
    relay.fatal = false ∧ after = { relay with sendQueue := relay.sendQueue ++ [⟨tag, reqs⟩] } := by
  unfold FirstRelay.submit at queued
  split at queued
  next => cases queued
  next alive => exact ⟨by simpa using alive, by cases queued; rfl⟩

section

include consistent

/-- A submission keeps it. -/
theorem Consistent.submit {first : FirstRelay ι Req}
    (queued : (relays.first.setLoopIteration (relays.first.loopCounter + 1)).submit
      (relays.first.loopCounter + 1) reqs = .ok first) :
    Consistent peers (past ++ [.submit (relays.first.loopCounter + 1) reqs])
      { relays with first := first } := by
  obtain ⟨alive, rfl⟩ := FirstRelay.submit_ok queued
  refine consistent.unpolled (fun _ => rfl) rfl (fun _ => rfl) (numbered_cons.mpr ⟨rfl, .nil _⟩)
    rfl ?_
  rintro k member messages ⟨unsent, route, rest⟩
  refine ⟨unsent ++ [⟨relays.first.loopCounter + 1, reqs⟩], ?_, fun _ => ?_⟩
  · rw [← append_assoc, route]
    rfl
  · rw [rest alive, append_assoc]
    rfl

/-- A poll returns the requests since the last one. -/
theorem Consistent.poll {stage : ι} (member : stage ∈ peers)
    (returned : (relays.stage stage).poll = some (.ok out, relay)) :
    iteration stage past ≤ (submitted past).length ∧
      out = (((submitted past).take (iteration stage past)).drop
        (lastPoll stage past)).flatMap Tagged.reqs ∧
      relay = { relays.stage stage with
        pending := (relays.stage stage).pending.drop
          (iteration stage past - lastPoll stage past) } ∧
      iteration stage past - lastPoll stage past ≤ (relays.stage stage).pending.length := by
  obtain ⟨unsent, route, -⟩ := consistent.routed stage member
  have within := consistent.polledWithin stage member
  have tags := consistent.numbered.drop within
  rw [← route, append_assoc, numbered_append, zero_add] at tags
  obtain ⟨reached, taken, left⟩ := StageRelay.poll_returned tags.1 returned
  rw [consistent.iterations] at reached taken
  have total : (relays.stage stage).pending.length ≤
      (submitted past).length - lastPoll stage past := by
    rw [← length_drop, ← route, append_assoc, length_append]
    exact Nat.le_add_right _ _
  have drained : (relays.stage stage).pending.take (iteration stage past - lastPoll stage past) =
      ((submitted past).take (iteration stage past)).drop (lastPoll stage past) := by
    rw [drop_take, ← route, append_assoc, take_append_of_le_length (by omega)]
  refine ⟨by omega, by rw [taken, drained], ?_, by omega⟩
  rw [left, ← consistent.iterations]

/-- A poll keeps it. -/
theorem Consistent.polled {stage : ι}
    (returned : (relays.stage stage).poll = some (.ok out, relay)) :
    Consistent peers (past ++ [.poll stage (relays.stage stage).loopCounter out])
      (relays.setStage stage relay) := by
  set event : Event ι Req := .poll stage (relays.stage stage).loopCounter out with isEvent
  have same : submitted (past ++ [event]) = submitted past := by simp [submitted, Event.message?]
  have sameIteration : ∀ k, iteration k (past ++ [event]) = iteration k past := fun k => by
    simp [iteration, Event.iterates]
  have here : lastPoll stage (past ++ [event]) = iteration stage past := by
    rw [lastPoll_append_poll, consistent.iterations]
  have noPolls : ∀ k, k ≠ stage → polls k [event] = [] := fun k elsewhere => by
    simp [polls, isEvent, Event.polled?, Ne.symm elsewhere]
  constructor
  case counter => rw [same]; exact consistent.counter
  case numbered => rw [same]; exact consistent.numbered
  case iterations =>
    intro k
    rw [sameIteration, Relays.setStage_stage, ← consistent.iterations]
    split
    next same => rw [StageRelay.poll_keeps returned, same]
    next => rfl
  case polledBefore =>
    intro k
    rw [sameIteration]
    by_cases at_stage : k = stage
    · rw [at_stage, here]
    · rw [lastPoll_append_of_polls_nil (noPolls k at_stage)]
      exact consistent.polledBefore k
  case polledWithin =>
    intro k member
    rw [same]
    by_cases at_stage : k = stage
    · subst at_stage
      rw [here]
      exact (consistent.poll member returned).1
    · rw [lastPoll_append_of_polls_nil (noPolls k at_stage)]
      exact consistent.polledWithin k member
  case ingestedUpTo =>
    intro k member
    rw [same]
    by_cases at_stage : k = stage
    · subst at_stage
      obtain ⟨-, taken, -⟩ := consistent.poll member returned
      have before := consistent.polledBefore k
      rw [here, ingested_append_poll, consistent.ingestedUpTo k member, taken, ← flatMap_append]
      conv_rhs => rw [← take_append_drop (lastPoll k past) (take _ _), take_take,
        min_eq_left before]
    · rw [lastPoll_append_of_polls_nil (noPolls k at_stage),
        ingested_append_of_polls_nil (noPolls k at_stage)]
      exact consistent.ingestedUpTo k member
  case routed =>
    intro k member
    rw [same]
    obtain ⟨unsent, route, atFirst⟩ := consistent.routed k member
    refine ⟨unsent, ?_, atFirst⟩
    rw [Relays.setStage_stage]
    by_cases at_stage : k = stage
    · subst at_stage
      obtain ⟨-, -, left, enough⟩ := consistent.poll member returned
      have before := consistent.polledBefore k
      rw [if_pos rfl, left, here, ← Nat.add_sub_of_le before, ← drop_drop, ← route,
        Nat.add_sub_cancel_left, append_assoc, append_assoc,
        drop_append_of_le_length enough]
      rfl
    · rw [if_neg at_stage, lastPoll_append_of_polls_nil (noPolls k at_stage)]
      exact route

end

/-- **Every step keeps the relays consistent.** -/
theorem consistent_step (nodup : peers.Nodup) {after : Relays ι Req}
    (step : Relays.Step peers relays event after) (consistent : Consistent peers past relays) :
    Consistent peers (past ++ [event]) after := by
  cases step with
  | submit reqs queued => exact consistent.submit queued
  | submitRaised reqs raised =>
    exact consistent.silent (fun _ => rfl) ⟨rfl, fun _ => rfl⟩ rfl fun _ _ _ routed => routed
  | @take message rest alive idle head =>
    refine consistent.silent (fun _ => rfl) ⟨rfl, fun _ => rfl⟩ rfl ?_
    rintro k member messages ⟨unsent, route, atFirst⟩
    refine ⟨unsent, route, fun _ => ?_⟩
    rw [atFirst alive, idle, head, toSend_fanOut nodup member]
    rfl
  | @send stage message rest alive head =>
    refine consistent.silent (fun _ => rfl) ⟨rfl, fun _ => rfl⟩ rfl ?_
    rintro k member messages ⟨unsent, route, atFirst⟩
    rw [head] at atFirst
    by_cases same : stage = k
    · subst same
      refine ⟨toSend stage rest ++ relays.first.sendQueue, ?_, fun _ => rfl⟩
      rw [← route, atFirst alive, toSend_cons_self]
      simp [Relays.setWire]
    · refine ⟨unsent, ?_, fun _ => ?_⟩
      · simpa [Relays.setWire, Ne.symm same] using route
      · rw [atFirst alive, toSend_cons_of_ne same]
  | sendWorkerDied =>
    refine consistent.silent (fun _ => rfl) ⟨rfl, fun _ => rfl⟩ rfl ?_
    rintro k member messages ⟨unsent, route, -⟩
    exact ⟨unsent, route, nofun⟩
  | @receive stage message rest alive head =>
    refine consistent.silent (fun k => ?_) ⟨rfl, fun _ => rfl⟩ rfl ?_
    · by_cases same : k = stage
      · subst same
        simp [Relays.setStage, Event.iterates]
      · simp [Relays.setStage, Relays.setWire, Event.iterates, same]
    · rintro k member messages ⟨unsent, route, atFirst⟩
      refine ⟨unsent, ?_, atFirst⟩
      rw [← route]
      by_cases same : k = stage
      · subst same
        simp [Relays.setStage, Relays.setWire, head]
      · simp [Relays.setStage, Relays.setWire, same]
  | @receiveWorkerDied stage | @iterate stage =>
    refine consistent.silent (fun k => ?_) ⟨rfl, fun _ => rfl⟩ rfl
      fun k member messages routed => routed.setStage stage rfl
    rw [Relays.setStage_stage]
    split
    next here => simp [here, StageRelay.setLoopIteration, Event.iterates]
    next elsewhere => simp [Event.iterates, Ne.symm elsewhere]
  | poll returned => exact consistent.polled returned
  | @pollRaised stage relay raised =>
    obtain rfl := StageRelay.poll_raised raised
    refine consistent.silent (fun k => ?_) ⟨rfl, fun _ => rfl⟩ rfl
      fun k member messages routed => routed.setStage stage rfl
    rw [Relays.setStage_stage]
    split
    next here => rw [here]; rfl
    next => rfl

/-- The invariant holds after every run. -/
theorem consistent_run (nodup : peers.Nodup)
    (run : Path (Relays.Step peers) Relays.initial events target) :
    Consistent peers events target :=
  Path.recorded (Consistent peers) (fun _ _ _ _ step => consistent_step nodup step) run
    (consistent_initial peers)

end Invariant

/-! ## Delivery -/

section Delivery

variable [DecidableEq ι]

/-- Events of the send and receive workers. -/
def Event.byWorker : Event ι Req → Bool
  | .take | .send _ | .receive _ => true
  | _ => false

/-- The workers alone can lead from one state to the other. -/
def WorkersLead (peers : List ι) (relays after : Relays ι Req) : Prop :=
  ∃ events, Path (Relays.Step peers) relays events after ∧ ∀ event ∈ events, event.byWorker

/-- No step. -/
theorem WorkersLead.refl (peers : List ι) (relays : Relays ι Req) :
    WorkersLead peers relays relays :=
  ⟨[], .nil relays, by simp⟩

variable {relays : Relays ι Req} {peers : List ι}

/-- Steps one after the other. -/
theorem WorkersLead.trans {middle after : Relays ι Req} (left : WorkersLead peers relays middle)
    (right : WorkersLead peers middle after) : WorkersLead peers relays after := by
  obtain ⟨early, run, all⟩ := left
  obtain ⟨late, run', all'⟩ := right
  exact ⟨early ++ late, run.append run', forall_mem_append.mpr ⟨all, all'⟩⟩

/-- One step of a worker. -/
theorem WorkersLead.step {after : Relays ι Req} (step : Relays.Step peers relays event after)
    (worker : event.byWorker) : WorkersLead peers relays after :=
  ⟨[event], .cons step (.nil after), by simpa using worker⟩

/-- The send worker can issue every send of the message in its hands. -/
theorem exists_sent (peers : List ι) (alive : relays.first.fatal = false) :
    ∃ wire, WorkersLead peers relays
      { relays with wire := wire, first := { relays.first with sending := [] } } := by
  generalize inHand : relays.first.sending = sending
  induction sending generalizing relays with
  | nil =>
    refine ⟨relays.wire, ?_⟩
    rw [← inHand]
    exact WorkersLead.refl peers relays
  | cons entry rest ih =>
    obtain ⟨k, message⟩ := entry
    have sent : WorkersLead peers relays _ := .step (.send alive inHand) rfl
    obtain ⟨wire, leads⟩ := @ih { relays.setWire k (relays.wire k ++ [message]) with
      first := { relays.first with sending := rest } } alive rfl
    exact ⟨wire, sent.trans leads⟩

/-- The send worker can empty its queue. -/
theorem exists_queue_sent (peers : List ι) (alive : relays.first.fatal = false) :
    ∃ wire, WorkersLead peers relays
      { relays with
        wire := wire
        first := { relays.first with sending := [], sendQueue := [] } } := by
  generalize queued : relays.first.sendQueue = sendQueue
  induction sendQueue generalizing relays with
  | nil =>
    obtain ⟨wire, leads⟩ := exists_sent peers alive
    refine ⟨wire, ?_⟩
    rw [← queued]
    exact leads
  | cons message rest ih =>
    obtain ⟨wire, leads⟩ := exists_sent peers alive
    have taken : WorkersLead peers
        { relays with wire := wire, first := { relays.first with sending := [] } } _ :=
      .step (.take alive rfl queued) rfl
    obtain ⟨wire', leads'⟩ := @ih { relays with
      wire := wire
      first := { relays.first with
        sendQueue := rest
        sending := peers.map fun k => (k, message) } } alive rfl
    exact ⟨wire', (leads.trans taken).trans leads'⟩

/-- A receive worker can empty its connection. -/
theorem exists_received (peers : List ι) {k : ι} (alive : (relays.stage k).fatal = false) :
    ∃ after, WorkersLead peers relays after ∧ after.first = relays.first ∧ after.wire k = [] ∧
      (after.stage k).fatal = false := by
  generalize onWire : relays.wire k = messages
  induction messages generalizing relays with
  | nil => exact ⟨relays, WorkersLead.refl peers relays, rfl, onWire, alive⟩
  | cons message rest ih =>
    have received : WorkersLead peers relays _ := .step (.receive alive onWire) rfl
    obtain ⟨after, leads, first, wire, stillAlive⟩ := @ih
      ((relays.setWire k rest).setStage k
        { relays.stage k with pending := (relays.stage k).pending ++ [message] })
      (by simpa [Relays.setStage_stage] using alive)
      (by simp [Relays.setStage, Relays.setWire])
    exact ⟨after, received.trans leads, first, wire, stillAlive⟩

/-- Workers leave no history. -/
theorem history_of_workers (workers : ∀ event ∈ events, event.byWorker) (k : ι) :
    submitted events = [] ∧ iteration k events = 0 ∧ polls k events = [] := by
  have each : ∀ event : Event ι Req, event.byWorker →
      event.message? = none ∧ event.iterates k = false ∧ event.polled? k = none := by
    intro event worker
    cases event <;> simp_all [Event.byWorker, Event.message?, Event.iterates, Event.polled?]
  refine ⟨?_, ?_, ?_⟩
  · exact filterMap_eq_nil_iff.mpr fun event member => (each event (workers event member)).1
  · refine countP_eq_zero.mpr fun event member => ?_
    simp [(each event (workers event member)).2.1]
  · exact filterMap_eq_nil_iff.mpr fun event member => (each event (workers event member)).2.2

/-- A stage whose iteration the first stage has reached, with live workers, is
brought by the workers alone to a state where its next poll returns. -/
theorem Consistent.exists_delivery (nodup : peers.Nodup) {past : List (Event ι Req)} {k : ι}
    (consistent : Consistent peers past relays) (member : k ∈ peers)
    (sender : relays.first.fatal = false) (receiver : (relays.stage k).fatal = false)
    (fresh : lastPoll k past < iteration k past)
    (reached : iteration k past ≤ (submitted past).length) :
    ∃ after, WorkersLead peers relays after ∧
      ∃ out relay, (after.stage k).poll = some (.ok out, relay) := by
  obtain ⟨wire, sent⟩ := exists_queue_sent peers sender
  obtain ⟨after, received, first, empty, alive⟩ := @exists_received _ _ _
    { relays with wire := wire, first := { relays.first with sending := [], sendQueue := [] } }
    peers k receiver
  have leads := sent.trans received
  refine ⟨after, leads, ?_⟩
  obtain ⟨events, run, workers⟩ := leads
  obtain ⟨noSubmits, noIterations, noPolls⟩ := history_of_workers workers k
  have final := Path.recorded (Consistent peers)
    (fun _ _ _ _ step => consistent_step nodup step) run consistent
  obtain ⟨unsent, route, atFirst⟩ := final.routed k member
  rw [submitted_append, noSubmits, lastPoll_append_of_polls_nil noPolls, empty,
    atFirst (by rw [first]; exact sender), first] at route
  have pending : (after.stage k).pending = (submitted past).drop (lastPoll k past) := by
    simpa [toSend] using route
  have counter : (after.stage k).loopCounter = iteration k past := by
    rw [final.iterations, iteration_append, noIterations, add_zero]
  have tags := consistent.numbered.drop (consistent.polledWithin k member)
  rw [zero_add, ← pending] at tags
  refine StageRelay.poll_returns tags alive (by rwa [counter]) ?_
  rw [pending, length_drop]
  omega

end Delivery

/-! ## Lockstep -/

section Lockstep

variable [DecidableEq ι]

/-- What one poll of a run returned, over the messages of the whole run. -/
theorem poll_eq_requestsBetween {peers : List ι} (nodup : peers.Nodup)
    {before after : List (Event ι Req)}
    (run : Path (Relays.Step peers) Relays.initial events target) {k : ι} (member : k ∈ peers)
    {i : ℕ} (split : events = before ++ .poll k i out :: after) :
    i = iteration k before ∧ i ≤ (submitted before).length ∧
      out = requestsBetween (lastPoll k before) i (submitted events) := by
  have numbered := (consistent_run nodup run).numbered
  rw [requestsBetween_eq numbered]
  rw [split] at run
  obtain ⟨middle, past, rest⟩ := run.append_inv
  obtain ⟨next, step, -⟩ := rest.cons_inv
  have consistent := consistent_run nodup past
  cases step with
  | poll returned =>
    obtain ⟨within, taken, -⟩ := consistent.poll member returned
    rw [← consistent.iterations] at within taken
    exact ⟨consistent.iterations k, within, by
      rw [split, submitted_append, take_append_of_le_length within, taken]⟩

/-- In every interleaving of the first stage's submits, the workers' sends and
deliveries, the workers' failures and the stages' iterations and polls: a poll
returns the requests tagged after the stage's previous poll, up to its own
iteration, all of which have been submitted; two stages that polled in the
iteration before get the same requests; the polls of a stage together return what
was submitted up to the last of them, once and in order; the tags are 1, 2, 3 and
so on; and a poll of a new iteration that the first stage has submitted returns
after finitely many steps of live workers. -/
theorem poll_lockstep {peers : List ι} (nodup : peers.Nodup) {events : List (Event ι Req)}
    {target : Relays ι Req} (run : Path (Relays.Step peers) Relays.initial events target) :
    (∀ k ∈ peers, ∀ before i out after, events = before ++ .poll k i out :: after →
      i = iteration k before ∧ i ≤ (submitted before).length ∧
        out = requestsBetween (lastPoll k before) i (submitted events)) ∧
    (∀ k ∈ peers, ∀ k' ∈ peers, ∀ before before' i out out' after after',
      events = before ++ .poll k i out :: after →
      events = before' ++ .poll k' i out' :: after' →
      lastPoll k before + 1 = i → lastPoll k' before' + 1 = i → out = out') ∧
    (∀ k ∈ peers, ingested k events = requestsBetween 0 (lastPoll k events) (submitted events)) ∧
    (submitted events).map Tagged.tag = range' 1 (submitted events).length ∧
    (∀ k ∈ peers, target.first.fatal = false → (target.stage k).fatal = false →
      lastPoll k events < iteration k events →
      iteration k events ≤ (submitted events).length →
      ∃ later, WorkersLead peers target later ∧
        ∃ out relay, (later.stage k).poll = some (.ok out, relay)) := by
  have consistent := consistent_run nodup run
  refine ⟨?_, ?_, ?_, ?_, ?_⟩
  · intro k member before i out after split
    exact poll_eq_requestsBetween nodup run member split
  · intro k member k' member' before before' i out out' after after' split split' polled polled'
    obtain ⟨-, -, eq⟩ := poll_eq_requestsBetween nodup run member split
    obtain ⟨-, -, eq'⟩ := poll_eq_requestsBetween nodup run member' split'
    have same : lastPoll k before = lastPoll k' before' := by omega
    rw [eq, eq', same]
  · intro k member
    rw [requestsBetween_eq consistent.numbered, drop_zero]
    exact consistent.ingestedUpTo k member
  · simpa [Numbered] using consistent.numbered
  · intro k member sender receiver fresh reached
    exact consistent.exists_delivery nodup member sender receiver fresh reached

/-- Two stages, the second one's delivery late: both polls return iteration 1's
requests. -/
theorem poll_lockstep_two_stages : ∃ target : Relays (Fin 2) ℕ,
      Path (Relays.Step [0, 1]) Relays.initial
        [.submit 1 [7], .take, .send 0, .receive 0, .iterate 0, .poll 0 1 [7], .submit 2 [],
          .send 1, .receive 1, .iterate 1, .poll 1 1 [7]] target ∧
      [7] = requestsBetween 0 1 [⟨1, [7]⟩, ⟨2, []⟩] := by
  refine Exists.imp (fun target run => ⟨run, ((poll_lockstep (by decide) run).1 1 (by decide)
    [.submit 1 [7], .take, .send 0, .receive 0, .iterate 0, .poll 0 1 [7], .submit 2 [],
      .send 1, .receive 1, .iterate 1] 1 [7] [] rfl).2.2⟩) ?_
  exact ⟨_, .cons (.submit [7] rfl) <| .cons (.take rfl rfl rfl) <| .cons (.send rfl rfl) <|
    .cons (.receive rfl rfl) <| .cons .iterate <| .cons (.poll rfl) <| .cons (.submit [] rfl) <|
    .cons (.send rfl rfl) <| .cons (.receive rfl rfl) <| .cons .iterate <| .cons (.poll rfl) <|
    .nil _⟩

end Lockstep

end AvaServe.Pipeline
