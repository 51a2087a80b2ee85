import AvaServe.Foundation.Path

/-!
# Pipeline output relay

`PPOutputRelay` and the two scheduler methods around it, on every stage of the
pipeline at once. A stage's scheduler thread joins the result of the batch that
ran in a microbatch slot one round earlier and then launches the slot's next
batch; the last stage's worker fans a batch's output out to the earlier stages and
to its own mailbox; the workers of the earlier stages pop the registration of the
slot named in the message.

The stages are replicas, so the batch of one loop iteration is the same on all of
them. The step relation interleaves the threads freely, with two assumptions about
the surroundings: connections deliver in order, and the last stage hands a batch's
output to its worker only after every earlier stage has launched that batch.
-/

namespace AvaServe.Pipeline

open Function

/-- How the result of a batch comes back. -/
inductive OutputRoute
  /-- `forward_mode.is_prebuilt()`: no output. -/
  | prebuilt
  /-- `_pp_can_skip_output_comm`: the result is fabricated locally. -/
  | skipped
  /-- The last stage's output is relayed. -/
  | relayed
  deriving DecidableEq, Repr

/-- What the stages run: the batch planned in every loop iteration, the output the
last stage computes for it, and every stage's own metadata for it. -/
structure Schedule (Batch Meta Out Res : Type*) where
  lastRank : ℕ
  loopSize : ℕ
  loopSize_pos : 0 < loopSize
  plan : ℕ → Option Batch
  route : Batch → OutputRoute
  output : ℕ → Out
  metadata : ℕ → ℕ → Meta
  prepResult : Batch → Meta → Out → Res
  skipResult : Batch → Meta → Res

/-- `_SendJob`. -/
structure SendJob (Batch Meta Out : Type*) where
  mbId : ℕ
  tensors : Out
  batch : Batch
  metadata : Meta

/-- What a mailbox holds; the result is `none` for prebuilt batches. -/
inductive Mail (Batch Res : Type*)
  | result (batch : Batch) (result : Option Res)
  | poison

/-- Where the worker thread is in its loop. -/
inductive Worker (Batch Meta Out Res : Type*)
  | idle
  /-- Earlier stages: a message has been received. -/
  | received (mbId : ℕ) (tensors : Out)
  /-- Last stage: the job in hand and the stages it has not been sent to. -/
  | sending (job : SendJob Batch Meta Out) (rest : List ℕ)
  /-- The preprocessed result is about to be put into the mailbox. -/
  | prepared (mbId : ℕ) (batch : Batch) (result : Res)
  /-- `_poison`: the mailboxes it has not visited yet. -/
  | poisoning (rest : List ℕ)

/-- The relay object of one stage. -/
structure Relay (Batch Meta Out Res : Type*) where
  mailbox : ℕ → Option (Mail Batch Res)
  inflight : ℕ → Option (Batch × Meta)
  sendQueue : List (SendJob Batch Meta Out)
  fatal : Bool
  worker : Worker Batch Meta Out Res

/-- Where the scheduler thread is in one iteration of `event_loop_pp`. -/
inductive Main (Batch Res : Type*)
  /-- Before `_pp_join_output_relay`. -/
  | top
  /-- In `join`, past its first failure check. -/
  | joining
  /-- After the join, before `_pp_launch_batch`. -/
  | launching
  /-- In `post_local`, waiting for the full mailbox. -/
  | blocked (batch : Batch) (result : Option Res)
  /-- `join` raised. -/
  | raised

/-- One stage: its relay, `_pp_ran_mbs` and its scheduler thread. -/
structure Stage (Batch Meta Out Res : Type*) where
  relay : Relay Batch Meta Out Res
  ran : ℕ → Option Batch
  iter : ℕ
  main : Main Batch Res

variable {Batch Meta Out Res : Type*}

namespace Relay

variable (relay : Relay Batch Meta Out Res)

variable (mbId : ℕ)

/-- `Queue.put` on a mailbox of size one; `none` when the calling thread waits. -/
def put (mail : Mail Batch Res) : Option (Relay Batch Meta Out Res) :=
  match relay.mailbox mbId with
  | none => some { relay with mailbox := update relay.mailbox mbId (some mail) }
  | some _ => none

/-- `expect_message`. -/
def expectMessage (batch : Batch)
    (metadata : Meta) : Relay Batch Meta Out Res :=
  { relay with inflight := update relay.inflight mbId (some (batch, metadata)) }

/-- `submit_send`. -/
def submitSend (tensors : Out) (batch : Batch)
    (metadata : Meta) : Relay Batch Meta Out Res :=
  { relay with sendQueue := relay.sendQueue ++ [⟨mbId, tensors, batch, metadata⟩] }

/-- `post_local`. -/
def postLocal (batch : Batch)
    (result : Option Res) : Option (Relay Batch Meta Out Res) :=
  relay.put mbId (.result batch result)

/-- `box.get` of a mailbox that holds something. -/
def emptyBox : Relay Batch Meta Out Res := { relay with mailbox := update relay.mailbox mbId none }

/-- `_poison`: record the failure; the mailboxes are visited one by one afterwards. -/
def poison (loopSize : ℕ) : Relay Batch Meta Out Res :=
  { relay with fatal := true, worker := .poisoning (List.range loopSize) }

/-- `put_nowait` of the poison: a full mailbox is left as it is. -/
def poisonBox (rest : List ℕ) : Relay Batch Meta Out Res :=
  { (relay.put mbId .poison).getD relay with worker := .poisoning rest }

/-- The worker is replaced. -/
def setWorker (worker : Worker Batch Meta Out Res) : Relay Batch Meta Out Res :=
  { relay with worker := worker }

end Relay

namespace Stage

/-- The relay is replaced. -/
def setRelay (stage : Stage Batch Meta Out Res) (relay : Relay Batch Meta Out Res) :
    Stage Batch Meta Out Res :=
  { stage with relay := relay }

/-- The end of an iteration: `_pp_ran_mbs[mb_id]` as the launch left it, and the
relay after the launch. -/
def next (stage : Stage Batch Meta Out Res) (ran : ℕ → Option Batch)
    (relay : Relay Batch Meta Out Res) : Stage Batch Meta Out Res :=
  { relay := relay, ran := ran, iter := stage.iter + 1, main := .top }

end Stage

/-- All stages and the connections from the last stage. -/
structure Relaying (Batch Meta Out Res : Type*) where
  stage : ℕ → Stage Batch Meta Out Res
  wire : ℕ → List (ℕ × Out)

/-- What the threads do, with the stage that does it. -/
inductive RelayEvent (Batch Res : Type*)
  /-- No batch ran in the slot: the join is skipped. -/
  | skipJoin (k : ℕ)
  /-- `join` is called and passes its first failure check. -/
  | enterJoin (k : ℕ)
  /-- `join` is called and raises at its first failure check. -/
  | refuseJoin (k : ℕ)
  /-- `join` returns, in the given iteration. -/
  | joined (k iter : ℕ) (batch : Batch) (result : Option Res)
  /-- The wait of `join` times out and is repeated. -/
  | waitAgain (k : ℕ)
  /-- `join` raises: poison, or the failure check after a timeout. -/
  | joinRaised (k : ℕ)
  /-- Nothing is planned for the slot. -/
  | launchNothing (k : ℕ)
  /-- `post_local` returns at once. -/
  | post (k : ℕ)
  /-- `post_local` finds the mailbox full and waits. -/
  | postBlocked (k : ℕ)
  /-- A waiting `post_local` proceeds. -/
  | postResumed (k : ℕ)
  | expect (k : ℕ)
  | submit
  /-- The last stage's worker takes a job. -/
  | take
  | send (dst : ℕ)
  /-- The last stage's worker preprocesses its own copy. -/
  | prepare
  | receive (k : ℕ)
  /-- An earlier stage's worker pops the registration and preprocesses. -/
  | pop (k : ℕ)
  /-- An earlier stage's worker finds no registration for the slot. -/
  | popUnregistered (k : ℕ)
  | put (k : ℕ)
  /-- The worker raises. -/
  | fail (k : ℕ)
  | poisonBox (k : ℕ)

namespace Relaying

/-- One stage is replaced. -/
def setStage (relaying : Relaying Batch Meta Out Res) (k : ℕ) (stage : Stage Batch Meta Out Res) :
    Relaying Batch Meta Out Res :=
  { relaying with stage := update relaying.stage k stage }

/-- One wire is replaced. -/
def setWire (relaying : Relaying Batch Meta Out Res) (k : ℕ) (messages : List (ℕ × Out)) :
    Relaying Batch Meta Out Res :=
  { relaying with wire := update relaying.wire k messages }

/-- Every stage as its relay's `__init__` and `init_pp_loop_state` leave it. -/
def initial : Relaying Batch Meta Out Res where
  stage := fun _ =>
    { relay :=
        { mailbox := fun _ => none
          inflight := fun _ => none
          sendQueue := []
          fatal := false
          worker := .idle }
      ran := fun _ => none
      iter := 0
      main := .top }
  wire := fun _ => []

end Relaying

namespace Schedule

variable (S : Schedule Batch Meta Out Res)

/-- The microbatch slot of an iteration. -/
def slot (iter : ℕ) : ℕ := iter % S.loopSize

/-- The result `_pp_launch_batch` posts for a batch that is not relayed. -/
def localResult (k iter : ℕ) (batch : Batch) : Option Res :=
  match S.route batch with
  | .prebuilt => none
  | _ => some (S.skipResult batch (S.metadata k iter))

open Relaying in
/-- One step of one thread. -/
inductive Step : Relaying Batch Meta Out Res → RelayEvent Batch Res →
    Relaying Batch Meta Out Res → Prop
  | skipJoin {s : Relaying Batch Meta Out Res} {k : ℕ} (at_top : (s.stage k).main = .top)
      (nothing : (s.stage k).ran (S.slot (s.stage k).iter) = none) :
      Step s (.skipJoin k) (s.setStage k { s.stage k with main := .launching })
  | enterJoin {s : Relaying Batch Meta Out Res} {k : ℕ} {batch : Batch}
      (at_top : (s.stage k).main = .top)
      (ran : (s.stage k).ran (S.slot (s.stage k).iter) = some batch)
      (healthy : (s.stage k).relay.fatal = false) :
      Step s (.enterJoin k)
        (s.setStage k { s.stage k with
          ran := update (s.stage k).ran (S.slot (s.stage k).iter) none
          main := .joining })
  | refuseJoin {s : Relaying Batch Meta Out Res} {k : ℕ} {batch : Batch}
      (at_top : (s.stage k).main = .top)
      (ran : (s.stage k).ran (S.slot (s.stage k).iter) = some batch)
      (failed : (s.stage k).relay.fatal = true) :
      Step s (.refuseJoin k)
        (s.setStage k { s.stage k with
          ran := update (s.stage k).ran (S.slot (s.stage k).iter) none
          main := .raised })
  | joined {s : Relaying Batch Meta Out Res} {k : ℕ} {batch : Batch} {result : Option Res}
      (joining : (s.stage k).main = .joining)
      (mail : (s.stage k).relay.mailbox (S.slot (s.stage k).iter) = some (.result batch result)) :
      Step s (.joined k (s.stage k).iter batch result)
        (s.setStage k { s.stage k with
          relay := (s.stage k).relay.emptyBox (S.slot (s.stage k).iter)
          main := .launching })
  | poisoned {s : Relaying Batch Meta Out Res} {k : ℕ}
      (joining : (s.stage k).main = .joining)
      (mail : (s.stage k).relay.mailbox (S.slot (s.stage k).iter) = some .poison) :
      Step s (.joinRaised k)
        (s.setStage k { s.stage k with
          relay := (s.stage k).relay.emptyBox (S.slot (s.stage k).iter)
          main := .raised })
  | waitAgain {s : Relaying Batch Meta Out Res} {k : ℕ}
      (joining : (s.stage k).main = .joining)
      (empty : (s.stage k).relay.mailbox (S.slot (s.stage k).iter) = none)
      (healthy : (s.stage k).relay.fatal = false) :
      Step s (.waitAgain k) s
  | timedOut {s : Relaying Batch Meta Out Res} {k : ℕ}
      (joining : (s.stage k).main = .joining)
      (empty : (s.stage k).relay.mailbox (S.slot (s.stage k).iter) = none)
      (failed : (s.stage k).relay.fatal = true) :
      Step s (.joinRaised k) (s.setStage k { s.stage k with main := .raised })
  | launchNothing {s : Relaying Batch Meta Out Res} {k : ℕ}
      (launching : (s.stage k).main = .launching)
      (nothing : S.plan (s.stage k).iter = none) :
      Step s (.launchNothing k)
        (s.setStage k ((s.stage k).next (s.stage k).ran (s.stage k).relay))
  | post {s : Relaying Batch Meta Out Res} {k : ℕ} {batch : Batch}
      {relay : Relay Batch Meta Out Res} (launching : (s.stage k).main = .launching)
      (planned : S.plan (s.stage k).iter = some batch) (own : S.route batch ≠ .relayed)
      (posted : (s.stage k).relay.postLocal (S.slot (s.stage k).iter) batch
        (S.localResult k (s.stage k).iter batch) = some relay) :
      Step s (.post k)
        (s.setStage k ((s.stage k).next
          (update (s.stage k).ran (S.slot (s.stage k).iter) (some batch)) relay))
  | postBlocked {s : Relaying Batch Meta Out Res} {k : ℕ} {batch : Batch}
      (launching : (s.stage k).main = .launching)
      (planned : S.plan (s.stage k).iter = some batch) (own : S.route batch ≠ .relayed)
      (full : (s.stage k).relay.postLocal (S.slot (s.stage k).iter) batch
        (S.localResult k (s.stage k).iter batch) = none) :
      Step s (.postBlocked k)
        (s.setStage k { s.stage k with
          ran := update (s.stage k).ran (S.slot (s.stage k).iter) (some batch)
          main := .blocked batch (S.localResult k (s.stage k).iter batch) })
  | postResumed {s : Relaying Batch Meta Out Res} {k : ℕ} {batch : Batch} {result : Option Res}
      {relay : Relay Batch Meta Out Res} (blocked : (s.stage k).main = .blocked batch result)
      (posted : (s.stage k).relay.postLocal (S.slot (s.stage k).iter) batch result = some relay) :
      Step s (.postResumed k) (s.setStage k ((s.stage k).next (s.stage k).ran relay))
  | expect {s : Relaying Batch Meta Out Res} {k : ℕ} {batch : Batch} (earlier : k < S.lastRank)
      (launching : (s.stage k).main = .launching)
      (planned : S.plan (s.stage k).iter = some batch) (relayed : S.route batch = .relayed) :
      Step s (.expect k)
        (s.setStage k ((s.stage k).next
          (update (s.stage k).ran (S.slot (s.stage k).iter) (some batch))
          ((s.stage k).relay.expectMessage (S.slot (s.stage k).iter) batch
            (S.metadata k (s.stage k).iter))))
  | submit {s : Relaying Batch Meta Out Res} {batch : Batch}
      (launching : (s.stage S.lastRank).main = .launching)
      (planned : S.plan (s.stage S.lastRank).iter = some batch)
      (relayed : S.route batch = .relayed)
      (registered : ∀ k < S.lastRank, (s.stage S.lastRank).iter < (s.stage k).iter) :
      Step s .submit
        (s.setStage S.lastRank ((s.stage S.lastRank).next
          (update (s.stage S.lastRank).ran (S.slot (s.stage S.lastRank).iter) (some batch))
          ((s.stage S.lastRank).relay.submitSend (S.slot (s.stage S.lastRank).iter)
            (S.output (s.stage S.lastRank).iter) batch
            (S.metadata S.lastRank (s.stage S.lastRank).iter))))
  | take {s : Relaying Batch Meta Out Res} {job : SendJob Batch Meta Out}
      {rest : List (SendJob Batch Meta Out)}
      (idle : (s.stage S.lastRank).relay.worker = .idle)
      (head : (s.stage S.lastRank).relay.sendQueue = job :: rest) :
      Step s .take
        (s.setStage S.lastRank ((s.stage S.lastRank).setRelay { (s.stage S.lastRank).relay with
            sendQueue := rest
            worker := .sending job (List.range S.lastRank) }))
  | send {s : Relaying Batch Meta Out Res} {job : SendJob Batch Meta Out} {dst : ℕ}
      {rest : List ℕ} (sending : (s.stage S.lastRank).relay.worker = .sending job (dst :: rest)) :
      Step s (.send dst)
        ((s.setWire dst (s.wire dst ++ [(job.mbId, job.tensors)])).setStage S.lastRank
          ((s.stage S.lastRank).setRelay
            ((s.stage S.lastRank).relay.setWorker (.sending job rest))))
  | prepare {s : Relaying Batch Meta Out Res} {job : SendJob Batch Meta Out}
      (sent : (s.stage S.lastRank).relay.worker = .sending job []) :
      Step s .prepare
        (s.setStage S.lastRank ((s.stage S.lastRank).setRelay ((s.stage S.lastRank).relay.setWorker
            (.prepared job.mbId job.batch (S.prepResult job.batch job.metadata job.tensors)))))
  | receive {s : Relaying Batch Meta Out Res} {k mbId : ℕ} {tensors : Out}
      {rest : List (ℕ × Out)} (earlier : k < S.lastRank)
      (idle : (s.stage k).relay.worker = .idle) (head : s.wire k = (mbId, tensors) :: rest) :
      Step s (.receive k)
        ((s.setWire k rest).setStage k ((s.stage k).setRelay
          ((s.stage k).relay.setWorker (.received mbId tensors))))
  | pop {s : Relaying Batch Meta Out Res} {k mbId : ℕ} {tensors : Out} {batch : Batch}
      {metadata : Meta} (received : (s.stage k).relay.worker = .received mbId tensors)
      (registered : (s.stage k).relay.inflight mbId = some (batch, metadata)) :
      Step s (.pop k)
        (s.setStage k ((s.stage k).setRelay { (s.stage k).relay with
            inflight := update (s.stage k).relay.inflight mbId none
            worker := .prepared mbId batch (S.prepResult batch metadata tensors) }))
  | popUnregistered {s : Relaying Batch Meta Out Res} {k mbId : ℕ} {tensors : Out}
      (received : (s.stage k).relay.worker = .received mbId tensors)
      (missing : (s.stage k).relay.inflight mbId = none) :
      Step s (.popUnregistered k)
        (s.setStage k ((s.stage k).setRelay ((s.stage k).relay.poison S.loopSize)))
  | put {s : Relaying Batch Meta Out Res} {k mbId : ℕ} {batch : Batch} {result : Res}
      {relay : Relay Batch Meta Out Res}
      (prepared : (s.stage k).relay.worker = .prepared mbId batch result)
      (put : (s.stage k).relay.put mbId (.result batch (some result)) = some relay) :
      Step s (.put k) (s.setStage k ((s.stage k).setRelay (relay.setWorker .idle)))
  | fail {s : Relaying Batch Meta Out Res} {k : ℕ} (healthy : (s.stage k).relay.fatal = false) :
      Step s (.fail k)
        (s.setStage k ((s.stage k).setRelay ((s.stage k).relay.poison S.loopSize)))
  | poisonBox {s : Relaying Batch Meta Out Res} {k mbId : ℕ} {rest : List ℕ}
      (poisoning : (s.stage k).relay.worker = .poisoning (mbId :: rest)) :
      Step s (.poisonBox k)
        (s.setStage k ((s.stage k).setRelay ((s.stage k).relay.poisonBox mbId rest)))

end Schedule

end AvaServe.Pipeline
