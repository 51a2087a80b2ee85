import AvaServe.Pipeline.OutputMatching

/-!
# The relay workers, and whole runs of the output relay

The worker threads keep the invariant of the output relay; from it, over whole
runs: joins return the batch of the previous round with its own output, workers
find every slot they pop registered, no put waits, and joins raise after a failure.
A locally fabricated result that is posted after the stage's worker has failed
waits forever.
-/

namespace AvaServe.Pipeline

open Foundation List Relaying Option
open Function (update_self update_of_ne update_apply)

variable {Batch Meta Out Res : Type*} {events : List (RelayEvent Batch Res)} {later : List ℕ}

namespace Schedule

variable {S : Schedule Batch Meta Out Res}

/-! ## The worker threads -/

attribute [simp] Stage.setRelay Relay.setWorker Worker.unsentTo

variable {s t : Relaying Batch Meta Out Res} {k mbId m : ℕ} {due : ℕ → List ℕ} {batch : Batch}
  {relay : Relay Batch Meta Out Res} {stage : Stage Batch Meta Out Res}
  {event : RelayEvent Batch Res} {job : SendJob Batch Meta Out} {tensors : Out}

variable (linked : S.Linked s due)

/-- A stage that is not poisoned is alive. -/
theorem StageOk.alive (ok : S.StageOk k stage)
    (working : ∀ rest, stage.relay.worker ≠ .poisoning rest) : stage.relay.fatal = false := by
  by_contra failed
  obtain ⟨rest, poisoning⟩ := ok.failed (by simpa using failed)
  exact working rest poisoning

/-- A live worker moves on without touching a mailbox. -/
theorem StageOk.work (ok : S.StageOk k stage) (mailbox : relay.mailbox = stage.relay.mailbox)
    (fatal : relay.fatal = stage.relay.fatal)
    (working : ∀ rest, stage.relay.worker ≠ .poisoning rest)
    (stillWorking : ∀ rest, relay.worker ≠ .poisoning rest)
    (prepared : ∀ mbId batch result, relay.worker = .prepared mbId batch result →
      stage.relay.mailbox mbId = none ∧ ∃ i, S.Awaits stage i ∧ S.slot i = mbId ∧ S.previous i =
      some batch ∧ some result = S.expected k (i - S.loopSize) batch) :
    S.StageOk k (stage.setRelay relay) :=
  { ok with
    mail := fun mbId batch result mail => ok.mail mbId batch result (by rw [← mailbox]; exact mail)
    poison := fun mbId mail => by
      change relay.fatal = true
      rw [fatal]
      exact ok.poison mbId (by rw [← mailbox]; exact mail)
    dead := fun rest poisoning => absurd poisoning (stillWorking rest)
    failed := fun failed => by
      change relay.fatal = true at failed
      rw [fatal, ok.alive working] at failed
      cases failed
    prepared := fun mbId batch result isPrepared => by
      obtain ⟨empty, owner⟩ := prepared mbId batch result isPrepared
      exact ⟨by rw [← empty, ← mailbox]; rfl, owner⟩ }

/-- Registration reads the box, the entry and the worker. -/
theorem Registered.work (registered : S.Registered k stage m)
    (mailbox : relay.mailbox = stage.relay.mailbox)
    (inflight : relay.inflight (S.slot m) = stage.relay.inflight (S.slot m))
    (notPrepared : ∀ batch result, relay.worker ≠ .prepared (S.slot m) batch result) :
    S.Registered k (stage.setRelay relay) m where
  planned := by
    obtain ⟨batch, planned, relayed, entry⟩ := registered.planned
    exact ⟨batch, planned, relayed, fun earlier => inflight.trans (entry earlier)⟩
  awaits := registered.awaits
  noMail := fun batch result mail => registered.noMail batch result (by rw [← mailbox]; exact mail)
  notPrepared := notPrepared

variable (rank : k ≤ S.lastRank)

section

include linked

include rank in
/-- Where an awaited result is, when the worker has nothing prepared, whatever it does next. -/
theorem Linked.pending_of_not_prepared {worker : Worker Batch Meta Out Res}
    (healthy : (s.stage k).relay.fatal = false)
    (notPrepared : ∀ mbId batch result, (s.stage k).relay.worker ≠ .prepared mbId batch result)
    {i : ℕ} (awaits : S.Awaits (s.stage k) i) (planned : S.previous i = some batch) :
    (s.stage k).relay.mailbox (S.slot i) ≠ none ∨
      (∃ result, worker = .prepared (S.slot i) batch result) ∨ i - S.loopSize ∈ due k ∨
      (k < S.lastRank ∧ S.route batch = .relayed ∧ (s.stage S.lastRank).iter ≤ i - S.loopSize) := by
  obtain filled | ⟨result, prepared⟩ | rest := linked.pending k rank healthy i batch awaits planned
  · exact .inl filled
  · exact absurd prepared (notPrepared _ _ _)
  · exact .inr (.inr rest)

/-- The worker takes a job. -/
theorem Linked.take {rest : List (SendJob Batch Meta Out)}
    (idle : (s.stage S.lastRank).relay.worker = .idle)
    (head : (s.stage S.lastRank).relay.sendQueue = job :: rest) :
    S.Linked
      (s.setStage S.lastRank ((s.stage S.lastRank).setRelay { (s.stage S.lastRank).relay with
          sendQueue := rest
          worker := .sending job (range S.lastRank) })) due := by
  have ok := linked.stages S.lastRank
  have healthy : (s.stage S.lastRank).relay.fatal = false := ok.alive (by simp [idle])
  refine linked.replace rfl ?_ le_rfl ?_ (fun _ _ _ _ le lt => absurd lt le.not_gt) linked.nodup
    (fun _ _ => .inl) (fun _ _ _ => id) ?_ ?_ ?_ (absurd rfl) (fun _ => rfl) ?_
  · exact ok.work rfl rfl (by simp [idle]) (by simp) (by simp)
  · exact fun m _ registered => registered.work rfl rfl (by simp)
  · intro j earlier
    obtain ⟨unsent, route, atLast⟩ := linked.wires j earlier
    refine ⟨unsent, ?_, fun _ => ?_⟩
    · rw [setStage_of_ne s (ne_of_lt earlier)]
      exact route
    · rw [atLast healthy, idle, head]
      simp [earlier]
  · intro _
    have jobs := linked.jobs healthy
    rw [idle, head] at jobs
    rw [setStage_self]
    exact jobs
  · intro job' rest' sending
    rw [setStage_self] at sending
    cases sending
    exact nodup_range
  · intro rank _ i batch awaits planned
    exact linked.pending_of_not_prepared rank healthy (by simp [idle]) awaits planned

/-- It sends the job to a stage. -/
theorem Linked.send {dst : ℕ} {rest : List ℕ}
    (sending : (s.stage S.lastRank).relay.worker = .sending job (dst :: rest)) :
    S.Linked
      ((s.setWire dst (s.wire dst ++ [(job.mbId, job.tensors)])).setStage S.lastRank
        ((s.stage S.lastRank).setRelay
          ((s.stage S.lastRank).relay.setWorker (.sending job rest)))) due := by
  have ok := linked.stages S.lastRank
  have healthy : (s.stage S.lastRank).relay.fatal = false := ok.alive (by simp [sending])
  obtain ⟨absent, nodup⟩ := nodup_cons.mp (linked.distinct job _ sending)
  refine linked.replace rfl ?_ le_rfl ?_ (fun _ _ _ _ le lt => absurd lt le.not_gt) linked.nodup
    (fun _ _ => .inl) (fun _ _ _ => id) ?_ ?_ ?_ (absurd rfl) (fun _ => rfl) ?_
  · exact ok.work rfl rfl (by simp [sending]) (by simp)
      (by simp)
  · exact fun m _ registered => registered.work rfl rfl (by simp)
  · intro j earlier
    obtain ⟨unsent, route, atLast⟩ := linked.wires j earlier
    rw [sending] at atLast
    rw [setStage_of_ne _ (ne_of_lt earlier)]
    by_cases same : j = dst
    · subst same
      refine ⟨(s.stage S.lastRank).relay.sendQueue.map SendJob.message, ?_, fun _ => ?_⟩
      · rw [← route, atLast healthy]
        simp [setWire, SendJob.message]
      · simp [absent]
    · refine ⟨unsent, ?_, fun _ => ?_⟩
      · simpa [setWire, same] using route
      · rw [atLast healthy]
        simp [same]
  · intro _
    have jobs := linked.jobs healthy
    rw [sending] at jobs
    rw [setStage_self]
    exact jobs
  · intro job' rest' sending'
    rw [setStage_self] at sending'
    cases sending'
    exact nodup
  · intro rank _ i batch awaits planned
    exact linked.pending_of_not_prepared rank healthy (by simp [sending]) awaits planned

end

/-- An iteration that is due on a healthy stage finds its mailbox empty. -/
theorem Registered.empty (registered : S.Registered k stage m) (ok : S.StageOk k stage)
    (healthy : stage.relay.fatal = false) : stage.relay.mailbox (S.slot m) = none := by
  cases mail : stage.relay.mailbox (S.slot m) with
  | none => rfl
  | some item =>
    cases item with
    | result batch result => exact absurd mail (registered.noMail batch result)
    | poison =>
      have failed := ok.poison _ mail
      rw [healthy] at failed
      cases failed

/-- Two iterations due on one stage have different slots. -/
theorem Registered.slot_ne {m' : ℕ} (left : S.Registered k stage m)
    (right : S.Registered k stage m') (ne : m ≠ m') : S.slot m ≠ S.slot m' := by
  intro same
  rw [← slot_add, ← S.slot_add m'] at same
  exact ne (add_right_cancel (left.awaits.eq_of_slot right.awaits same))

/-- Fewer messages are due. -/
theorem update_sublist (fewer : later.Sublist (due k)) (j : ℕ) :
    (Function.update due k later j).Sublist (due j) := by
  rw [update_apply]
  split
  next here => rwa [here]
  next => exact Sublist.refl _

section

variable (linked : S.Linked s due)
include linked

include rank in
/-- A worker has preprocessed the output of the first iteration that is due: the
rest of the invariant of its stage, for the remaining ones. -/
theorem Linked.preprocess (first : due k = m :: later)
    (stages : t.stage = Function.update s.stage k ((s.stage k).setRelay relay))
    (working : ∀ rest, (s.stage k).relay.worker ≠ .poisoning rest)
    (notPrepared : ∀ mbId batch result, (s.stage k).relay.worker ≠ .prepared mbId batch result)
    (mailbox : relay.mailbox = (s.stage k).relay.mailbox)
    (fatal : relay.fatal = (s.stage k).relay.fatal)
    (inflight : ∀ mbId, mbId ≠ S.slot m → relay.inflight mbId = (s.stage k).relay.inflight mbId)
    (planned : S.plan m = some batch)
    (worker : relay.worker =
      .prepared (S.slot m) batch (S.prepResult batch (S.metadata k m) (S.output m)))
    (wires : S.Wired t (Function.update due k later))
    (jobs : S.Queued t (Function.update due k later))
    (distinct : ∀ job rest, (t.stage S.lastRank).relay.worker = .sending job rest → rest.Nodup) :
    S.Linked t (Function.update due k later) := by
  have ok := linked.stages k
  have healthy := ok.alive working
  have memHead : m ∈ due k := by rw [first]; exact mem_cons_self
  have registered := linked.registered k rank m memHead
  have route : S.route batch = .relayed := by
    obtain ⟨batch', planned', relayed, -⟩ := registered.planned
    rw [planned, some.injEq] at planned'
    rwa [planned']
  have nodup := linked.nodup k
  rw [first, nodup_cons] at nodup
  have fewer : later.Sublist (due k) := first ▸ sublist_cons_self m later
  refine linked.replace stages ?_ (le_refl _) ?_ (fun _ _ _ _ le lt => absurd lt le.not_gt)
    (fun j => (linked.nodup j).sublist (update_sublist fewer j))
    (fun j m member => .inl ((update_sublist fewer j).subset member))
    (fun j ne => by rw [update_of_ne ne]; exact Subset.refl _) wires jobs distinct
    (fun _ => by simp [worker, Worker.inHand]) (fun _ => by simp [worker, Worker.got]) ?_
  · refine ok.work mailbox fatal working (by simp [worker]) ?_
    intro mbId batch' result' prepared
    rw [worker] at prepared
    cases prepared
    refine ⟨registered.empty ok healthy, _, registered.awaits, S.slot_add m,
      Awaits.previous_of_plan planned, ?_⟩
    rw [Nat.add_sub_cancel, expected, route]
  · intro m' remaining registered'
    have ne : m' ≠ m := by
      rintro rfl
      rcases remaining with again | notYet
      · rw [update_self] at again
        exact nodup.1 again
      · exact lt_irrefl _ (lt_of_lt_of_le (linked.submitted k m' memHead) notYet)
    have otherSlot := registered'.slot_ne registered ne
    refine registered'.work mailbox (inflight _ otherSlot) ?_
    intro batch' result' prepared
    rw [worker, Worker.prepared.injEq] at prepared
    exact otherSlot prepared.1.symm
  · intro _ _ i batch' awaits planned'
    rcases linked.pending_of_not_prepared rank healthy notPrepared awaits planned' with
      filled | prepared | isDue | notYet
    · exact .inl fun empty => filled ((congrFun mailbox _).symm.trans empty)
    · exact .inr (.inl prepared)
    · rw [first, mem_cons] at isDue
      rcases isDue with now | waiting
      · have reached := (previous_eq_some.mp planned').1
        obtain rfl : i = m + S.loopSize := by omega
        rw [previous_add, planned, some.injEq] at planned'
        subst planned'
        rw [slot_add]
        exact .inr (.inl ⟨_, worker⟩)
      · rw [update_self]
        exact .inr (.inr (.inl waiting))
    · exact .inr (.inr (.inr notYet))

/-- It prepares its own result. -/
theorem Linked.prepare (sent : (s.stage S.lastRank).relay.worker = .sending job []) :
    ∃ due', S.Linked
      (s.setStage S.lastRank ((s.stage S.lastRank).setRelay ((s.stage S.lastRank).relay.setWorker
          (.prepared job.mbId job.batch (S.prepResult job.batch job.metadata job.tensors)))))
      due' := by
  have healthy := (linked.stages S.lastRank).alive (by simp [sent])
  have jobs := linked.jobs healthy
  rw [sent] at jobs
  change Forall₂ S.IsJob (due S.lastRank) (job :: (s.stage S.lastRank).relay.sendQueue) at jobs
  cases dues : due S.lastRank with
  | nil =>
    rw [dues] at jobs
    cases jobs
  | cons m later =>
    rw [dues, forall₂_cons] at jobs
    obtain ⟨⟨slot, tensors, planned, metadata⟩, rest⟩ := jobs
    refine ⟨_, linked.preprocess (le_refl _) dues rfl (by simp [sent])
      (by simp [sent]) rfl rfl (fun _ _ => rfl) planned ?_ ?_ ?_ ?_⟩
    · rw [← slot, ← tensors, ← metadata]
      rfl
    · intro j earlier
      obtain ⟨unsent, route, atLast⟩ := linked.wires j earlier
      refine ⟨unsent, ?_, fun _ => ?_⟩
      · rw [setStage_of_ne s (ne_of_lt earlier), update_of_ne (ne_of_lt earlier)]
        exact route
      · rw [atLast healthy, sent]
        simp
    · intro _
      rw [update_self, setStage_self]
      exact rest
    · intro job' rest' sending
      rw [setStage_self] at sending
      cases sending

/-- A stage receives a message. -/
theorem Linked.receive {rest : List (ℕ × Out)} (earlier : k < S.lastRank)
    (idle : (s.stage k).relay.worker = .idle) (head : s.wire k = (mbId, tensors) :: rest) :
    S.Linked
      ((s.setWire k rest).setStage k ((s.stage k).setRelay
        ((s.stage k).relay.setWorker (.received mbId tensors)))) due := by
  have ok := linked.stages k
  have healthy : (s.stage k).relay.fatal = false := ok.alive (by simp [idle])
  have atLast : ∀ stage, ((s.setWire k rest).setStage k stage).stage S.lastRank =
      s.stage S.lastRank := fun stage => setStage_of_ne _ (ne_of_gt earlier) _
  refine linked.replace rfl ?_ le_rfl ?_ (fun _ _ _ _ le lt => absurd lt le.not_gt) linked.nodup
    (fun _ _ => .inl) (fun _ _ _ => id) ?_ ?_ ?_ (fun _ => rfl)
    (fun notEarlier => absurd earlier (not_lt.mpr notEarlier)) ?_
  · exact ok.work rfl rfl (by simp [idle]) (by simp) (by simp)
  · exact fun m _ registered => registered.work rfl rfl (by simp)
  · intro j earlier'
    obtain ⟨unsent, route, queued⟩ := linked.wires j earlier'
    rw [atLast]
    refine ⟨unsent, ?_, queued⟩
    rw [← route]
    by_cases same : j = k
    · subst same
      simp [setWire, Worker.got, idle, head]
    · simp [setStage, setWire, same]
  · rw [Queued, atLast]
    exact linked.jobs
  · rw [atLast]
    exact linked.distinct
  · intro rank _ i batch awaits planned
    exact linked.pending_of_not_prepared rank healthy (by simp [idle]) awaits planned

/-- The message a worker has received belongs to the first iteration due on its
stage, whose registration is there. -/
theorem Linked.received (received : (s.stage k).relay.worker = .received mbId tensors) :
    k < S.lastRank ∧ ∃ m later batch, due k = m :: later ∧ mbId = S.slot m ∧
      tensors = S.output m ∧ S.plan m = some batch ∧
      (s.stage k).relay.inflight mbId = some (batch, S.metadata k m) := by
  have earlier : k < S.lastRank := by
    by_contra notEarlier
    have none := linked.receiver k (Nat.le_of_not_lt notEarlier)
    rw [received] at none
    cases none
  obtain ⟨unsent, route, -⟩ := linked.wires k earlier
  rw [received] at route
  cases dues : due k with
  | nil =>
    rw [dues] at route
    cases route
  | cons m later =>
    rw [dues] at route
    obtain ⟨same, -⟩ := cons.inj route
    obtain ⟨slot, out⟩ := Prod.mk.inj same
    have registered := linked.registered k (le_of_lt earlier) m (by rw [dues]; simp)
    obtain ⟨batch, planned, -, inflight⟩ := registered.planned
    exact ⟨earlier, m, later, batch, rfl, slot, out, planned, by rw [slot]; exact inflight earlier⟩

/-- It finds the batch of the message. -/
theorem Linked.pop {metadata : Meta} (received : (s.stage k).relay.worker = .received mbId tensors)
    (entry : (s.stage k).relay.inflight mbId = some (batch, metadata)) : ∃ due', S.Linked
      (s.setStage k ((s.stage k).setRelay { (s.stage k).relay with
          inflight := Function.update (s.stage k).relay.inflight mbId none
          worker := .prepared mbId batch (S.prepResult batch metadata tensors) })) due' := by
  obtain ⟨earlier, m, later, batch', dues, rfl, rfl, planned, entry'⟩ := linked.received received
  rw [entry, some.injEq] at entry'
  obtain ⟨rfl, rfl⟩ := entry'
  have atLast : ∀ stage, (s.setStage k stage).stage S.lastRank = s.stage S.lastRank :=
    fun stage => setStage_of_ne s (ne_of_gt earlier) _
  refine ⟨_, linked.preprocess (le_of_lt earlier) dues rfl (by simp [received])
    (by simp [received]) rfl rfl (fun _ other => update_of_ne other _ _) planned rfl ?_ ?_ ?_⟩
  · intro j earlier'
    obtain ⟨unsent, route, queued⟩ := linked.wires j earlier'
    rw [atLast]
    refine ⟨unsent, ?_, queued⟩
    by_cases same : j = k
    · subst same
      rw [received, dues] at route
      rw [setStage_self, update_self]
      exact (cons.inj route).2
    · rw [setStage_of_ne s same, update_of_ne same]
      exact route
  · rw [Queued, atLast, update_of_ne (ne_of_gt earlier)]
    exact linked.jobs
  · rw [atLast]
    exact linked.distinct

/-- It delivers the result. -/
theorem Linked.put {result : Res}
    (prepared : (s.stage k).relay.worker = .prepared mbId batch result)
    (put : (s.stage k).relay.put mbId (.result batch (some result)) = some relay) :
    S.Linked (s.setStage k ((s.stage k).setRelay (relay.setWorker .idle))) due := by
  have ok := linked.stages k
  have healthy : (s.stage k).relay.fatal = false := ok.alive (by simp [prepared])
  obtain ⟨empty, owner⟩ := ok.prepared mbId batch result prepared
  obtain ⟨-, rfl⟩ := Relay.put_some put
  set stage : Stage Batch Meta Out Res := (s.stage k).setRelay (Relay.setWorker
    { (s.stage k).relay with
      mailbox := Function.update (s.stage k).relay.mailbox mbId
        (some (.result batch (some result))) } .idle) with isStage
  have boxHere : stage.relay.mailbox mbId = some (.result batch (some result)) :=
    update_self mbId _ (s.stage k).relay.mailbox
  have boxElse : ∀ other, other ≠ mbId →
      stage.relay.mailbox other = (s.stage k).relay.mailbox other := fun other ne =>
    update_of_ne ne _ _
  have transport : SameTransport (s.stage k).relay stage.relay :=
    ⟨rfl, rfl, by rw [prepared]; rfl, by rw [prepared]; rfl, fun _ => by rw [prepared]; rfl, nofun⟩
  refine linked.stay ?_ ?_ rfl transport ?_
  · exact
      { ok with
        mail := fun mbId' batch' result' mail => by
          by_cases here : mbId' = mbId
          · rw [here, boxHere, some.injEq] at mail
            obtain ⟨rfl, rfl⟩ := mail
            rw [here]
            exact owner
          · rw [boxElse mbId' here] at mail
            exact ok.mail mbId' batch' result' mail
        poison := fun mbId' mail => by
          by_cases here : mbId' = mbId
          · rw [here, boxHere] at mail
            cases mail
          · rw [boxElse mbId' here] at mail
            exact ok.poison mbId' mail
        dead := nofun
        failed := fun failed => absurd (failed.symm.trans healthy) (by simp)
        prepared := nofun }
  · intro m registered
    have other : S.slot m ≠ mbId := by
      rintro rfl
      exact registered.notPrepared batch result prepared
    exact
      { registered with
        noMail := by rw [boxElse _ other]; exact registered.noMail
        notPrepared := nofun }
  · intro rank _ i batch' awaits planned
    by_cases here : S.slot i = mbId
    · rw [here, boxHere]
      exact .inl (by simp)
    · rw [boxElse _ here]
      obtain filled | ⟨result', prepared'⟩ | waiting :=
        linked.pending k rank healthy i batch' awaits planned
      · exact .inl filled
      · rw [prepared, Worker.prepared.injEq] at prepared'
        exact absurd prepared'.1.symm here
      · exact .inr (.inr waiting)

/-- A worker fails. -/
theorem Linked.fail (k : ℕ) : ∃ due', S.Linked
      (s.setStage k ((s.stage k).setRelay ((s.stage k).relay.poison S.loopSize))) due' := by
  have ok := linked.stages k
  refine ⟨Function.update due k ((due k).drop (s.stage k).relay.worker.got.length),
    linked.replace rfl ?_ (le_refl _) ?_ (fun _ _ _ _ le lt => absurd lt le.not_gt)
      (fun j => (linked.nodup j).sublist (update_sublist (drop_sublist _ _) j))
      (fun j m member => .inl ((update_sublist (drop_sublist _ _) j).subset member))
      (fun j ne => by rw [update_of_ne ne]; exact Subset.refl _) ?_ ?_ ?_ (fun _ => rfl)
      (fun _ => rfl) ?_⟩
  · exact
      { ok with
        poison := fun _ _ => rfl
        dead := fun _ _ => rfl
        failed := fun _ => ⟨_, rfl⟩
        prepared := nofun }
  · exact fun m _ registered => registered.work rfl rfl (by simp [Relay.poison])
  · intro j earlier
    obtain ⟨unsent, route, queued⟩ := linked.wires j earlier
    refine ⟨unsent, ?_, fun healthy => ?_⟩
    · by_cases same : j = k
      · subst same
        rw [setStage_self, update_self, map_drop, ← route,
          append_assoc (s.stage j).relay.worker.got, drop_left]
        rfl
      · rw [setStage_of_ne s same, update_of_ne same]
        exact route
    · by_cases isLast : S.lastRank = k
      · rw [isLast, setStage_self] at healthy
        cases healthy
      · rw [setStage_of_ne s isLast] at healthy ⊢
        exact queued healthy
  · intro healthy
    by_cases isLast : S.lastRank = k
    · rw [isLast, setStage_self] at healthy
      cases healthy
    · rw [setStage_of_ne s isLast] at healthy ⊢
      rw [update_of_ne isLast]
      exact linked.jobs healthy
  · intro job rest sending
    by_cases isLast : S.lastRank = k
    · rw [isLast, setStage_self] at sending
      cases sending
    · rw [setStage_of_ne s isLast] at sending
      exact linked.distinct job rest sending
  · intro _ healthy
    cases healthy

/-- A poisoned box. -/
theorem Linked.poisonBox {rest : List ℕ}
    (poisoning : (s.stage k).relay.worker = .poisoning (mbId :: rest)) :
    S.Linked (s.setStage k ((s.stage k).setRelay ((s.stage k).relay.poisonBox mbId rest))) due := by
  have ok := linked.stages k
  have failed := ok.dead _ poisoning
  obtain ⟨fatal, sendQueue, inflight⟩ :
      ((s.stage k).relay.poisonBox mbId rest).fatal = (s.stage k).relay.fatal ∧
      ((s.stage k).relay.poisonBox mbId rest).sendQueue = (s.stage k).relay.sendQueue ∧
      ((s.stage k).relay.poisonBox mbId rest).inflight = (s.stage k).relay.inflight := by
    cases box : (s.stage k).relay.mailbox mbId <;> simp [Relay.poisonBox, Relay.put, box]
  have results : ∀ other batch result,
      ((s.stage k).relay.poisonBox mbId rest).mailbox other = some (.result batch result) →
      (s.stage k).relay.mailbox other = some (.result batch result) := by
    intro other batch result mail
    cases box : (s.stage k).relay.mailbox mbId with
    | none =>
      by_cases here : other = mbId
      · simp [Relay.poisonBox, Relay.put, box, here] at mail
      · simpa [Relay.poisonBox, Relay.put, box, here] using mail
    | some item => simpa [Relay.poisonBox, Relay.put, box] using mail
  refine linked.stay ?_ ?_ rfl ⟨fatal, sendQueue, by rw [poisoning]; rfl,
    by rw [poisoning]; rfl, fun _ => by rw [poisoning]; rfl, nofun⟩ ?_
  · exact
      { ok with
        mail := fun mbId' batch result mail => ok.mail mbId' batch result (results _ _ _ mail)
        poison := fun _ _ => fatal.trans failed
        dead := fun _ _ => fatal.trans failed
        failed := fun _ => ⟨rest, rfl⟩
        prepared := nofun }
  · intro m registered
    exact
      { planned := by
          obtain ⟨batch, planned, relayed, entry⟩ := registered.planned
          exact ⟨batch, planned, relayed, fun earlier => by
            rw [← entry earlier, ← inflight]
            rfl⟩
        awaits := registered.awaits
        noMail := fun batch result mail => registered.noMail batch result (results _ _ _ mail)
        notPrepared := nofun }
  · intro _ healthy
    exact absurd ((fatal.trans failed).symm.trans healthy) (by simp)

end

/-! ## Whole runs -/

variable (S) in
/-- No locally fabricated result is posted on a stage whose worker has failed. -/
def PostsWhileHealthy (s : Relaying Batch Meta Out Res) (event : RelayEvent Batch Res) : Prop :=
  ∀ k, event = .post k ∨ event = .postBlocked k → (s.stage k).relay.fatal = false

/-- The start is linked. -/
theorem linked_initial : S.Linked Relaying.initial fun _ => [] where
  stages := fun k =>
    { ranLater := fun i after within => by
        change i < 0 + S.loopSize at within
        rw [previous, if_neg (by omega)]
        rfl
      ranNow := fun _ => by
        have positive := S.loopSize_pos
        change none = S.previous 0
        rw [previous, if_neg (by omega)]
      ranCleared := nofun
      joining := nofun
      mail := nofun
      poison := nofun
      dead := nofun
      failed := nofun
      prepared := nofun
      unblocked := nofun }
  nodup := fun _ => nodup_nil
  submitted := nofun
  registered := nofun
  early := fun _ _ _ _ _ _ _ launched => absurd launched (Nat.not_lt_zero _)
  ahead := fun _ _ _ _ _ _ passed => absurd passed (Nat.not_lt_zero _)
  wires := fun _ _ => ⟨[], rfl, fun _ => rfl⟩
  jobs := fun _ => .nil
  distinct := nofun
  sender := fun _ _ => rfl
  receiver := fun _ _ => rfl
  pending := fun k _ _ i batch awaits planned => by
    obtain ⟨-, within, -⟩ := awaits
    change i < 0 + S.loopSize at within
    rw [previous, if_neg (by omega)] at planned
    cases planned

section

include linked

/-- A healthy stage that launches finds the slot's mailbox empty. -/
theorem Linked.launch_box_empty
    (launching : (s.stage k).main = .launching) (healthy : (s.stage k).relay.fatal = false) :
    (s.stage k).relay.mailbox (S.slot (s.stage k).iter) = none := by
  have ok := linked.stages k
  cases mail : (s.stage k).relay.mailbox (S.slot (s.stage k).iter) with
  | none => rfl
  | some item =>
    cases item with
    | result batch result =>
      obtain ⟨i, awaits, slot, -⟩ := ok.mail _ batch result mail
      exact absurd slot (awaits.slot_ne (by rw [launching]; rfl))
    | poison =>
      have failed := ok.poison _ mail
      rw [healthy] at failed
      cases failed

/-- **Every step keeps the stages linked.** -/
theorem Linked.step (step : S.Step s event t)
    (healthy : PostsWhileHealthy s event) : ∃ due', S.Linked t due' := by
  cases step with
  | skipJoin at_top nothing => exact ⟨due, linked.skipJoin at_top nothing⟩
  | enterJoin at_top ran _ => exact ⟨due, linked.callJoin at_top ran (.inl rfl)⟩
  | refuseJoin at_top ran _ => exact ⟨due, linked.callJoin at_top ran (.inr rfl)⟩
  | joined joining mail => exact ⟨due, linked.joined joining mail⟩
  | @poisoned k joining mail =>
    refine ⟨due, linked.raise joining ((linked.stages k).poison _ mail) rfl rfl rfl rfl ?_⟩
    intro mbId
    by_cases here : mbId = S.slot (s.stage k).iter
    · rw [here]
      exact .inl (update_self ..)
    · exact .inr (update_of_ne here _ _)
  | waitAgain => exact ⟨due, linked⟩
  | timedOut joining _ failed =>
    exact ⟨due, linked.raise joining failed rfl rfl rfl rfl fun _ => .inr rfl⟩
  | launchNothing launching nothing => exact ⟨due, linked.launchNothing launching nothing⟩
  | post launching planned own posted => exact ⟨due, linked.post launching planned own posted⟩
  | @postBlocked k _ launching _ _ full =>
    have empty := linked.launch_box_empty launching (healthy k (.inr rfl))
    simp [Relay.postLocal, Relay.put, empty] at full
  | @postResumed k batch result _ blocked _ =>
    exact absurd blocked ((linked.stages k).unblocked batch result)
  | expect earlier launching planned relayed =>
    exact ⟨due, linked.expect earlier launching planned relayed⟩
  | submit launching planned relayed registered =>
    exact ⟨_, linked.submit launching planned relayed registered⟩
  | take idle head => exact ⟨due, linked.take idle head⟩
  | send sending => exact ⟨due, linked.send sending⟩
  | prepare sent => exact linked.prepare sent
  | receive earlier idle head => exact ⟨due, linked.receive earlier idle head⟩
  | pop received entry => exact linked.pop received entry
  | popUnregistered received missing =>
    obtain ⟨-, _, _, _, -, -, -, -, entry⟩ := linked.received received
    rw [missing] at entry
    cases entry
  | put prepared put => exact ⟨due, linked.put prepared put⟩
  | @fail k _ => exact linked.fail k
  | poisonBox poisoning => exact ⟨due, linked.poisonBox poisoning⟩

end

/-! ## A join is answered by the workers -/

variable (S) in
/-- Worker events that bring results to stage `k`. -/
def Serves (k : ℕ) : RelayEvent Batch Res → Prop
  | .take | .send _ | .prepare => True
  | .receive j | .pop j => j = k
  | .put j => j = k ∨ j = S.lastRank
  | _ => False

/-- The steps a worker still has to take for what it holds. -/
@[simp] def workerCost : Worker Batch Meta Out Res → ℕ
  | .idle | .poisoning _ => 0
  | .received _ _ => 2
  | .sending _ rest => 4 * rest.length + 2
  | .prepared _ _ _ => 1

variable (S) in
/-- The worker steps between the submitted outputs and stage `k`. -/
def backlog (k : ℕ) (s : Relaying Batch Meta Out Res) : ℕ :=
  (if k = S.lastRank then 0 else workerCost (s.stage k).relay.worker + 3 * (s.wire k).length) +
    workerCost (s.stage S.lastRank).relay.worker +
    (4 * S.lastRank + 3) * (s.stage S.lastRank).relay.sendQueue.length

/-- Serving a stage leaves every scheduler thread and failure flag alone. -/
theorem Step.serves_frame (step : S.Step s event t) (serves : S.Serves k event) (j : ℕ) :
    (t.stage j).main = (s.stage j).main ∧ (t.stage j).iter = (s.stage j).iter ∧
      (t.stage j).relay.fatal = (s.stage j).relay.fatal := by
  cases step with
  | take | send | prepare | receive | pop =>
    rw [setStage_stage]
    split
    next here => subst here; exact ⟨rfl, rfl, rfl⟩
    next => exact ⟨rfl, rfl, rfl⟩
  | put _ put =>
    obtain ⟨-, rfl⟩ := Relay.put_some put
    rw [setStage_stage]
    split
    next here => subst here; exact ⟨rfl, rfl, rfl⟩
    next => exact ⟨rfl, rfl, rfl⟩
  | _ => cases serves

/-- Serving a stage shortens its backlog. -/
theorem Step.serves_backlog (step : S.Step s event t) (serves : S.Serves k event)
    (rank : k ≤ S.lastRank) : S.backlog k t < S.backlog k s := by
  cases step with
  | take idle head =>
    simp only [backlog, setStage_stage, if_true, head, workerCost,
      Stage.setRelay, length_cons, length_range, Nat.mul_succ, setStage_wire]
    split <;> omega
  | @send job dst rest sending =>
    have wire : (if k = dst then s.wire dst ++ [(job.mbId, job.tensors)] else s.wire k).length ≤
        (s.wire k).length + 1 := by
      split
      next same => simp [same]
      next => omega
    simp only [backlog, setStage_stage, if_true, sending, workerCost, Stage.setRelay,
      Relay.setWorker, length_cons, setStage_wire, setWire_wire,
      setWire_stage]
    split <;> omega
  | prepare sent =>
    simp only [backlog, setStage_stage, if_true, sent, workerCost, Stage.setRelay,
      Relay.setWorker, setStage_wire]
    split <;> omega
  | receive earlier idle head =>
    obtain rfl := serves
    simp only [backlog, setStage_stage, if_true, head, workerCost,
      Stage.setRelay, Relay.setWorker, length_cons, setStage_wire,
      setWire_wire, setWire_stage, if_neg (ne_of_lt earlier),
      if_neg (ne_of_gt earlier)]
    omega
  | @pop j _ _ _ _ received registered =>
    obtain rfl := serves
    simp only [backlog, setStage_stage]
    by_cases isLast : j = S.lastRank
    · subst isLast
      simp [received]
    · simp [received, isLast, Ne.symm isLast]
  | @put j mbId batch result relay prepared put =>
    obtain ⟨-, rfl⟩ := Relay.put_some put
    simp only [backlog, setStage_stage]
    rcases serves with rfl | rfl
    · by_cases isLast : j = S.lastRank
      · subst isLast
        simp [prepared]
      · simp [prepared, isLast, Ne.symm isLast]
    · by_cases isLast : k = S.lastRank
      · subst isLast
        simp [prepared]
      · simp [prepared, isLast]
  | _ => cases serves

variable (lastHealthy : (s.stage S.lastRank).relay.fatal = false)

section

include linked

/-- A worker about to fill a mailbox can do so. -/
theorem Linked.put_step {result : Res}
    (prepared : (s.stage k).relay.worker = .prepared mbId batch result) :
    ∃ t, S.Step s (.put k) t := by
  obtain ⟨empty, -⟩ := (linked.stages k).prepared mbId batch result prepared
  exact ⟨_, .put prepared (by rw [Relay.put, empty])⟩

/-- The last stage's worker, with something to relay, can move on. -/
theorem Linked.last_step (k : ℕ) (healthy : (s.stage S.lastRank).relay.fatal = false)
    (work : (s.stage S.lastRank).relay.worker.inHand ++ (s.stage S.lastRank).relay.sendQueue ≠ []) :
    ∃ event t, S.Step s event t ∧ S.Serves k event := by
  cases worker : (s.stage S.lastRank).relay.worker with
  | idle =>
    rw [worker] at work
    obtain ⟨job, rest, queued⟩ := exists_cons_of_ne_nil work
    exact ⟨.take, _, .take worker queued, trivial⟩
  | received mbId tensors =>
    have none := linked.receiver S.lastRank (le_refl _)
    rw [worker] at none
    cases none
  | sending job rest =>
    cases rest with
    | nil => exact ⟨.prepare, _, .prepare worker, trivial⟩
    | cons dst rest => exact ⟨.send dst, _, .send worker, trivial⟩
  | prepared mbId batch result =>
    obtain ⟨t, put⟩ := linked.put_step worker
    exact ⟨.put S.lastRank, t, put, .inr rfl⟩
  | poisoning rest =>
    have failed := (linked.stages S.lastRank).dead rest worker
    rw [healthy] at failed
    cases failed

include rank lastHealthy in
/-- While a stage waits for an output the last stage has submitted, some worker on
the way can move on. -/
theorem Linked.serving_step (healthy : (s.stage k).relay.fatal = false)
    (joining : (s.stage k).main = .joining)
    (submitted : (s.stage k).iter - S.loopSize < (s.stage S.lastRank).iter)
    (empty : (s.stage k).relay.mailbox (S.slot (s.stage k).iter) = none) :
    ∃ event t, S.Step s event t ∧ S.Serves k event := by
  have positive := S.loopSize_pos
  have awaits : S.Awaits (s.stage k) (s.stage k).iter :=
    ⟨le_refl _, by omega, by rw [joining]; rintro ⟨⟩⟩
  obtain ⟨-, batch, planned⟩ := (linked.stages k).joining joining
  obtain filled | ⟨result, prepared⟩ | isDue | ⟨-, -, notYet⟩ :=
    linked.pending k rank healthy _ batch awaits planned
  · exact absurd empty filled
  · obtain ⟨t, put⟩ := linked.put_step prepared
    exact ⟨.put k, t, put, .inl rfl⟩
  · have nonempty : due k ≠ [] := ne_nil_of_mem isDue
    by_cases isLast : k = S.lastRank
    · subst isLast
      refine linked.last_step _ lastHealthy fun nothing => nonempty ?_
      have jobs := linked.jobs lastHealthy
      rw [nothing] at jobs
      exact forall₂_nil_right_iff.mp jobs
    · have earlier : k < S.lastRank := by omega
      obtain ⟨unsent, route, queued⟩ := linked.wires k earlier
      cases worker : (s.stage k).relay.worker with
      | idle =>
        cases wire : s.wire k with
        | nil =>
          refine linked.last_step _ lastHealthy fun nothing => nonempty ?_
          obtain ⟨hand, queue⟩ := append_eq_nil_iff.mp nothing
          have unsentNil : (s.stage S.lastRank).relay.worker.unsentTo k = [] := by
            cases lastWorker : (s.stage S.lastRank).relay.worker with
            | sending job rest =>
              rw [lastWorker] at hand
              cases hand
            | _ => rfl
          rw [worker, wire, queued lastHealthy, unsentNil, queue] at route
          exact map_eq_nil_iff.mp route.symm
        | cons message rest => exact ⟨.receive k, _, .receive earlier worker wire, rfl⟩
      | received mbId tensors =>
        obtain ⟨-, _, _, _, -, -, -, -, entry⟩ := linked.received worker
        exact ⟨.pop k, _, .pop worker entry, rfl⟩
      | sending job rest =>
        have none := linked.sender k isLast
        rw [worker] at none
        cases none
      | prepared mbId batch result =>
        obtain ⟨t, put⟩ := linked.put_step worker
        exact ⟨.put k, t, put, .inl rfl⟩
      | poisoning rest =>
        have failed := (linked.stages k).dead rest worker
        rw [healthy] at failed
        cases failed
  · exact absurd submitted (not_lt.mpr notYet)

end

/-- The same scheduler threads and failure flags. -/
def SameMains (s t : Relaying Batch Meta Out Res) : Prop :=
  ∀ j, (t.stage j).main = (s.stage j).main ∧ (t.stage j).iter = (s.stage j).iter ∧
    (t.stage j).relay.fatal = (s.stage j).relay.fatal

include linked rank lastHealthy in
/-- The workers alone bring an awaited result that has been submitted. -/
theorem Linked.exists_answer (healthy : (s.stage k).relay.fatal = false)
    (joining : (s.stage k).main = .joining)
    (submitted : (s.stage k).iter - S.loopSize < (s.stage S.lastRank).iter) :
    ∃ events later, Path S.Step s events later ∧ (∀ event ∈ events, S.Serves k event) ∧
      ∃ batch result t, S.Step later (.joined k (s.stage k).iter batch result) t := by
  have progress : ∀ t, (∃ due, S.Linked t due) ∧ SameMains s t →
      ¬(t.stage k).relay.mailbox (S.slot (s.stage k).iter) ≠ none →
      ∃ event after, S.Step t event after ∧ S.Serves k event ∧
        ((∃ due, S.Linked after due) ∧ SameMains s after) ∧
        S.backlog k after < S.backlog k t := by
    rintro t ⟨⟨due, linked⟩, frame⟩ waiting
    have frameK := frame k
    have frameLast := frame S.lastRank
    rw [not_not] at waiting
    obtain ⟨event, after, step, serves⟩ := linked.serving_step rank
      (by rw [frameLast.2.2]; exact lastHealthy) (by rw [frameK.2.2]; exact healthy)
      (by rw [frameK.1]; exact joining) (by rw [frameK.2.1, frameLast.2.1]; exact submitted)
      (by rw [frameK.2.1]; exact waiting)
    refine ⟨event, after, step, serves, ⟨?_, fun j => ?_⟩, step.serves_backlog serves rank⟩
    · refine linked.step step fun j posts => ?_
      rcases posts with rfl | rfl <;> cases serves
    · obtain ⟨main, iter, fatal⟩ := step.serves_frame serves j
      rw [main, iter, fatal]
      exact frame j
  obtain ⟨events, later, run, serving, ⟨⟨due', linked'⟩, frame⟩, filled⟩ :=
    Path.exists_of_measure _ _ (S.Serves k) (S.backlog k) progress
      ⟨⟨due, linked⟩, fun j => ⟨rfl, rfl, rfl⟩⟩
  obtain ⟨main, iter, fatal⟩ := frame k
  refine ⟨events, later, run, serving, ?_⟩
  rw [← iter] at filled ⊢
  cases mail : (later.stage k).relay.mailbox (S.slot (later.stage k).iter) with
  | none => exact absurd mail filled
  | some item =>
    cases item with
    | result batch result => exact ⟨batch, result, _, .joined (main.trans joining) mail⟩
    | poison =>
      have failed := (linked'.stages k).poison _ mail
      rw [fatal, healthy] at failed
      cases failed

/-! ## Main results -/

variable (S) in
/-- Steps in which no local result is posted after the stage's worker has failed. -/
def HealthyStep (s : Relaying Batch Meta Out Res) (event : RelayEvent Batch Res)
    (t : Relaying Batch Meta Out Res) : Prop :=
  S.Step s event t ∧ PostsWhileHealthy s event

/-- So does every run. -/
theorem linked_run (run : Path S.HealthyStep Relaying.initial events t) : ∃ due, S.Linked t due :=
  Path.invariant (fun s => ∃ due, S.Linked s due)
    (fun _ _ _ step linked => linked.elim fun _ linked => linked.step step.1 step.2) run
    ⟨_, linked_initial⟩

/-- The stages are linked at every event. -/
theorem linked_of_mem (run : Path S.HealthyStep Relaying.initial events t)
    (member : event ∈ events) : ∃ s t due, S.Linked s due ∧ S.HealthyStep s event t := by
  obtain ⟨before, after, rfl⟩ := append_of_mem member
  obtain ⟨middle, past, rest⟩ := run.append_inv
  obtain ⟨next, step, -⟩ := rest.cons_inv
  obtain ⟨due, linked⟩ := linked_run past
  exact ⟨middle, next, due, linked, step⟩

/-- A failure is never taken back. -/
theorem Step.fatal (step : S.Step s event t) (failed : (s.stage k).relay.fatal = true) :
    (t.stage k).relay.fatal = true := by
  cases step with
  | waitAgain => exact failed
  | post _ _ _ posted | postResumed _ posted | put _ posted =>
    obtain ⟨-, rfl⟩ := Relay.put_some posted
    rw [setStage_stage]
    split
    next here => subst here; exact failed
    next => exact failed
  | fail | popUnregistered =>
    rw [setStage_stage]
    split
    next => rfl
    next => exact failed
  | @poisonBox j mbId rest _ =>
    rw [setStage_stage]
    split
    next here =>
      subst here
      cases box : (s.stage k).relay.mailbox mbId <;>
        simpa [Relay.poisonBox, Relay.put, box] using failed
    next => exact failed
  | _ =>
    rw [setStage_stage]
    split
    next here => subst here; exact failed
    next => exact failed

/-- Two stages and two slots; the only batch is relayed. -/
def oneRelayed : Schedule ℕ Unit ℕ (ℕ × ℕ) where
  lastRank := 1
  loopSize := 2
  loopSize_pos := by decide
  plan := fun n => if n = 0 then some 5 else none
  route := fun _ => .relayed
  output := fun n => n + 40
  metadata := fun _ _ => ()
  prepResult := fun batch _ out => (batch, out)
  skipResult := fun batch _ => (batch, 0)

/-- A scheduler thread that waits in `post_local` on a full mailbox waits forever:
only that thread takes mail out. -/
theorem Step.blocked {result : Option Res} (step : S.Step s event t)
    (blocked : (s.stage k).main = .blocked batch result ∧
      (s.stage k).relay.mailbox (S.slot (s.stage k).iter) ≠ none) :
    (t.stage k).main = .blocked batch result ∧
      (t.stage k).relay.mailbox (S.slot (t.stage k).iter) ≠ none := by
  obtain ⟨main, full⟩ := blocked
  cases step with
  | waitAgain => exact ⟨main, full⟩
  | skipJoin at_top | enterJoin at_top | refuseJoin at_top | joined at_top | poisoned at_top
  | timedOut at_top | launchNothing at_top | post at_top | postBlocked at_top
  | expect _ at_top | submit at_top =>
    rw [setStage_stage]
    split
    next here =>
      subst here
      rw [main] at at_top
      cases at_top
    next => exact ⟨main, full⟩
  | postResumed _ posted =>
    rw [setStage_stage]
    split
    next here =>
      subst here
      exact absurd (Relay.put_some posted).1 full
    next => exact ⟨main, full⟩
  | @put j mbId _ _ _ _ posted =>
    obtain ⟨-, rfl⟩ := Relay.put_some posted
    rw [setStage_stage]
    split
    next here =>
      subst here
      refine ⟨main, ?_⟩
      simp only [Stage.setRelay, Relay.setWorker, update_apply]
      split
      · simp
      · exact full
    next => exact ⟨main, full⟩
  | @poisonBox j mbId rest _ =>
    rw [setStage_stage]
    split
    next here =>
      subst here
      refine ⟨main, ?_⟩
      cases box : (s.stage k).relay.mailbox mbId with
      | none =>
        simp only [Stage.setRelay, Relay.poisonBox, Relay.put, box, getD_some, update_apply]
        split
        · simp
        · exact full
      | some item => simpa [Relay.poisonBox, Relay.put, box] using full
    next => exact ⟨main, full⟩
  | _ =>
    rw [setStage_stage]
    split
    next here => subst here; exact ⟨main, full⟩
    next => exact ⟨main, full⟩

/-- Two stages and two slots; every batch is prebuilt. -/
def allPrebuilt : Schedule Unit Unit Unit Unit where
  lastRank := 1
  loopSize := 2
  loopSize_pos := by decide
  plan := fun _ => some ()
  route := fun _ => .prebuilt
  output := fun _ => ()
  metadata := fun _ _ => ()
  prepResult := fun _ _ _ => ()
  skipResult := fun _ _ => ()

end Schedule

end AvaServe.Pipeline
