import AvaServe.Pipeline.OutputRelay

/-!
# Results come back to their batches

The invariant of the output relay: which slots a stage still waits for, where the
output of every relayed batch is, and that mailboxes hold only results of the batch
the slot's next join expects. It is kept by every step in which no locally
fabricated result is posted after the stage's worker has failed.
-/

namespace AvaServe.Pipeline

open Foundation List Relaying Option
open Function (update_self update_of_ne update_apply)

variable {Batch Meta Out Res : Type*}

/-- Past the join of the iteration, before its end. -/
def Main.settled : Main Batch Res → Bool
  | .launching | .blocked _ _ => true
  | _ => false

namespace Worker

/-- The message a worker has received. -/
def got : Worker Batch Meta Out Res → List (ℕ × Out)
  | .received mbId tensors => [(mbId, tensors)]
  | _ => []

/-- The job a worker has in hand. -/
def inHand : Worker Batch Meta Out Res → List (SendJob Batch Meta Out)
  | .sending job _ => [job]
  | _ => []

/-- The job that a worker has still to send to a stage. -/
def unsentTo (k : ℕ) : Worker Batch Meta Out Res → List (SendJob Batch Meta Out)
  | .sending job rest => if k ∈ rest then [job] else []
  | _ => []

end Worker

/-- The message of a job. -/
def SendJob.message (job : SendJob Batch Meta Out) : ℕ × Out := (job.mbId, job.tensors)

variable {i : ℕ}

namespace Schedule

variable (S : Schedule Batch Meta Out Res)

/-- The batch launched in the slot one round before an iteration. -/
def previous (iter : ℕ) : Option Batch :=
  if S.loopSize ≤ iter then S.plan (iter - S.loopSize) else none

/-- The result that belongs to the batch of an iteration on a stage. -/
def expected (k iter : ℕ) (batch : Batch) : Option Res :=
  match S.route batch with
  | .relayed => some (S.prepResult batch (S.metadata k iter) (S.output iter))
  | _ => S.localResult k iter batch

/-- The iterations of the next round whose joins a stage has not finished. -/
def Awaits (stage : Stage Batch Meta Out Res) (i : ℕ) : Prop :=
  stage.iter ≤ i ∧ i < stage.iter + S.loopSize ∧ (stage.main.settled → i ≠ stage.iter)

/-- Within a loop, slots are distinct. -/
theorem slot_inj {low j : ℕ} (iLow : low ≤ i) (iHigh : i < low + S.loopSize) (jLow : low ≤ j)
    (jHigh : j < low + S.loopSize) (same : S.slot i = S.slot j) : i = j := by
  have congruent : i ≡ j [MOD S.loopSize] := same
  rcases le_total i j with le | le
  · have divides := (Nat.modEq_iff_dvd' le).mp congruent
    have := Nat.eq_zero_of_dvd_of_lt divides (by omega)
    omega
  · have divides := (Nat.modEq_iff_dvd' le).mp congruent.symm
    have := Nat.eq_zero_of_dvd_of_lt divides (by omega)
    omega

/-- A slot comes back after a loop. -/
theorem slot_add (i : ℕ) : S.slot (i + S.loopSize) = S.slot i := Nat.add_mod_right i S.loopSize

/-- So does its batch. -/
theorem previous_add (i : ℕ) : S.previous (i + S.loopSize) = S.plan i := by
  rw [previous, if_pos (Nat.le_add_left _ _), Nat.add_sub_cancel]

variable {S} {stage : Stage Batch Meta Out Res}

/-- Two awaited iterations have two slots. -/
theorem Awaits.eq_of_slot {j : ℕ} (left : S.Awaits stage i) (right : S.Awaits stage j)
    (same : S.slot i = S.slot j) : i = j :=
  S.slot_inj left.1 left.2.1 right.1 right.2.1 same

/-- A stage past its join waits for nothing in the slot. -/
theorem Awaits.slot_ne (awaits : S.Awaits stage i) (settled : stage.main.settled) :
    S.slot i ≠ S.slot stage.iter := by
  intro same
  have positive := S.loopSize_pos
  exact awaits.2.2 settled
    (S.slot_inj awaits.1 awaits.2.1 (le_refl _) (by omega) same)

/-- Awaiting reads the iteration and the thread's place. -/
theorem awaits_congr {other : Stage Batch Meta Out Res} (iter : other.iter = stage.iter)
    (settled : other.main.settled = stage.main.settled) : S.Awaits other i ↔ S.Awaits stage i := by
  rw [Awaits, Awaits, iter, settled]

variable (S)

/-- The slots of a loop differ from the current one. -/
theorem slot_ne {iter : ℕ} (after : iter < i) (within : i < iter + S.loopSize) :
    S.slot i ≠ S.slot iter := by
  intro same
  have := S.slot_inj (le_of_lt after) within (le_refl _) (by omega) same
  omega

/-- One stage between two steps. -/
structure StageOk (k : ℕ) (stage : Stage Batch Meta Out Res) : Prop where
  ranLater : ∀ i, stage.iter < i → i < stage.iter + S.loopSize → stage.ran (S.slot i) = S.previous i
  ranNow : stage.main = .top → stage.ran (S.slot stage.iter) = S.previous stage.iter
  ranCleared : stage.main = .launching → stage.ran (S.slot stage.iter) = none
  joining : stage.main = .joining →
    stage.ran (S.slot stage.iter) = none ∧ ∃ batch, S.previous stage.iter = some batch
  mail : ∀ mbId batch result, stage.relay.mailbox mbId = some (.result batch result) →
    ∃ i, S.Awaits stage i ∧ S.slot i = mbId ∧ S.previous i = some batch ∧
      result = S.expected k (i - S.loopSize) batch
  poison : ∀ mbId, stage.relay.mailbox mbId = some .poison → stage.relay.fatal = true
  dead : ∀ rest, stage.relay.worker = .poisoning rest → stage.relay.fatal = true
  failed : stage.relay.fatal = true → ∃ rest, stage.relay.worker = .poisoning rest
  prepared : ∀ mbId batch result, stage.relay.worker = .prepared mbId batch result →
    stage.relay.mailbox mbId = none ∧
    ∃ i, S.Awaits stage i ∧ S.slot i = mbId ∧ S.previous i = some batch ∧
      some result = S.expected k (i - S.loopSize) batch
  unblocked : ∀ batch result, stage.main ≠ .blocked batch result

/-- The output of iteration `m` is still to reach the stage: its batch is relayed
and was launched there, its registration stands, and its slot is empty. -/
structure Registered (k : ℕ) (stage : Stage Batch Meta Out Res) (m : ℕ) : Prop where
  planned : ∃ batch, S.plan m = some batch ∧ S.route batch = .relayed ∧
    (k < S.lastRank → stage.relay.inflight (S.slot m) = some (batch, S.metadata k m))
  awaits : S.Awaits stage (m + S.loopSize)
  noMail : ∀ batch result, stage.relay.mailbox (S.slot m) ≠ some (.result batch result)
  notPrepared : ∀ batch result, stage.relay.worker ≠ .prepared (S.slot m) batch result

/-- The message the last stage sends for the output of an iteration. -/
def message (m : ℕ) : ℕ × Out := (S.slot m, S.output m)

/-- The job the last stage's scheduler submits for an iteration. -/
def IsJob (m : ℕ) (job : SendJob Batch Meta Out) : Prop :=
  job.mbId = S.slot m ∧ job.tensors = S.output m ∧ S.plan m = some job.batch ∧
    job.metadata = S.metadata S.lastRank m

/-- The whole relay, with the iterations whose outputs are still to reach each
stage in the order in which they will. -/
structure Linked (s : Relaying Batch Meta Out Res) (due : ℕ → List ℕ) : Prop where
  stages : ∀ k, S.StageOk k (s.stage k)
  nodup : ∀ k, (due k).Nodup
  submitted : ∀ k, ∀ m ∈ due k, m < (s.stage S.lastRank).iter
  registered : ∀ k, k ≤ S.lastRank → ∀ m ∈ due k, S.Registered k (s.stage k) m
  early : ∀ k, k < S.lastRank → ∀ m batch, S.plan m = some batch → S.route batch = .relayed →
    (s.stage S.lastRank).iter ≤ m → m < (s.stage k).iter → S.Registered k (s.stage k) m
  ahead : ∀ k, k < S.lastRank → ∀ m batch, S.plan m = some batch → S.route batch = .relayed →
    m < (s.stage S.lastRank).iter → m < (s.stage k).iter
  wires : ∀ k, k < S.lastRank → ∃ unsent,
    (s.stage k).relay.worker.got ++ s.wire k ++ unsent = (due k).map S.message ∧
    ((s.stage S.lastRank).relay.fatal = false →
      unsent = ((s.stage S.lastRank).relay.worker.unsentTo k ++
        (s.stage S.lastRank).relay.sendQueue).map SendJob.message)
  jobs : (s.stage S.lastRank).relay.fatal = false → Forall₂ S.IsJob (due S.lastRank)
      ((s.stage S.lastRank).relay.worker.inHand ++ (s.stage S.lastRank).relay.sendQueue)
  distinct : ∀ job rest, (s.stage S.lastRank).relay.worker = .sending job rest → rest.Nodup
  sender : ∀ k, k ≠ S.lastRank → (s.stage k).relay.worker.inHand = []
  receiver : ∀ k, S.lastRank ≤ k → (s.stage k).relay.worker.got = []
  pending : ∀ k, k ≤ S.lastRank → (s.stage k).relay.fatal = false → ∀ i batch,
    S.Awaits (s.stage k) i → S.previous i = some batch →
    (s.stage k).relay.mailbox (S.slot i) ≠ none ∨
    (∃ result, (s.stage k).relay.worker = .prepared (S.slot i) batch result) ∨
    i - S.loopSize ∈ due k ∨
    (k < S.lastRank ∧ S.route batch = .relayed ∧ (s.stage S.lastRank).iter ≤ i - S.loopSize)

end Schedule

section

variable (s : Relaying Batch Meta Out Res)
include s

variable (k : ℕ)

/-- The stages after one was replaced. -/
theorem Relaying.setStage_stage (j : ℕ) (stage : Stage Batch Meta Out Res) :
    (s.setStage k stage).stage j = if j = k then stage else s.stage j :=
  update_apply ..

variable (stage : Stage Batch Meta Out Res)

/-- The stage that was replaced. -/
@[simp] theorem Relaying.setStage_self : (s.setStage k stage).stage k = stage :=
  update_self ..

/-- The others. -/
theorem Relaying.setStage_of_ne {k j : ℕ} (ne : j ≠ k)
    (stage : Stage Batch Meta Out Res) : (s.setStage k stage).stage j = s.stage j :=
  update_of_ne ne _ _

/-- The wires stay. -/
@[simp] theorem Relaying.setStage_wire : (s.setStage k stage).wire = s.wire := rfl

/-- The stages stay. -/
@[simp] theorem Relaying.setWire_stage (messages : List (ℕ × Out)) :
    (s.setWire k messages).stage = s.stage := rfl

/-- The wires after one was replaced. -/
theorem Relaying.setWire_wire (j : ℕ) (messages : List (ℕ × Out)) :
    (s.setWire k messages).wire j = if j = k then messages else s.wire j :=
  update_apply ..

end

/-- Two relays with the same messages in the worker's hands and queue. -/
structure SameTransport (old new : Relay Batch Meta Out Res) : Prop where
  fatal : new.fatal = old.fatal
  sendQueue : new.sendQueue = old.sendQueue
  got : new.worker.got = old.worker.got
  inHand : new.worker.inHand = old.worker.inHand
  unsentTo : ∀ k, new.worker.unsentTo k = old.worker.unsentTo k
  sending : ∀ job rest, new.worker = .sending job rest → old.worker = .sending job rest

/-- The same worker and queue, the same transport. -/
theorem SameTransport.of_worker {old new : Relay Batch Meta Out Res}
    (fatal : new.fatal = old.fatal) (sendQueue : new.sendQueue = old.sendQueue)
    (worker : new.worker = old.worker) : SameTransport old new :=
  ⟨fatal, sendQueue, by rw [worker], by rw [worker], fun _ => by rw [worker],
    fun _ _ sending => by rw [← worker, sending]⟩

namespace Schedule

variable {S : Schedule Batch Meta Out Res}

variable {s t : Relaying Batch Meta Out Res} {due due' : ℕ → List ℕ} {k : ℕ} {batch : Batch}
  {stage : Stage Batch Meta Out Res}

/-- The batch of the loop before. -/
theorem previous_eq_some : S.previous i = some batch ↔
    S.loopSize ≤ i ∧ S.plan (i - S.loopSize) = some batch := by
  rw [previous]
  split <;> simp_all

variable (S k stage) in
/-- Where the awaited results of a healthy stage are, with the iterations that are due there and
those that the last stage has passed. -/
abbrev Answers (dues : List ℕ) (last : ℕ) : Prop :=
  k ≤ S.lastRank → stage.relay.fatal = false → ∀ i batch, S.Awaits stage i →
    S.previous i = some batch →
    stage.relay.mailbox (S.slot i) ≠ none ∨
    (∃ result, stage.relay.worker = .prepared (S.slot i) batch result) ∨
    i - S.loopSize ∈ dues ∨
    (k < S.lastRank ∧ S.route batch = .relayed ∧ last ≤ i - S.loopSize)

variable (S t due) in
/-- The messages under way to the earlier stages are those of the due iterations. -/
abbrev Wired : Prop :=
  ∀ j, j < S.lastRank → ∃ unsent,
    (t.stage j).relay.worker.got ++ t.wire j ++ unsent = (due j).map S.message ∧
    ((t.stage S.lastRank).relay.fatal = false →
      unsent = ((t.stage S.lastRank).relay.worker.unsentTo j ++
        (t.stage S.lastRank).relay.sendQueue).map SendJob.message)

variable (S t due) in
/-- The last stage's jobs are those of its due iterations. -/
abbrev Queued : Prop :=
  (t.stage S.lastRank).relay.fatal = false → Forall₂ S.IsJob (due S.lastRank)
    ((t.stage S.lastRank).relay.worker.inHand ++ (t.stage S.lastRank).relay.sendQueue)

variable (linked : S.Linked s due)

include linked in
/-- Replacing one stage. Iterations may stop being due there, and those that the last stage
launches in the step become due on every stage. -/
theorem Linked.replace (stages : t.stage = Function.update s.stage k stage) (ok : S.StageOk k stage)
    (later : (s.stage k).iter ≤ stage.iter)
    (keeps : ∀ m, m ∈ due' k ∨ (s.stage S.lastRank).iter ≤ m → S.Registered k (s.stage k) m →
      S.Registered k stage m)
    (launched : ∀ m batch, S.plan m = some batch → S.route batch = .relayed →
      (s.stage k).iter ≤ m → m < stage.iter → S.Registered k stage m ∧
        (k = S.lastRank → ∀ j < S.lastRank, m < (s.stage j).iter ∧ m ∈ due' j))
    (nodup : ∀ j, (due' j).Nodup)
    (dues : ∀ j, ∀ m ∈ due' j, m ∈ due j ∨ k = S.lastRank ∧ (s.stage k).iter ≤ m ∧ m < stage.iter ∧
      ∃ batch, S.plan m = some batch ∧ S.route batch = .relayed)
    (still : ∀ j, j ≠ k → due j ⊆ due' j) (wires : S.Wired t due') (jobs : S.Queued t due')
    (distinct : ∀ job rest, (t.stage S.lastRank).relay.worker = .sending job rest → rest.Nodup)
    (sender : k ≠ S.lastRank → stage.relay.worker.inHand = [])
    (receiver : S.lastRank ≤ k → stage.relay.worker.got = [])
    (pending : S.Answers k stage (due' k) (s.stage S.lastRank).iter) : S.Linked t due' := by
  have here : t.stage k = stage := by rw [stages, update_self]
  have elsewhere {j : ℕ} (ne : j ≠ k) : t.stage j = s.stage j := by rw [stages, update_of_ne ne]
  have iterLe (j : ℕ) : (s.stage j).iter ≤ (t.stage j).iter := by
    by_cases at_k : j = k
    · rw [at_k, here]
      exact later
    · rw [elsewhere at_k]
  have passes {m : ℕ} (notYet : (s.stage S.lastRank).iter ≤ m)
      (passed : m < (t.stage S.lastRank).iter) :
      k = S.lastRank ∧ (s.stage k).iter ≤ m ∧ m < stage.iter := by
    by_cases isLast : S.lastRank = k
    · rw [isLast] at notYet passed
      rw [here] at passed
      exact ⟨isLast.symm, notYet, passed⟩
    · rw [elsewhere isLast] at passed
      omega
  constructor
  case stages =>
    intro j
    by_cases at_k : j = k
    · rw [at_k, here]
      exact ok
    · rw [elsewhere at_k]
      exact linked.stages j
  case nodup => exact nodup
  case submitted =>
    intro j m member
    obtain old | ⟨isLast, -, passed, -⟩ := dues j m member
    · exact lt_of_lt_of_le (linked.submitted j m old) (iterLe S.lastRank)
    · rwa [← isLast, here]
  case registered =>
    intro j rank m member
    obtain old | ⟨isLast, notYet, passed, batch, planned, relayed⟩ := dues j m member
    · have before := linked.registered j rank m old
      by_cases at_k : j = k
      · subst at_k
        rw [here]
        exact keeps m (.inl member) before
      · rwa [elsewhere at_k]
    · obtain ⟨registered, others⟩ := launched m batch planned relayed notYet passed
      by_cases at_k : j = k
      · rwa [at_k, here]
      · have earlier : j < S.lastRank := by omega
        rw [elsewhere at_k]
        exact linked.early j earlier m batch planned relayed (isLast ▸ notYet)
          (others isLast j earlier).1
  case early =>
    intro j earlier m batch planned relayed notYet passed
    have before := le_trans (iterLe S.lastRank) notYet
    by_cases at_k : j = k
    · subst at_k
      rw [here] at passed ⊢
      by_cases old : m < (s.stage j).iter
      · exact keeps m (.inr before) (linked.early j earlier m batch planned relayed before old)
      · exact (launched m batch planned relayed (Nat.le_of_not_lt old) passed).1
    · rw [elsewhere at_k] at passed ⊢
      exact linked.early j earlier m batch planned relayed before passed
  case ahead =>
    intro j earlier m batch planned relayed passed
    refine lt_of_lt_of_le ?_ (iterLe j)
    by_cases before : m < (s.stage S.lastRank).iter
    · exact linked.ahead j earlier m batch planned relayed before
    · obtain ⟨isLast, notYet, now⟩ := passes (Nat.le_of_not_lt before) passed
      exact ((launched m batch planned relayed notYet now).2 isLast j earlier).1
  case wires => exact wires
  case jobs => exact jobs
  case distinct => exact distinct
  case sender =>
    intro j notLast
    by_cases at_k : j = k
    · rw [at_k, here]
      exact sender (at_k ▸ notLast)
    · rw [elsewhere at_k]
      exact linked.sender j notLast
  case receiver =>
    intro j notEarlier
    by_cases at_k : j = k
    · rw [at_k, here]
      exact receiver (at_k ▸ notEarlier)
    · rw [elsewhere at_k]
      exact linked.receiver j notEarlier
  case pending =>
    intro j rank healthy i batch awaits planned
    by_cases at_k : j = k
    · subst at_k
      rw [here] at healthy awaits ⊢
      obtain filled | prepared | isDue | ⟨earlier, relayed, notYet⟩ :=
        pending rank healthy i batch awaits planned
      · exact .inl filled
      · exact .inr (.inl prepared)
      · exact .inr (.inr (.inl isDue))
      · refine .inr (.inr (.inr ⟨earlier, relayed, ?_⟩))
        rwa [elsewhere (ne_of_gt earlier)]
    · rw [elsewhere at_k] at healthy awaits ⊢
      obtain filled | prepared | isDue | ⟨earlier, relayed, notYet⟩ :=
        linked.pending j rank healthy i batch awaits planned
      · exact .inl filled
      · exact .inr (.inl prepared)
      · exact .inr (.inr (.inl (still j at_k isDue)))
      · by_cases passed : i - S.loopSize < (t.stage S.lastRank).iter
        · obtain ⟨isLast, before, now⟩ := passes notYet passed
          have window := (previous_eq_some.mp planned).2
          exact .inr (.inr (.inl
            ((launched _ batch window relayed before now).2 isLast j earlier).2))
        · exact .inr (.inr (.inr ⟨earlier, relayed, Nat.le_of_not_lt passed⟩))

include linked in
/-- Replacing one stage, with no message moving. -/
theorem Linked.update (ok : S.StageOk k stage)
    (keeps : ∀ m, S.Registered k (s.stage k) m → S.Registered k stage m)
    (later : (s.stage k).iter ≤ stage.iter)
    (launched : ∀ m batch, S.plan m = some batch → S.route batch = .relayed →
      (s.stage k).iter ≤ m → m < stage.iter → k < S.lastRank ∧ S.Registered k stage m)
    (transport : SameTransport (s.stage k).relay stage.relay)
    (pending : S.Answers k stage (due k) (s.stage S.lastRank).iter) :
    S.Linked (s.setStage k stage) due := by
  have same (j : ℕ) : SameTransport (s.stage j).relay ((s.setStage k stage).stage j).relay := by
    rw [setStage_stage]
    split
    next here => rw [here]; exact transport
    next => exact .of_worker rfl rfl rfl
  refine linked.replace rfl ok later (fun m _ => keeps m) ?_ linked.nodup (fun _ _ => .inl)
    (fun _ _ _ => id) ?_ ?_ ?_ ?_ ?_ pending
  · intro m batch planned relayed notBefore before
    obtain ⟨earlier, registered⟩ := launched m batch planned relayed notBefore before
    exact ⟨registered, fun isLast => absurd isLast (ne_of_lt earlier)⟩
  · intro j earlier
    obtain ⟨unsent, route, atLast⟩ := linked.wires j earlier
    refine ⟨unsent, by rw [(same j).got]; exact route, fun healthy => ?_⟩
    rw [(same S.lastRank).fatal] at healthy
    rw [atLast healthy, (same S.lastRank).unsentTo, (same S.lastRank).sendQueue]
  · intro healthy
    rw [(same S.lastRank).fatal] at healthy
    rw [(same S.lastRank).inHand, (same S.lastRank).sendQueue]
    exact linked.jobs healthy
  · intro job rest sending
    exact linked.distinct job rest ((same S.lastRank).sending job rest sending)
  · intro notLast
    rw [transport.inHand]
    exact linked.sender k notLast
  · intro notEarlier
    rw [transport.got]
    exact linked.receiver k notEarlier

include linked in
/-- Replacing one stage within its iteration, with no message moving. -/
theorem Linked.stay (ok : S.StageOk k stage)
    (keeps : ∀ m, S.Registered k (s.stage k) m → S.Registered k stage m)
    (iter : stage.iter = (s.stage k).iter) (transport : SameTransport (s.stage k).relay stage.relay)
    (pending : S.Answers k stage (due k) (s.stage S.lastRank).iter) :
    S.Linked (s.setStage k stage) due := by
  refine linked.update ok keeps iter.ge ?_ transport pending
  omega

/-! ## The scheduler thread -/

/-- A planned batch is the previous one a loop later. -/
theorem Awaits.previous_of_plan {m : ℕ} (planned : S.plan m = some batch) :
    S.previous (m + S.loopSize) = some batch := by
  rw [previous_add, planned]

include linked in
/-- A join that is skipped had nothing to wait for. -/
theorem Linked.skipJoin (at_top : (s.stage k).main = .top)
    (nothing : (s.stage k).ran (S.slot (s.stage k).iter) = none) :
    S.Linked (s.setStage k { s.stage k with main := .launching }) due := by
  have ok := linked.stages k
  have noPrevious : S.previous (s.stage k).iter = none := by rw [← ok.ranNow at_top, nothing]
  have stillAwaits : ∀ i batch, S.Awaits (s.stage k) i → S.previous i = some batch →
      S.Awaits { s.stage k with main := .launching } i := by
    intro i batch awaits planned
    refine ⟨awaits.1, awaits.2.1, fun _ same => ?_⟩
    rw [same, noPrevious] at planned
    cases planned
  have unsettle : ∀ i, S.Awaits { s.stage k with main := .launching } i →
      S.Awaits (s.stage k) i := fun i awaits =>
    ⟨awaits.1, awaits.2.1, by rw [at_top]; rintro ⟨⟩⟩
  refine linked.stay ?_ ?_ rfl (.of_worker rfl rfl rfl) ?_
  · exact
      { ok with
        ranNow := nofun
        ranCleared := fun _ => nothing
        joining := nofun
        mail := fun mbId batch result mail => by
          obtain ⟨i, awaits, slot, planned, eq⟩ := ok.mail mbId batch result mail
          exact ⟨i, stillAwaits i batch awaits planned, slot, planned, eq⟩
        prepared := fun mbId batch result prepared => by
          obtain ⟨empty, i, awaits, slot, planned, eq⟩ := ok.prepared mbId batch result prepared
          exact ⟨empty, i, stillAwaits i batch awaits planned, slot, planned, eq⟩
        unblocked := nofun }
  · intro m registered
    obtain ⟨batch, planned, -⟩ := registered.planned
    exact { registered with
      awaits := stillAwaits _ batch registered.awaits (Awaits.previous_of_plan planned) }
  · intro rank healthy i batch awaits planned
    exact linked.pending k rank healthy i batch (unsettle i awaits) planned

include linked in
/-- Clearing the slot's entry of `_pp_ran_mbs` and entering `join` or raising in it. -/
theorem Linked.callJoin (at_top : (s.stage k).main = .top)
    (ran : (s.stage k).ran (S.slot (s.stage k).iter) = some batch) {main : Main Batch Res}
    (called : main = .joining ∨ main = .raised) : S.Linked
      (s.setStage k { s.stage k with
        ran := Function.update (s.stage k).ran (S.slot (s.stage k).iter) none
        main := main }) due := by
  have ok := linked.stages k
  have unsettled : main.settled = false := by rcases called with rfl | rfl <;> rfl
  have sameAwaits (i : ℕ) : S.Awaits { s.stage k with
      ran := Function.update (s.stage k).ran (S.slot (s.stage k).iter) none
      main := main } i ↔ S.Awaits (s.stage k) i :=
    awaits_congr (by rfl) (by rw [at_top]; exact unsettled)
  refine linked.stay ?_ ?_ rfl (.of_worker rfl rfl rfl) ?_
  · exact
      { ok with
        ranLater := fun i after within => by
          rw [← ok.ranLater i after within]
          exact update_of_ne (S.slot_ne after within) _ _
        ranNow := by rintro rfl; simp at called
        ranCleared := by rintro rfl; simp at called
        joining := fun _ => ⟨update_self .., batch, by rw [← ok.ranNow at_top, ran]⟩
        mail := by simpa only [sameAwaits] using ok.mail
        prepared := by simpa only [sameAwaits] using ok.prepared
        unblocked := by rintro _ _ rfl; simp at called }
  · intro m registered
    exact { registered with awaits := (sameAwaits _).mpr registered.awaits }
  · intro rank healthy i batch awaits planned
    exact linked.pending k rank healthy i batch ((sameAwaits i).mp awaits) planned

variable (joining : (s.stage k).main = .joining)

include linked joining in
/-- `join` raises after a failure, with or without taking the poison. -/
theorem Linked.raise (failed : (s.stage k).relay.fatal = true) {relay : Relay Batch Meta Out Res}
    (fatal : relay.fatal = (s.stage k).relay.fatal)
    (sendQueue : relay.sendQueue = (s.stage k).relay.sendQueue)
    (inflight : relay.inflight = (s.stage k).relay.inflight)
    (worker : relay.worker = (s.stage k).relay.worker)
    (boxes : ∀ mbId, relay.mailbox mbId = none ∨
      relay.mailbox mbId = (s.stage k).relay.mailbox mbId) :
    S.Linked (s.setStage k { s.stage k with relay := relay, main := .raised }) due := by
  have ok := linked.stages k
  have sameAwaits (i : ℕ) : S.Awaits { s.stage k with relay := relay, main := .raised } i ↔
      S.Awaits (s.stage k) i := awaits_congr (by rfl) (by rw [joining]; rfl)
  have held : ∀ mbId mail, relay.mailbox mbId = some mail →
      (s.stage k).relay.mailbox mbId = some mail := by
    intro mbId mail present
    rcases boxes mbId with empty | same
    · rw [empty] at present
      cases present
    · rw [← same, present]
  refine linked.stay ?_ ?_ rfl (.of_worker fatal sendQueue worker) ?_
  · exact
      { ok with
        ranNow := nofun
        ranCleared := nofun
        joining := nofun
        mail := fun mbId batch result mail => by
          simpa only [sameAwaits] using ok.mail mbId batch result (held mbId _ mail)
        poison := fun mbId mail => fatal.trans (ok.poison mbId (held mbId _ mail))
        dead := by rw [worker, fatal]; exact ok.dead
        failed := by rw [worker, fatal]; exact ok.failed
        prepared := fun mbId batch result prepared => by
          rw [worker] at prepared
          obtain ⟨empty, owner⟩ := ok.prepared mbId batch result prepared
          refine ⟨?_, by simpa only [sameAwaits] using owner⟩
          rcases boxes mbId with gone | same
          · exact gone
          · rw [same, empty]
        unblocked := nofun }
  · intro m registered
    exact
      { planned := by rw [inflight]; exact registered.planned
        awaits := (sameAwaits _).mpr registered.awaits
        noMail := fun batch result mail => registered.noMail batch result (held _ _ mail)
        notPrepared := by rw [worker]; exact registered.notPrepared }
  · intro _ healthy
    rw [fatal, failed] at healthy
    cases healthy

include linked joining in
/-- `join` returns the slot's result. -/
theorem Linked.joined {result : Option Res}
    (mail : (s.stage k).relay.mailbox (S.slot (s.stage k).iter) = some (.result batch result)) :
    S.Linked
      (s.setStage k { s.stage k with
        relay := (s.stage k).relay.emptyBox (S.slot (s.stage k).iter)
        main := .launching }) due := by
  have ok := linked.stages k
  set stage : Stage Batch Meta Out Res := { s.stage k with
    relay := (s.stage k).relay.emptyBox (S.slot (s.stage k).iter)
    main := .launching } with isStage
  have otherBox : ∀ mbId, mbId ≠ S.slot (s.stage k).iter →
      stage.relay.mailbox mbId = (s.stage k).relay.mailbox mbId := fun mbId other =>
    update_of_ne other _ _
  have kept {mbId : ℕ} {item : Mail Batch Res} (held : stage.relay.mailbox mbId = some item) :
      mbId ≠ S.slot (s.stage k).iter ∧ (s.stage k).relay.mailbox mbId = some item := by
    have other : mbId ≠ S.slot (s.stage k).iter := by
      rintro rfl
      cases held.symm.trans (update_self ..)
    exact ⟨other, (otherBox mbId other).symm.trans held⟩
  have stillAwaits : ∀ i, S.Awaits (s.stage k) i → S.slot i ≠ S.slot (s.stage k).iter →
      S.Awaits stage i := fun i awaits other =>
    ⟨awaits.1, awaits.2.1, fun _ same => other (by rw [same])⟩
  refine linked.stay ?_ ?_ rfl (.of_worker rfl rfl rfl) ?_
  · exact
      { ok with
        ranNow := nofun
        ranCleared := fun _ => (ok.joining joining).1
        joining := nofun
        mail := fun mbId batch' result' mail' => by
          obtain ⟨other, held⟩ := kept mail'
          obtain ⟨i, awaits, rfl, planned, eq⟩ := ok.mail mbId batch' result' held
          exact ⟨i, stillAwaits i awaits other, rfl, planned, eq⟩
        poison := fun mbId mail' => ok.poison mbId (kept mail').2
        prepared := fun mbId batch' result' prepared => by
          obtain ⟨empty, i, awaits, rfl, planned, eq⟩ := ok.prepared mbId batch' result' prepared
          have other : S.slot i ≠ S.slot (s.stage k).iter := by
            intro same
            rw [same, mail] at empty
            cases empty
          exact ⟨by rw [otherBox _ other, empty], i, stillAwaits i awaits other, rfl, planned, eq⟩
        unblocked := nofun }
  · intro m registered
    have other : S.slot m ≠ S.slot (s.stage k).iter := by
      intro same
      exact registered.noMail batch result (by rw [same, mail])
    exact
      { registered with
        awaits := stillAwaits _ registered.awaits (by rw [slot_add]; exact other)
        noMail := by rw [otherBox _ other]; exact registered.noMail }
  · intro rank healthy i batch' awaits planned
    have other : S.slot i ≠ S.slot (s.stage k).iter := awaits.slot_ne rfl
    rw [otherBox _ other]
    exact linked.pending k rank healthy i batch'
      ⟨awaits.1, awaits.2.1, by rw [joining]; rintro ⟨⟩⟩ planned

/-- What a launch does to its own stage: `_pp_ran_mbs` records the batch, and only
the slot's mailbox and registration may change. -/
structure Launches (S : Schedule Batch Meta Out Res) (k : ℕ) (stage : Stage Batch Meta Out Res)
    (ran : ℕ → Option Batch)
    (relay : Relay Batch Meta Out Res) : Prop where
  launching : stage.main = .launching
  ranHere : ran (S.slot stage.iter) = S.plan stage.iter
  ranElse : ∀ mbId, mbId ≠ S.slot stage.iter → ran mbId = stage.ran mbId
  fatal : relay.fatal = stage.relay.fatal
  worker : relay.worker = stage.relay.worker
  boxElse : ∀ mbId, mbId ≠ S.slot stage.iter → relay.mailbox mbId = stage.relay.mailbox mbId
  boxHere : relay.mailbox (S.slot stage.iter) = stage.relay.mailbox (S.slot stage.iter) ∨
    ∃ batch, S.plan stage.iter = some batch ∧
      relay.mailbox (S.slot stage.iter) = some (.result batch (S.expected k stage.iter batch))
  inflightElse : ∀ mbId, mbId ≠ S.slot stage.iter → relay.inflight mbId = stage.relay.inflight mbId

namespace Launches

variable {k : ℕ} {stage : Stage Batch Meta Out Res} {ran : ℕ → Option Batch}
  {relay : Relay Batch Meta Out Res}

/-- A launch follows the result of the loop before. -/
theorem settled (launches : S.Launches k stage ran relay) : stage.main.settled := by
  rw [launches.launching]
  rfl

/-- What was awaited still is. -/
theorem awaits (launches : S.Launches k stage ran relay) (awaits : S.Awaits stage i) :
    S.Awaits (stage.next ran relay) i := by
  obtain ⟨low, high, notNow⟩ := awaits
  have := notNow launches.settled
  refine ⟨?_, ?_, nofun⟩
  · change stage.iter + 1 ≤ i
    omega
  · change i < stage.iter + 1 + S.loopSize
    omega

/-- The launched batch is awaited. -/
theorem awaits_here (stage : Stage Batch Meta Out Res) (ran : ℕ → Option Batch)
    (relay : Relay Batch Meta Out Res) :
    S.Awaits (stage.next ran relay) (stage.iter + S.loopSize) := by
  have positive := S.loopSize_pos
  refine ⟨?_, ?_, nofun⟩
  · change stage.iter + 1 ≤ stage.iter + S.loopSize
    omega
  · change stage.iter + S.loopSize < stage.iter + 1 + S.loopSize
    omega

/-- Nothing else is. -/
theorem awaits_inv (awaits : S.Awaits (stage.next ran relay) i) :
    S.Awaits stage i ∨ i = stage.iter + S.loopSize := by
  obtain ⟨low, high, -⟩ := awaits
  change stage.iter + 1 ≤ i at low
  change i < stage.iter + 1 + S.loopSize at high
  by_cases here : i = stage.iter + S.loopSize
  · exact .inr here
  · exact .inl ⟨by omega, by omega, fun _ => by omega⟩

section

variable (launches : S.Launches k stage ran relay)
include launches

/-- There is no mail in the slot. -/
theorem noMailHere (ok : S.StageOk k stage) (batch : Batch) (result : Option Res) :
    stage.relay.mailbox (S.slot stage.iter) ≠ some (.result batch result) := by
  intro mail
  obtain ⟨i, awaits, slot, -⟩ := ok.mail _ batch result mail
  exact awaits.slot_ne launches.settled slot

/-- The batches that ran are those of the loop. -/
theorem ran_eq (ok : S.StageOk k stage) (after : stage.iter < i)
    (within : i ≤ stage.iter + S.loopSize) : ran (S.slot i) = S.previous i := by
  by_cases here : i = stage.iter + S.loopSize
  · rw [here, slot_add, previous_add, launches.ranHere]
  · have before : i < stage.iter + S.loopSize := by omega
    rw [launches.ranElse _ (S.slot_ne after before), ok.ranLater i after before]

/-- A launch keeps the stage in order. -/
theorem stageOk (ok : S.StageOk k stage) : S.StageOk k (stage.next ran relay) := by
  constructor
  case ranLater =>
    intro i after within
    change stage.iter + 1 < i at after
    change i < stage.iter + 1 + S.loopSize at within
    exact launches.ran_eq ok (by omega) (by omega)
  case ranNow =>
    exact fun _ => launches.ran_eq ok (Nat.lt_succ_self _)
      (Nat.add_le_add_left S.loopSize_pos _)
  case ranCleared => rintro ⟨⟩
  case joining => rintro ⟨⟩
  case mail =>
    intro mbId batch result mail
    by_cases here : mbId = S.slot stage.iter
    · subst here
      rcases launches.boxHere with same | ⟨own, planned, posted⟩
      · exact absurd (same ▸ mail) (launches.noMailHere ok batch result)
      · change relay.mailbox _ = _ at mail
        rw [posted, some.injEq] at mail
        obtain ⟨rfl, rfl⟩ := mail
        exact ⟨_, awaits_here stage ran relay, S.slot_add _, Awaits.previous_of_plan planned,
          by rw [Nat.add_sub_cancel]⟩
    · change relay.mailbox mbId = _ at mail
      rw [launches.boxElse mbId here] at mail
      obtain ⟨i, awaits, slot, planned, eq⟩ := ok.mail mbId batch result mail
      exact ⟨i, launches.awaits awaits, slot, planned, eq⟩
  case poison =>
    intro mbId mail
    refine launches.fatal.trans ?_
    by_cases here : mbId = S.slot stage.iter
    · subst here
      rcases launches.boxHere with same | ⟨own, planned, posted⟩
      · exact ok.poison _ (same ▸ mail)
      · change relay.mailbox _ = _ at mail
        rw [posted] at mail
        cases mail
    · change relay.mailbox mbId = _ at mail
      rw [launches.boxElse mbId here] at mail
      exact ok.poison mbId mail
  case dead =>
    intro rest poisoning
    exact launches.fatal.trans (ok.dead rest (launches.worker.symm.trans poisoning))
  case failed =>
    intro failed
    obtain ⟨rest, poisoning⟩ := ok.failed (launches.fatal.symm.trans failed)
    exact ⟨rest, launches.worker.trans poisoning⟩
  case prepared =>
    intro mbId batch result prepared
    obtain ⟨empty, i, awaits, rfl, planned, eq⟩ :=
      ok.prepared mbId batch result (launches.worker.symm.trans prepared)
    refine ⟨?_, i, launches.awaits awaits, rfl, planned, eq⟩
    exact (launches.boxElse _ (awaits.slot_ne launches.settled)).trans empty
  case unblocked => rintro _ _ ⟨⟩

/-- It keeps what is registered. -/
theorem registered {m : ℕ}
    (registered : S.Registered k stage m) : S.Registered k (stage.next ran relay) m := by
  have other : S.slot m ≠ S.slot stage.iter := by
    rw [← slot_add]
    exact registered.awaits.slot_ne launches.settled
  constructor
  case planned =>
    obtain ⟨batch, planned, relayed, inflight⟩ := registered.planned
    exact ⟨batch, planned, relayed, fun earlier =>
      (launches.inflightElse _ other).trans (inflight earlier)⟩
  case awaits => exact launches.awaits registered.awaits
  case noMail =>
    intro batch result mail
    exact registered.noMail batch result ((launches.boxElse _ other).symm.trans mail)
  case notPrepared =>
    intro batch result prepared
    exact registered.notPrepared batch result (launches.worker.symm.trans prepared)

/-- The batch of this iteration is registered once it has been launched. -/
theorem registered_here (ok : S.StageOk k stage) {batch : Batch}
    (planned : S.plan stage.iter = some batch) (relayed : S.route batch = .relayed)
    (inflight : k < S.lastRank →
      relay.inflight (S.slot stage.iter) = some (batch, S.metadata k stage.iter))
    (sameBox : relay.mailbox (S.slot stage.iter) = stage.relay.mailbox (S.slot stage.iter)) :
    S.Registered k (stage.next ran relay) stage.iter := by
  constructor
  case planned => exact ⟨batch, planned, relayed, inflight⟩
  case awaits => exact awaits_here stage ran relay
  case noMail =>
    intro batch result mail
    exact launches.noMailHere ok batch result (sameBox.symm.trans mail)
  case notPrepared =>
    intro batch result prepared
    obtain ⟨-, i, awaits, slot, -⟩ :=
      ok.prepared _ batch result (launches.worker.symm.trans prepared)
    exact awaits.slot_ne launches.settled slot

end

end Launches

variable {s : Relaying Batch Meta Out Res} {due : ℕ → List ℕ} {k : ℕ} {batch : Batch}
  {relay : Relay Batch Meta Out Res}

/-- A launch on one stage that gives the last stage's worker nothing. -/
theorem Linked.launch (linked : S.Linked s due) {ran : ℕ → Option Batch}
    (launches : S.Launches k (s.stage k) ran relay)
    (sendQueue : relay.sendQueue = (s.stage k).relay.sendQueue)
    (launched : ∀ batch, S.plan (s.stage k).iter = some batch →
      if S.route batch = .relayed then
        k < S.lastRank ∧
          relay.inflight (S.slot (s.stage k).iter) = some (batch, S.metadata k (s.stage k).iter) ∧
          relay.mailbox = (s.stage k).relay.mailbox
      else relay.mailbox (S.slot (s.stage k).iter) ≠ none) :
    S.Linked (s.setStage k ((s.stage k).next ran relay)) due := by
  have ok := linked.stages k
  refine linked.update (launches.stageOk ok) (fun m => launches.registered) (Nat.le_succ _) ?_
    (.of_worker launches.fatal sendQueue launches.worker) ?_
  · intro m batch planned relayed notBefore before
    obtain rfl : m = (s.stage k).iter := le_antisymm (Nat.le_of_lt_succ before) notBefore
    have route := launched batch planned
    rw [if_pos relayed] at route
    obtain ⟨earlier, inflight, boxes⟩ := route
    exact ⟨earlier, launches.registered_here ok planned relayed (fun _ => inflight) (by rw [boxes])⟩
  · intro rank healthy i batch awaits planned
    rcases Launches.awaits_inv awaits with old | rfl
    · have other := old.slot_ne launches.settled
      obtain filled | ⟨result, prepared⟩ | rest :=
        linked.pending k rank (launches.fatal.symm.trans healthy) i batch old planned
      · exact .inl fun empty => filled ((launches.boxElse _ other).symm.trans empty)
      · exact .inr (.inl ⟨result, launches.worker.trans prepared⟩)
      · exact .inr (.inr rest)
    · rw [previous_add] at planned
      have route := launched batch planned
      rw [slot_add, Nat.add_sub_cancel]
      split at route
      next relayed =>
        obtain ⟨earlier, -⟩ := route
        refine .inr (.inr (.inr ⟨earlier, relayed, ?_⟩))
        by_contra passed
        exact lt_irrefl _
          (linked.ahead k earlier _ batch planned relayed (Nat.lt_of_not_le passed))
      next => exact .inl route

/-- An iteration without a batch. -/
theorem Linked.launchNothing (linked : S.Linked s due) (launching : (s.stage k).main = .launching)
    (nothing : S.plan (s.stage k).iter = none) :
    S.Linked (s.setStage k ((s.stage k).next (s.stage k).ran (s.stage k).relay)) due := by
  refine linked.launch ⟨launching, ?_, fun _ _ => rfl, rfl, rfl, fun _ _ => rfl, .inl rfl,
    fun _ _ => rfl⟩ rfl ?_
  · rw [nothing, (linked.stages k).ranCleared launching]
  · intro batch planned
    rw [nothing] at planned
    cases planned

/-- Mail goes into an empty box. -/
theorem Relay.put_some {after : Relay Batch Meta Out Res} {mbId : ℕ} {mail : Mail Batch Res}
    (put : relay.put mbId mail = some after) : relay.mailbox mbId = none ∧
      after = { relay with mailbox := Function.update relay.mailbox mbId (some mail) } := by
  unfold Relay.put at put
  split at put
  next empty => exact ⟨empty, (some.inj put).symm⟩
  next => cases put

/-- A stage's own result is expected. -/
theorem expected_of_own {iter : ℕ} (own : S.route batch ≠ .relayed) :
    S.expected k iter batch = S.localResult k iter batch := by
  unfold expected
  split
  next relayed => exact absurd relayed own
  next => rfl

/-- The stage posts its own result. -/
theorem Linked.post (linked : S.Linked s due) (launching : (s.stage k).main = .launching)
    (planned : S.plan (s.stage k).iter = some batch) (own : S.route batch ≠ .relayed)
    (posted : (s.stage k).relay.postLocal (S.slot (s.stage k).iter) batch
      (S.localResult k (s.stage k).iter batch) = some relay) :
    S.Linked (s.setStage k ((s.stage k).next
      (Function.update (s.stage k).ran (S.slot (s.stage k).iter) (some batch)) relay)) due := by
  obtain ⟨-, rfl⟩ := Relay.put_some posted
  refine linked.launch ⟨launching, ?_, fun _ other => update_of_ne other _ _, rfl, rfl,
    fun _ other => update_of_ne other _ _, .inr ⟨batch, planned, ?_⟩, fun _ _ => rfl⟩
    rfl ?_
  · rw [planned, update_self]
  · rw [expected_of_own own]
    exact update_self ..
  · intro batch' planned'
    obtain rfl : batch = batch' := some.inj (planned.symm.trans planned')
    rw [if_neg own]
    simp

/-- The stage expects a message. -/
theorem Linked.expect (linked : S.Linked s due) (earlier : k < S.lastRank)
    (launching : (s.stage k).main = .launching) (planned : S.plan (s.stage k).iter = some batch)
    (relayed : S.route batch = .relayed) :
    S.Linked (s.setStage k ((s.stage k).next
      (Function.update (s.stage k).ran (S.slot (s.stage k).iter) (some batch))
      ((s.stage k).relay.expectMessage (S.slot (s.stage k).iter) batch
        (S.metadata k (s.stage k).iter)))) due := by
  refine linked.launch ⟨launching, ?_, fun _ other => update_of_ne other _ _, rfl, rfl,
    fun _ _ => rfl, .inl rfl, fun _ other => update_of_ne other _ _⟩ rfl ?_
  · rw [planned, update_self]
  · intro batch' planned'
    obtain rfl : batch = batch' := some.inj (planned.symm.trans planned')
    rw [if_pos relayed]
    exact ⟨earlier, update_self .., rfl⟩

/-- The last stage submits its output: the iteration becomes due on every stage. -/
theorem Linked.submit (linked : S.Linked s due) (launching : (s.stage S.lastRank).main = .launching)
    (planned : S.plan (s.stage S.lastRank).iter = some batch) (relayed : S.route batch = .relayed)
    (launchedEarlier : ∀ k < S.lastRank, (s.stage S.lastRank).iter < (s.stage k).iter) : S.Linked
      (s.setStage S.lastRank ((s.stage S.lastRank).next
        (Function.update (s.stage S.lastRank).ran (S.slot (s.stage S.lastRank).iter) (some batch))
        ((s.stage S.lastRank).relay.submitSend (S.slot (s.stage S.lastRank).iter)
          (S.output (s.stage S.lastRank).iter) batch
          (S.metadata S.lastRank (s.stage S.lastRank).iter))))
      (fun k => due k ++ [(s.stage S.lastRank).iter]) := by
  have ok := linked.stages S.lastRank
  set n := (s.stage S.lastRank).iter with isIter
  set ran := Function.update (s.stage S.lastRank).ran (S.slot n) (some batch) with isRan
  set relay := (s.stage S.lastRank).relay.submitSend (S.slot n) (S.output n) batch
    (S.metadata S.lastRank n) with isRelay
  have launches : S.Launches S.lastRank (s.stage S.lastRank) ran relay :=
    ⟨launching, by rw [planned]; exact update_self ..,
      fun _ other => update_of_ne other _ _, rfl, rfl, fun _ _ => rfl, .inl rfl,
      fun _ _ => rfl⟩
  have here := launches.registered_here ok planned relayed (fun lt => absurd lt (lt_irrefl _))
    rfl
  refine linked.replace rfl (launches.stageOk ok) (Nat.le_succ _)
    (fun m _ => launches.registered) ?_ ?_ ?_ (fun _ _ => subset_append_left _ _) ?_ ?_ ?_
    (absurd rfl) (fun _ => linked.receiver S.lastRank (le_refl _)) ?_
  · intro m _ _ _ notBefore before
    obtain rfl : m = n := le_antisymm (Nat.le_of_lt_succ before) notBefore
    exact ⟨here, fun _ j earlier =>
      ⟨launchedEarlier j earlier, mem_append_right _ (mem_singleton_self _)⟩⟩
  · intro k
    refine nodup_append.mpr ⟨linked.nodup k, nodup_singleton n, ?_⟩
    intro m member m' last same
    rw [mem_singleton] at last
    subst same last
    exact lt_irrefl _ (linked.submitted k _ member)
  · intro k m member
    rcases mem_append.mp member with old | new
    · exact .inl old
    · rw [mem_singleton.mp new]
      exact .inr ⟨rfl, le_refl _, Nat.lt_succ_self _, batch, planned, relayed⟩
  · intro k earlier
    obtain ⟨unsent, route, atLast⟩ := linked.wires k earlier
    refine ⟨unsent ++ [S.message n], ?_, fun healthy => ?_⟩
    · rw [setStage_of_ne s (ne_of_lt earlier), map_append, ← route, ← append_assoc]
      rfl
    · rw [setStage_self] at healthy ⊢
      rw [atLast healthy]
      simp [isRelay, Relay.submitSend, Stage.next, SendJob.message, message]
  · intro healthy
    rw [setStage_self] at healthy ⊢
    have isJob : S.IsJob n ⟨S.slot n, S.output n, batch, S.metadata S.lastRank n⟩ :=
      ⟨rfl, rfl, planned, rfl⟩
    have grown := rel_append (linked.jobs healthy) (Forall₂.cons isJob .nil)
    simp only [append_assoc] at grown
    exact grown
  · intro job rest sending
    rw [setStage_self] at sending
    exact linked.distinct job rest sending
  · intro rank healthy i batch' awaits planned'
    rcases Launches.awaits_inv awaits with old | rfl
    · obtain filled | prepared | isDue | ⟨earlier, -⟩ :=
        linked.pending _ rank healthy i batch' old planned'
      · exact .inl filled
      · exact .inr (.inl prepared)
      · exact .inr (.inr (.inl (mem_append_left _ isDue)))
      · exact absurd earlier (lt_irrefl _)
    · rw [Nat.add_sub_cancel]
      exact .inr (.inr (.inl (mem_append_right _ (mem_singleton_self n))))

end Schedule

end AvaServe.Pipeline
