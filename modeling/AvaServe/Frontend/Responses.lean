import AvaServe.Frontend.Lifecycle

/-!
# Who may still answer a request

A request's sink is written by the intake loop while it rejects the request and by the
request's shard afterwards, never by both: the scheduler, the dispatcher and the shards speak
only about requests that were handed over. Each registration, in a shard's channel or its
table, gives room for one terminal item.
-/

namespace AvaServe.Frontend

open List Function

/-! ## What a message is about -/

/-- The message registers the request. -/
def DetokMsg.isRegister (rid : ℕ) : DetokMsg → Bool
  | .register other => other == rid
  | _ => false

/-- The requests whose sink a message may write. -/
def DetokMsg.rids : DetokMsg → List ℕ
  | .register _ => []
  | .chunks evs => evs.map ChunkEvent.rid
  | .decode rid => [rid]
  | .result rid => [rid]
  | .fail rid => [rid]
  | .deregister _ => []

/-- The requests the scheduler learns about from an item of the ring. -/
def SchedulerRequest.rids : SchedulerRequest → List ℕ
  | .generate rid => [rid]
  | .control rid => [rid]
  | .abort _ => []

/-- The registrations of a request, in its shard's channel and in the table. -/
def registrations (shard : ℕ → ℕ) (detok : ℕ → List DetokMsg) (table : ℕ → Bool)
    (rid : ℕ) : ℕ :=
  (detok (shard rid)).countP (DetokMsg.isRegister rid) + if table rid then 1 else 0

/-- Append a message to a shard's channel. -/
def sent (detok : ℕ → List DetokMsg) (k : ℕ) (msg : DetokMsg) : ℕ → List DetokMsg :=
  update detok k (detok k ++ [msg])

variable {detok : ℕ → List DetokMsg}

/-- What a shard gets was there or is sent. -/
theorem mem_sent {k j : ℕ} {msg other : DetokMsg} (member : other ∈ sent detok k msg j) :
    other ∈ detok j ∨ j = k ∧ other = msg := by
  by_cases same : j = k
  · subst same
    rw [sent, update_self] at member
    rcases mem_append.mp member with old | new
    · exact .inl old
    · exact .inr ⟨rfl, mem_singleton.mp new⟩
  · rw [sent, update_of_ne same] at member
    exact .inl member

/-- Sending adds to a request's registrations only its own `Register`. -/
theorem registrations_sent (shard : ℕ → ℕ) (detok : ℕ → List DetokMsg) (table : ℕ → Bool)
    (k : ℕ) (msg : DetokMsg) (rid : ℕ) :
    registrations shard (sent detok k msg) table rid = registrations shard detok table rid +
        if shard rid = k ∧ msg.isRegister rid then 1 else 0 := by
  by_cases same : shard rid = k
  · simp only [registrations, sent, same, update_self, countP_append, countP_singleton, true_and]
    omega
  · simp [registrations, sent, same]

/-- Taking a message takes from a request's registrations only its own `Register`. -/
theorem registrations_pop {shard : ℕ → ℕ} {detok : ℕ → List DetokMsg} {table : ℕ → Bool}
    {k : ℕ} {msg : DetokMsg} {rest : List DetokMsg} (channel : detok k = msg :: rest) (rid : ℕ) :
    registrations shard detok table rid = registrations shard (update detok k rest) table rid +
        if shard rid = k ∧ msg.isRegister rid then 1 else 0 := by
  by_cases same : shard rid = k
  · simp only [registrations, same, channel, update_self, countP_cons, true_and]
    omega
  · simp [registrations, same]

variable {rest : List DetokMsg}

/-- What is left was there. -/
theorem mem_of_mem_popped {k j : ℕ} {msg other : DetokMsg} (channel : detok k = msg :: rest)
    (member : other ∈ update detok k rest j) : other ∈ detok j := by
  by_cases same : j = k
  · subst same
    rw [update_self] at member
    rw [channel]
    exact mem_cons_of_mem _ member
  · rwa [update_of_ne same] at member

/-! ## Response streams -/

variable {items : List ResponseItem}

namespace Server

/-- Without terminal items there is at most one. -/
theorem AtMostOneTerminal.of_silent (silent : ∀ item ∈ items, item.isTerminal = false) :
    AtMostOneTerminal items := by
  intro before item after split terminal
  have quiet := silent item (by rw [split]; simp)
  rw [terminal] at quiet
  cases quiet

/-- A stream without a terminal item may be extended once more. -/
theorem AtMostOneTerminal.append {items : List ResponseItem}
    (silent : ∀ item ∈ items, item.isTerminal = false) (last : ResponseItem) :
    AtMostOneTerminal (items ++ [last]) := by
  intro before item after split terminal
  rcases eq_nil_or_concat after with rfl | ⟨initial, final, rfl⟩
  · rfl
  · have parts : items ++ [last] = (before ++ item :: initial) ++ [final] := by simpa using split
    have quiet := silent item (by rw [(append_inj' parts rfl).1]; simp)
    rw [terminal] at quiet
    cases quiet

end Server

open Server (AtMostOneTerminal)

/-! ## The invariant -/

/-- Registrations are at most one, whoever may answer is handed over, a registered request has
had no terminal item, and a rejected one was sent an error unless its handler is gone. -/
structure Answers (shard : ℕ → ℕ) (detok : ℕ → List DetokMsg) (table : ℕ → Bool)
    (frames : List Frame) (ring : List SchedulerRequest) (scheduled : ℕ → Bool)
    (phase : ℕ → Phase) (sink : ℕ → List ResponseItem) (closed : ℕ → Bool) : Prop where
  homed : ∀ k rid, .register rid ∈ detok k → shard rid = k
  once : ∀ rid, registrations shard detok table rid ≤ 1
  unregistered : ∀ rid, phase rid = .absent ∨ phase rid = .received →
    registrations shard detok table rid = 0
  messages : ∀ k, ∀ msg ∈ detok k, ∀ rid ∈ msg.rids, phase rid = .handed
  frames : ∀ frame ∈ frames, ∀ rid ∈ frame.rids, phase rid = .handed
  ring : ∀ item ∈ ring, ∀ rid ∈ item.rids, phase rid = .handed
  scheduled : ∀ rid, scheduled rid → phase rid = .handed
  quiet : ∀ rid, phase rid ≠ .failed → phase rid ≠ .handed → sink rid = []
  silent : ∀ rid, phase rid = .handed → 0 < registrations shard detok table rid →
    ∀ item ∈ sink rid, item.isTerminal = false
  rejected : ∀ rid, phase rid = .failed → sink rid = [.error] ∨ closed rid = true
  ended : ∀ rid, AtMostOneTerminal (sink rid)

namespace Answers

variable {shard : ℕ → ℕ} {detok : ℕ → List DetokMsg} {table scheduled closed : ℕ → Bool}
  {frames : List Frame} {ring : List SchedulerRequest} {phase : ℕ → Phase}
  {sink : ℕ → List ResponseItem} {rid k : ℕ}

attribute [simp] registrations

/-- The answers at the start. -/
theorem start (shard : ℕ → ℕ) :
    Answers shard (fun _ => []) (fun _ => false) [] [] (fun _ => false) (fun _ => .absent)
      (fun _ => []) (fun _ => false) where
  homed := by simp
  once := by simp
  unregistered := by simp
  messages := by simp
  frames := by simp
  ring := by simp
  scheduled := by simp
  quiet := by simp
  silent := by simp
  rejected := by simp
  ended := fun _ => AtMostOneTerminal.of_silent (by simp)

/-- The scheduler takes an item from the ring. -/
theorem popRing {item : SchedulerRequest} {rest : List SchedulerRequest}
    (answers : Answers shard detok table frames (item :: rest) scheduled phase sink closed) :
    Answers shard detok table frames rest scheduled phase sink closed :=
  { answers with ring := fun other member => answers.ring other (mem_cons_of_mem _ member) }

variable (answers : Answers shard detok table frames ring scheduled phase sink closed)
include answers

/-- The phase of a request nobody speaks about moves on. What it is sent then is an error, if it
is rejected and its handler is there. -/
theorem move (next : Phase) {items : List ResponseItem}
    (now : phase rid = .absent ∨ phase rid = .received ∨ phase rid = .intake)
    (onward : next ≠ .absent) (fresh : next = .received → phase rid = .absent)
    (sent : items = [] ∧ (next = .failed → closed rid = true) ∨
      items = [.error] ∧ next = .failed) :
    Answers shard detok table frames ring scheduled (update phase rid next)
      (update sink rid items) closed := by
  have unspoken : ∀ other, phase other = .handed → update phase rid next other = .handed := by
    intro other handed
    rw [update_of_ne]
    · exact handed
    · rintro rfl
      rcases now with now | now | now <;> rw [now] at handed <;> cases handed
  constructor
  · exact answers.homed
  · exact answers.once
  · intro other early
    by_cases same : other = rid
    · subst same
      rw [update_self] at early
      rcases early with early | early
      · exact absurd early onward
      · exact answers.unregistered other (.inl (fresh early))
    · rw [update_of_ne same] at early
      exact answers.unregistered other early
  · exact fun k msg member other named => unspoken other (answers.messages k msg member other named)
  · exact fun frame member other named => unspoken other (answers.frames frame member other named)
  · exact fun item member other named => unspoken other (answers.ring item member other named)
  · exact fun other drained => unspoken other (answers.scheduled other drained)
  · intro other notFailed notHanded
    by_cases same : other = rid
    · rw [same, update_self] at notFailed ⊢
      exact (sent.resolve_right fun error => notFailed error.2).1
    · rw [update_of_ne same] at notFailed notHanded ⊢
      exact answers.quiet other notFailed notHanded
  · intro other handed registered
    by_cases same : other = rid
    · rw [same, update_self] at handed ⊢
      obtain ⟨rfl, -⟩ | ⟨-, failed⟩ := sent
      · simp
      · cases failed.symm.trans handed
    · rw [update_of_ne same] at handed ⊢
      exact answers.silent other handed registered
  · intro other failed
    by_cases same : other = rid
    · rw [same, update_self] at failed ⊢
      exact sent.symm.imp And.left fun nothing => nothing.2 failed
    · rw [update_of_ne same] at failed ⊢
      exact answers.rejected other failed
  · intro other
    by_cases same : other = rid
    · rw [same, update_self]
      obtain ⟨rfl, -⟩ | ⟨rfl, -⟩ := sent
      · exact AtMostOneTerminal.of_silent (by simp)
      · exact @AtMostOneTerminal.append [] (by simp) _
    · rw [update_of_ne same]
      exact answers.ended other

/-- A request inside the intake stages has been sent nothing. -/
theorem unsent (now : phase rid = .absent ∨ phase rid = .received ∨ phase rid = .intake) :
    sink rid = [] := by
  rcases now with now | now | now <;> exact answers.quiet rid (by simp [now]) (by simp [now])

/-- The phase moves on and nothing is sent. -/
theorem setPhase (next : Phase)
    (now : phase rid = .absent ∨ phase rid = .received ∨ phase rid = .intake)
    (onward : next ≠ .absent ∧ next ≠ .failed) (fresh : next = .received → phase rid = .absent) :
    Answers shard detok table frames ring scheduled (update phase rid next) sink closed := by
  have moved := answers.move next now onward.1 fresh
    (.inl ⟨rfl, fun failed => absurd failed onward.2⟩)
  rwa [← answers.unsent now, update_eq_self] at moved

/-- The intake loop rejects a request. -/
theorem reject (now : phase rid = .received ∨ phase rid = .intake) :
    Answers shard detok table frames ring scheduled (update phase rid .failed)
      (update sink rid (if closed rid || false then sink rid else sink rid ++ [.error]))
      closed := by
  refine answers.move .failed (.inr now) nofun nofun ?_
  rw [answers.unsent (.inr now)]
  cases gone : closed rid with
  | true => exact .inl ⟨rfl, fun _ => rfl⟩
  | false => exact .inr ⟨rfl, rfl⟩

variable {table' : ℕ → Bool}

/-- The sink of a request that was handed over is replaced, and registrations are dropped. -/
theorem resink (fewer : ∀ other,
      registrations shard detok table' other ≤ registrations shard detok table other)
    (handed : items = sink rid ∨ phase rid = .handed)
    (silent : phase rid = .handed → 0 < registrations shard detok table' rid → ∀ item ∈ items,
      item.isTerminal = false) (ended : AtMostOneTerminal items) :
    Answers shard detok table' frames ring scheduled phase (update sink rid items) closed := by
  refine ⟨answers.homed, fun other => (fewer other).trans (answers.once other), fun other early =>
    Nat.le_zero.mp ((fewer other).trans (answers.unregistered other early).le), answers.messages,
    answers.frames, answers.ring, answers.scheduled, fun other => ?_, fun other => ?_,
    fun other => ?_, fun other => ?_⟩
  all_goals by_cases same : other = rid
  · rw [same, update_self]
    intro notFailed notHanded
    exact (handed.resolve_right notHanded).trans (answers.quiet rid notFailed notHanded)
  · rw [update_of_ne same]
    exact answers.quiet other
  · rw [same, update_self]
    exact silent
  · rw [update_of_ne same]
    exact fun handed registered => answers.silent other handed (registered.trans_le (fewer other))
  · rw [same, update_self]
    intro failed
    rw [handed.resolve_right (by simp [failed])]
    exact answers.rejected rid failed
  · rw [update_of_ne same]
    exact answers.rejected other
  · rw [same, update_self]
    exact ended
  · rw [update_of_ne same]
    exact answers.ended other

/-- Channels and tables may change as long as the registrations stay and new messages are
about requests that were handed over. -/
theorem channels {detok' : ℕ → List DetokMsg}
    (kept : ∀ j, ∀ msg ∈ detok' j, msg ∈ detok j ∨
      (∀ rid, msg.isRegister rid = false) ∧ ∀ rid ∈ msg.rids, phase rid = .handed)
    (same : ∀ rid, registrations shard detok' table' rid = registrations shard detok table rid) :
    Answers shard detok' table' frames ring scheduled phase sink closed := by
  refine ⟨?_, ?_, ?_, ?_, answers.frames, answers.ring, answers.scheduled, answers.quiet, ?_,
    answers.rejected, answers.ended⟩
  · intro j rid member
    refine answers.homed j rid ((kept j _ member).resolve_right fun new => ?_)
    have registers := new.1 rid
    simp [DetokMsg.isRegister] at registers
  · exact fun rid => (same rid).le.trans (answers.once rid)
  · exact fun rid early => (same rid).trans (answers.unregistered rid early)
  · intro j msg member
    exact (kept j msg member).elim (answers.messages j msg) And.right
  · exact fun rid handed registered => answers.silent rid handed (same rid ▸ registered)

/-- A message other than `Register` is sent about requests that were handed over. -/
theorem send (k : ℕ) (msg : DetokMsg) (other : ∀ rid, msg.isRegister rid = false)
    (handed : ∀ rid ∈ msg.rids, phase rid = .handed) :
    Answers shard (sent detok k msg) table frames ring scheduled phase sink closed := by
  refine answers.channels (fun j found member => ?_) fun rid => ?_
  · refine (mem_sent member).imp_right ?_
    rintro ⟨-, rfl⟩
    exact ⟨other, handed⟩
  · rw [registrations_sent, other rid]
    simp

/-- A request inside the intake stages registers its sink. -/
theorem register (now : phase rid = .intake) (first : registrations shard detok table rid = 0) :
    Answers shard (sent detok (shard rid) (.register rid)) table frames ring scheduled phase
      sink closed := by
  have same : ∀ other, other ≠ rid →
      registrations shard (sent detok (shard rid) (.register rid)) table other =
        registrations shard detok table other := by
    intro other ne
    rw [registrations_sent]
    simp [DetokMsg.isRegister, Ne.symm ne]
  refine ⟨?_, ?_, ?_, ?_, answers.frames, answers.ring, answers.scheduled, answers.quiet, ?_,
    answers.rejected, answers.ended⟩
  · intro j other member
    rcases mem_sent member with old | ⟨rfl, new⟩
    · exact answers.homed j other old
    · rw [DetokMsg.register.inj new]
  · intro other
    by_cases own : other = rid
    · rw [own, registrations_sent]
      split <;> omega
    · rw [same other own]
      exact answers.once other
  · intro other early
    by_cases own : other = rid
    · rw [own, now] at early
      rcases early with early | early <;> cases early
    · rw [same other own]
      exact answers.unregistered other early
  · intro j found member other named
    rcases mem_sent member with old | ⟨-, rfl⟩
    · exact answers.messages j found old other named
    · cases named
  · intro other handed registered
    by_cases own : other = rid
    · rw [own, now] at handed
      cases handed
    · rw [same other own] at registered
      exact answers.silent other handed registered

/-- An item for the scheduler changes none. -/
theorem push (item : SchedulerRequest) (handed : ∀ rid ∈ item.rids, phase rid = .handed) :
    Answers shard detok table frames (ring ++ [item]) scheduled phase sink closed :=
  { answers with
    ring := forall_mem_append.mpr ⟨answers.ring, forall_mem_singleton.mpr handed⟩ }

/-- Nor does scheduling. -/
theorem schedule (handed : phase rid = .handed) :
    Answers shard detok table frames ring (update scheduled rid true) phase sink closed :=
  { answers with
    scheduled other drained := by
      by_cases same : other = rid
      · rw [same]
        exact handed
      · rw [update_of_ne same] at drained
        exact answers.scheduled other drained }

/-- Nor does a frame. -/
theorem emit {frame : Frame} (handed : ∀ rid ∈ frame.rids, phase rid = .handed) :
    Answers shard detok table (frames ++ [frame]) ring scheduled phase sink closed :=
  { answers with
    frames := forall_mem_append.mpr ⟨answers.frames, forall_mem_singleton.mpr handed⟩ }

/-- A handler goes away. -/
theorem closeSink (rid : ℕ) :
    Answers shard detok table frames ring scheduled phase sink (update closed rid true) :=
  { answers with
    rejected other failed := (answers.rejected other failed).imp_right fun gone => by
      by_cases same : other = rid
      · rw [same, update_self]
      · rwa [update_of_ne same] }

/-- A shard takes a message other than `Register`. -/
theorem popMsg {msg : DetokMsg} (channel : detok k = msg :: rest)
    (other : ∀ rid, msg.isRegister rid = false) :
    Answers shard (update detok k rest) table frames ring scheduled phase sink closed := by
  refine answers.channels (fun _ _ member => .inl (mem_of_mem_popped channel member)) fun rid => ?_
  rw [registrations_pop channel, other rid]
  simp

/-- A shard takes a `Register`: the registration moves to the table. -/
theorem popRegister (channel : detok k = .register rid :: rest) :
    Answers shard (update detok k rest) (update table rid true) frames ring
      scheduled phase sink closed := by
  have home : shard rid = k := answers.homed k rid (by rw [channel]; exact mem_cons_self)
  refine answers.channels (fun _ _ member => .inl (mem_of_mem_popped channel member))
    fun other => ?_
  have popped := @registrations_pop shard detok table k _ rest channel other
  by_cases own : other = rid
  · have limit := answers.once rid
    rw [own] at popped ⊢
    rw [if_pos ⟨home, by simp [DetokMsg.isRegister]⟩] at popped
    have gone : registrations shard (update detok k rest) table rid = 0 := by omega
    rw [popped, gone]
    simp only [registrations, Nat.add_eq_zero_iff] at gone
    simp only [registrations, gone.1, update_self, if_true]
  · rw [if_neg (by simp [DetokMsg.isRegister, Ne.symm own])] at popped
    rw [popped]
    simp [update_of_ne own]

/-- A registered request's entry is removed, together with a last item to its sink. -/
theorem close {items : List ResponseItem}
    (last : items = sink rid ∨
      table rid = true ∧ phase rid = .handed ∧ ∃ item, items = sink rid ++ [item]) :
    Answers shard detok (update table rid false) frames ring scheduled phase
      (update sink rid items) closed := by
  have fewer : ∀ other, registrations shard detok (update table rid false) other ≤
      registrations shard detok table other := by
    intro other
    by_cases same : other = rid
    · rw [same]
      simp
    · simp [update_of_ne same]
  have extended : items = sink rid ∨ phase rid = .handed ∧
      registrations shard detok (update table rid false) rid = 0 ∧
      (∀ item ∈ sink rid, item.isTerminal = false) ∧ ∃ item, items = sink rid ++ [item] := by
    refine last.imp_right ?_
    rintro ⟨registered, handed, shape⟩
    have limit := answers.once rid
    refine ⟨handed, ?_, ?_, shape⟩
    · simp only [registrations, registered] at limit
      simpa using limit
    · apply answers.silent rid handed
      simp [registered]
  refine answers.resink fewer (extended.imp_right And.left) (fun handed registered => ?_) ?_
  · rcases extended with rfl | ⟨-, unregistered, -⟩
    · exact answers.silent rid handed (registered.trans_le (fewer rid))
    · omega
  · rcases extended with rfl | ⟨-, -, silent, item, rfl⟩
    · exact answers.ended rid
    · exact AtMostOneTerminal.append silent item

/-- Nor does a removed entry. -/
theorem remove (rid : ℕ) :
    Answers shard detok (update table rid false) frames ring scheduled phase sink closed := by
  have last := @close _ _ _ _ _ _ _ _ _ rid answers _ (.inl rfl)
  rwa [update_eq_self] at last

/-- A registered request that was handed over is sent an intermediate frame. -/
theorem stream (handed : phase rid = .handed) (registered : table rid = true) :
    Answers shard detok table frames ring scheduled phase
      (update sink rid (sink rid ++ [.frame])) closed := by
  have silent : ∀ item ∈ sink rid ++ [ResponseItem.frame], item.isTerminal = false := by
    intro item member
    rcases mem_append.mp member with old | new
    · exact answers.silent rid handed (by simp [registered]) item old
    · rw [mem_singleton.mp new]
      rfl
  exact answers.resink (fun _ => le_rfl) (.inr handed) (fun _ _ => silent)
    (AtMostOneTerminal.of_silent silent)

end Answers

end AvaServe.Frontend
