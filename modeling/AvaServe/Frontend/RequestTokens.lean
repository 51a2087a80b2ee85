import AvaServe.Frontend.Lifecycle

/-!
# Where a request is while the intake stages own it

A submitted request is in exactly one place until it is answered: in the inbox, with a
tokenizer worker, parked for the multimodal workers, or in the hand of the intake loop. The
counts below say so for every request at once; each move of a request is one lemma.
-/

namespace AvaServe.Frontend

open List Function Option

/-! ## Counting the copies of a request -/

/-- The event is the request's intake. -/
def TmEvent.isIntake (rid : ℕ) : TmEvent → Bool
  | .intake req => req.rid == rid
  | _ => false

/-- The event is its tokenized form. -/
def TmEvent.isTokenized (rid : ℕ) : TmEvent → Bool
  | .tokenized req => req.rid == rid
  | _ => false

/-- The request a worker's answer is about. -/
def TmEvent.mmRid : TmEvent → Option ℕ
  | .mmEncoded rid _ => some rid
  | .mmFailed rid => some rid
  | _ => none

/-- The request has the rid. -/
def Request.isFor (rid : ℕ) (req : Request) : Bool := req.rid == rid

/-- What the intake loop holds counts once, for its request and the phase it is in. -/
def inHand (held : Option (ℕ × Phase)) (rid : ℕ) (phase : Phase) : ℕ :=
  if held = some (rid, phase) then 1 else 0

/-- A request is parked or not. -/
def parkedCount (pending : ℕ → Option Request) (rid : ℕ) : ℕ :=
  if (pending rid).isSome then 1 else 0

/-- The copies of a request past validation. -/
def copies (inbox : List TmEvent) (pool : List Request) (pending : ℕ → Option Request)
    (rid : ℕ) : ℕ :=
  inbox.countP (TmEvent.isTokenized rid) + pool.countP (Request.isFor rid) + parkedCount pending rid

/-- Nothing is in hand. -/
@[simp] theorem inHand_none (rid : ℕ) (phase : Phase) : inHand none rid phase = 0 := rfl

/-- The request in hand. -/
@[simp] theorem inHand_self (rid : ℕ) (phase : Phase) :
    inHand (some (rid, phase)) rid phase = 1 := by
  simp [inHand]

/-- Another rid is not. -/
theorem inHand_of_ne_rid {held rid : ℕ} (phase other : Phase) (ne : rid ≠ held) :
    inHand (some (held, phase)) rid other = 0 :=
  if_neg fun same => ne (congrArg Prod.fst (some.inj same)).symm

/-- Another phase is not. -/
theorem inHand_of_ne_phase (held rid : ℕ) {phase other : Phase} (ne : other ≠ phase) :
    inHand (some (held, phase)) rid other = 0 :=
  if_neg fun same => ne (congrArg Prod.snd (some.inj same)).symm

variable (pending : ℕ → Option Request)

/-- A taken request is not parked. -/
@[simp] theorem parkedCount_update_none_self (rid : ℕ) :
    parkedCount (update pending rid none) rid = 0 := by
  simp [parkedCount]

/-- A parked one is. -/
@[simp] theorem parkedCount_update_some_self (rid : ℕ) (req : Request) :
    parkedCount (update pending rid (some req)) rid = 1 := by
  simp [parkedCount]

/-- The others stay. -/
theorem parkedCount_update_of_ne {rid other : ℕ} (value : Option Request) (ne : other ≠ rid) :
    parkedCount (update pending rid value) other = parkedCount pending other := by
  simp [parkedCount, update_of_ne ne]

/-- A parked request counts once. -/
theorem parkedCount_of_some {pending : ℕ → Option Request} {rid : ℕ} {req : Request}
    (parked : pending rid = some req) : parkedCount pending rid = 1 := by
  simp [parkedCount, parked]

/-! ## One place at a time -/

/-- Every request is in one place, in the state that place expects. -/
structure Tokens (held : Option (ℕ × Phase)) (inbox : List TmEvent) (pool : List Request)
    (pending : ℕ → Option Request) (phase : ℕ → Phase) : Prop where
  fresh : ∀ rid, inbox.countP (TmEvent.isIntake rid) + inHand held rid .received =
    if phase rid = .received then 1 else 0
  inside : ∀ rid, copies inbox pool pending rid + inHand held rid .intake =
    if phase rid = .intake then 1 else 0
  intakes : ∀ req, TmEvent.intake req ∈ inbox → req.state = .received
  returns : ∀ req, TmEvent.tokenized req ∈ inbox →
    req.state = .preSendValidating ∨ req.state = .failed
  pooled : ∀ req ∈ pool, req.state = .tokenizing ∧ req.kind = .generate
  parked : ∀ rid req, pending rid = some req →
    req.rid = rid ∧ req.state = .encoding ∧ req.kind = .generate

namespace Tokens

variable {held : Option (ℕ × Phase)} {inbox rest : List TmEvent} {pool : List Request}
  {pending : ℕ → Option Request} {phase : ℕ → Phase} {rid : ℕ} {req : Request}

/-- At the start there is no request. -/
theorem start : Tokens none [] [] (fun _ => none) (fun _ => .absent) where
  fresh := fun _ => rfl
  inside := fun _ => rfl
  intakes := by simp
  returns := by simp
  pooled := by simp
  parked := by simp

/-- The phase of the request in hand, and that no other copy of it exists. -/
theorem of_held {now : Phase} (tokens : Tokens (some (rid, now)) inbox pool pending phase)
    (owned : now = .received ∨ now = .intake) :
    phase rid = now ∧ inbox.countP (TmEvent.isIntake rid) = 0 ∧
      copies inbox pool pending rid = 0 := by
  have fresh := tokens.fresh rid
  have inside := tokens.inside rid
  rcases owned with rfl | rfl
  · have now : phase rid = .received := by
      by_contra other
      rw [inHand_self, if_neg other] at fresh
      omega
    simpa [now, inHand] using And.intro fresh inside
  · have now : phase rid = .intake := by
      by_contra other
      rw [inHand_self, if_neg other] at inside
      omega
    simpa [now, inHand] using And.intro fresh inside

variable (tokens : Tokens none inbox pool pending phase)

include tokens in
/-- A submitted request is in the inbox. -/
theorem submit (absent : phase req.rid = .absent) (state : req.state = .received) :
    Tokens none (inbox ++ [.intake req]) pool pending
      (update phase req.rid .received) where
  fresh rid := by
    have before := tokens.fresh rid
    by_cases same : rid = req.rid
    · subst same
      simpa [absent, TmEvent.isIntake] using before
    · simpa [update_of_ne same, TmEvent.isIntake, Ne.symm same] using before
  inside rid := by
    have before := tokens.inside rid
    have step : copies (inbox ++ [.intake req]) pool pending rid =
        copies inbox pool pending rid := by
      simp [copies, TmEvent.isTokenized]
    rw [step]
    by_cases same : rid = req.rid
    · subst same
      simpa [absent] using before
    · rw [update_of_ne same]
      exact before
  intakes other member := by
    rcases mem_append.mp member with old | new
    · exact tokens.intakes other old
    · rw [TmEvent.intake.inj (mem_singleton.mp new)]
      exact state
  returns other member := by
    rcases mem_append.mp member with old | new
    · exact tokens.returns other old
    · exact absurd (mem_singleton.mp new) (by simp)
  pooled := tokens.pooled
  parked := tokens.parked

/-- The intake loop takes an event, and the request in it in hand. -/
theorem take {event : TmEvent} (tokens : Tokens none (event :: rest) pool pending phase)
    (fresh : ∀ rid, inHand held rid .received = if event.isIntake rid then 1 else 0)
    (inside : ∀ rid, inHand held rid .intake = if event.isTokenized rid then 1 else 0) :
    Tokens held rest pool pending phase :=
  { tokens with
    fresh rid := by
      rw [fresh, ← countP_cons]
      exact tokens.fresh rid
    inside rid := by
      have before := tokens.inside rid
      rw [copies, countP_cons, inHand_none] at before
      rw [inside, copies]
      omega
    intakes other member := tokens.intakes other (mem_cons_of_mem _ member)
    returns other member := tokens.returns other (mem_cons_of_mem _ member) }

/-- The intake is taken in hand. -/
theorem takeIntake (tokens : Tokens none (.intake req :: rest) pool pending phase) :
    Tokens (some (req.rid, .received)) rest pool pending phase :=
  tokens.take (by simp [inHand, TmEvent.isIntake]) (by simp [inHand, TmEvent.isTokenized])

/-- So is a tokenized request. -/
theorem takeTokenized (tokens : Tokens none (.tokenized req :: rest) pool pending phase) :
    Tokens (some (req.rid, .intake)) rest pool pending phase :=
  tokens.take (by simp [inHand, TmEvent.isIntake]) (by simp [inHand, TmEvent.isTokenized])

variable {event : TmEvent}

/-- A multimodal worker's answer carries no copy of the request. -/
theorem countP_mm (answer : event.mmRid ≠ none) (rid : ℕ) :
    event.isIntake rid = false ∧ event.isTokenized rid = false := by
  cases event with
  | intake _ | tokenized _ => exact absurd rfl answer
  | mmEncoded _ _ | mmFailed _ => exact ⟨rfl, rfl⟩

/-- Encoder answers carry no request. -/
theorem takeMm (tokens : Tokens none (event :: rest) pool pending phase)
    (answer : event.mmRid ≠ none) : Tokens none rest pool pending phase :=
  tokens.take (by simp [countP_mm answer]) (by simp [countP_mm answer])

section

include tokens

/-- They may be added. -/
theorem appendMm (answer : event.mmRid ≠ none) :
    Tokens none (inbox ++ [event]) pool pending phase where
  fresh rid := by simpa [(countP_mm answer rid).1] using tokens.fresh rid
  inside rid := by simpa [copies, (countP_mm answer rid).2] using tokens.inside rid
  intakes other member := by
    rcases mem_append.mp member with old | new
    · exact tokens.intakes other old
    · rw [← mem_singleton.mp new] at answer
      exact absurd rfl answer
  returns other member := by
    rcases mem_append.mp member with old | new
    · exact tokens.returns other old
    · rw [← mem_singleton.mp new] at answer
      exact absurd rfl answer
  pooled := tokens.pooled
  parked := tokens.parked

/-- A parked request is taken in hand. -/
theorem unpark (parked : pending rid = some req) :
    Tokens (some (rid, .intake)) inbox pool (update pending rid none) phase :=
  { tokens with
    fresh other := by
      rw [inHand_of_ne_phase _ _ (by decide)]
      exact tokens.fresh other
    inside other := by
      have before := tokens.inside other
      by_cases same : other = rid
      · subst same
        rw [copies, parkedCount_of_some parked, inHand_none] at before
        rw [copies, parkedCount_update_none_self, inHand_self]
        omega
      · rw [copies, parkedCount_update_of_ne _ _ same, inHand_of_ne_rid _ _ same]
        exact before
    parked other stored found := by
      by_cases same : other = rid
      · rw [same, update_self] at found
        cases found
      · rw [update_of_ne same] at found
        exact tokens.parked other stored found }

end

/-- A request in hand moves on to another phase, in hand or not. -/
theorem rephase {held : Option (ℕ × Phase)} {now next : Phase}
    (tokens : Tokens (some (rid, now)) inbox pool pending phase)
    (owned : now = .received ∨ now = .intake)
    (others : ∀ other, other ≠ rid → ∀ phase, inHand held other phase = 0)
    (fresh : inHand held rid .received = if next = .received then 1 else 0)
    (inside : inHand held rid .intake = if next = .intake then 1 else 0) :
    Tokens held inbox pool pending (update phase rid next) := by
  obtain ⟨-, noIntake, noCopy⟩ := tokens.of_held owned
  refine ⟨?_, ?_, tokens.intakes, tokens.returns, tokens.pooled, tokens.parked⟩
  · intro other
    by_cases same : other = rid
    · subst same
      rw [noIntake, zero_add, fresh, update_self]
    · have before := tokens.fresh other
      rw [inHand_of_ne_rid _ _ same] at before
      rw [others other same, update_of_ne same]
      exact before
  · intro other
    by_cases same : other = rid
    · subst same
      rw [noCopy, zero_add, inside, update_self]
    · have before := tokens.inside other
      rw [inHand_of_ne_rid _ _ same] at before
      rw [others other same, update_of_ne same]
      exact before

/-- A registered request is in the intake. -/
theorem register (tokens : Tokens (some (rid, .received)) inbox pool pending phase) :
    Tokens (some (rid, .intake)) inbox pool pending (update phase rid .intake) :=
  tokens.rephase (.inl rfl) (fun _ ne _ => inHand_of_ne_rid _ _ ne) (by simp [inHand])
    (by simp [inHand])

/-- A request in hand leaves the intake stages. -/
theorem settle {now : Phase} (tokens : Tokens (some (rid, now)) inbox pool pending phase)
    (owned : now = .received ∨ now = .intake) (next : Phase)
    (left : next ≠ .received ∧ next ≠ .intake) :
    Tokens none inbox pool pending (update phase rid next) :=
  tokens.rephase owned (fun _ _ _ => rfl) (if_neg left.1).symm (if_neg left.2).symm

/-- The request in hand goes to the pool. -/
theorem toPool (tokens : Tokens (some (rid, .intake)) inbox pool pending phase)
    (same : req.rid = rid) (state : req.state = .tokenizing) (kind : req.kind = .generate) :
    Tokens none inbox (pool ++ [req]) pending phase where
  fresh other := by
    have before := tokens.fresh other
    rw [inHand_of_ne_phase _ _ (by decide)] at before
    exact before
  inside other := by
    have before := tokens.inside other
    have grown : copies inbox (pool ++ [req]) pending other =
        copies inbox pool pending other + if req.rid = other then 1 else 0 := by
      simp only [copies, countP_append, countP_singleton, Request.isFor, beq_iff_eq]
      omega
    rw [grown]
    by_cases own : other = rid
    · subst own
      rw [inHand_self] at before
      rw [if_pos same]
      exact before
    · rw [inHand_of_ne_rid _ _ own] at before
      rw [if_neg (fun equal => own (equal.symm.trans same))]
      exact before
  intakes := tokens.intakes
  returns := tokens.returns
  pooled other member := by
    rcases mem_append.mp member with old | new
    · exact tokens.pooled other old
    · rw [mem_singleton.mp new]
      exact ⟨state, kind⟩
  parked := tokens.parked

/-- Or it is parked. -/
theorem park (tokens : Tokens (some (rid, .intake)) inbox pool pending phase)
    (same : req.rid = rid) (state : req.state = .encoding) (kind : req.kind = .generate) :
    Tokens none inbox pool (update pending rid (some req)) phase where
  fresh other := by
    have before := tokens.fresh other
    rw [inHand_of_ne_phase _ _ (by decide)] at before
    exact before
  inside other := by
    by_cases own : other = rid
    · subst own
      obtain ⟨now, -, none⟩ := tokens.of_held (.inr rfl)
      rw [copies] at none
      rw [copies, parkedCount_update_some_self, inHand_none, if_pos now]
      omega
    · have before := tokens.inside other
      rw [inHand_of_ne_rid _ _ own] at before
      rw [copies, parkedCount_update_of_ne _ _ own]
      exact before
  intakes := tokens.intakes
  returns := tokens.returns
  pooled := tokens.pooled
  parked other stored found := by
    by_cases own : other = rid
    · rw [own, update_self] at found
      cases found
      exact ⟨same.trans own.symm, state, kind⟩
    · rw [update_of_ne own] at found
      exact tokens.parked other stored found

include tokens in
/-- A tokenizer worker's answer moves the request back to the inbox. -/
theorem returned {answer : Request} (member : req ∈ pool) (same : answer.rid = req.rid)
    (state : answer.state = .preSendValidating ∨ answer.state = .failed) :
    Tokens none (inbox ++ [.tokenized answer]) (pool.erase req) pending phase where
  fresh other := by simpa [TmEvent.isIntake] using tokens.fresh other
  inside other := by
    have before := tokens.inside other
    have moved : pool.countP (Request.isFor other) =
        (if req.rid = other then 1 else 0) + (pool.erase req).countP (Request.isFor other) := by
      rw [(perm_cons_erase member).countP_eq, countP_cons, Request.isFor]
      simp only [beq_iff_eq]
      omega
    rw [copies] at before
    rw [copies, countP_append, countP_singleton]
    simp only [TmEvent.isTokenized, same, beq_iff_eq]
    omega
  intakes other found := by
    rcases mem_append.mp found with old | new
    · exact tokens.intakes other old
    · exact absurd (mem_singleton.mp new) (by simp)
  returns other found := by
    rcases mem_append.mp found with old | new
    · exact tokens.returns other old
    · rw [TmEvent.tokenized.inj (mem_singleton.mp new)]
      exact state
  pooled := fun other found => tokens.pooled other (mem_of_mem_erase found)
  parked := tokens.parked

end Tokens

/-! ## Parked requests have a worker -/

/-- A parked request is with a multimodal worker, or its answer is in the inbox. -/
def Attended (pending : ℕ → Option Request) (mmPool : List ℕ) (inbox : List TmEvent) : Prop :=
  ∀ rid, (pending rid).isSome → rid ∈ mmPool ∨ ∃ event ∈ inbox, event.mmRid = some rid

namespace Attended

variable {pending : ℕ → Option Request} {mmPool : List ℕ} {inbox rest : List TmEvent}
  {rid : ℕ} {event : TmEvent}

variable (attended : Attended pending mmPool inbox)

include attended in
/-- Events keep parked requests attended. -/
theorem append (event : TmEvent) : Attended pending mmPool (inbox ++ [event]) := by
  intro rid parked
  rcases attended rid parked with working | ⟨answer, member, about⟩
  · exact .inl working
  · exact .inr ⟨answer, mem_append_left _ member, about⟩

/-- So do events that are no encoder answers. -/
theorem take (attended : Attended pending mmPool (event :: rest))
    (other : event.mmRid = none) : Attended pending mmPool rest := by
  intro rid parked
  rcases attended rid parked with working | ⟨answer, member, about⟩
  · exact .inl working
  · rcases mem_cons.mp member with rfl | later
    · rw [other] at about
      cases about
    · exact .inr ⟨answer, later, about⟩

/-- Handling an answer removes the entry it is about. -/
theorem takeMm (attended : Attended pending mmPool (event :: rest))
    (about : event.mmRid = some rid) :
    Attended (update pending rid none) mmPool rest := by
  intro other parked
  by_cases same : other = rid
  · rw [same, update_self] at parked
    cases parked
  · rw [update_of_ne same] at parked
    rcases attended other parked with working | ⟨answer, member, named⟩
    · exact .inl working
    · rcases mem_cons.mp member with rfl | later
      · rw [about] at named
        exact absurd (some.inj named).symm same
      · exact .inr ⟨answer, later, named⟩

section

include attended

/-- So does taking one. -/
theorem unpark (rid : ℕ) : Attended (update pending rid none) mmPool inbox := by
  intro other parked
  by_cases same : other = rid
  · rw [same, update_self] at parked
    cases parked
  · rw [update_of_ne same] at parked
    exact attended other parked

/-- A parked request is in the encoder's pool. -/
theorem park (rid : ℕ) (req : Request) :
    Attended (update pending rid (some req)) (mmPool ++ [rid]) inbox := by
  intro other parked
  by_cases same : other = rid
  · exact .inl (mem_append_right _ (mem_singleton.mpr same))
  · rw [update_of_ne same] at parked
    exact (attended other parked).imp_left (mem_append_left _)

/-- A worker's answer takes the worker's place. -/
theorem answered (about : event.mmRid = some rid) :
    Attended pending (mmPool.erase rid) (inbox ++ [event]) := by
  intro other parked
  by_cases same : other = rid
  · exact .inr ⟨event, by simp, by rw [about, same]⟩
  · rcases attended other parked with working | ⟨answer, member, named⟩
    · exact .inl ((mem_erase_of_ne same).mpr working)
    · exact .inr ⟨answer, mem_append_left _ member, named⟩

end

end Attended

end AvaServe.Frontend
