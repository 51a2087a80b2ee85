import AvaServe.Disaggregation.StagingAllocator
import AvaServe.Foundation.MaxRegister

/-!
# Watermarks between the decode and the prefill side

The decode side owns the ring and broadcasts its watermark after each free and to
each new subscriber. A prefill keeps the largest watermark that reached it, per
session, and asks before it writes into a region. Messages may be lost, delayed,
reordered or repeated.
-/

namespace AvaServe.Disaggregation

open Foundation Function List

/-- The part of a prefill's staging context the watermark code reads. -/
structure StagingState (Session : Type*) where
  remoteWatermarks : Finmap fun _ : Session => ℕ ×ₗ ℕ

variable {Peer Session : Type*} [DecidableEq Peer] [DecidableEq Session]
  (state : StagingState Session)

namespace StagingState

/-- The watermark on record for a session. -/
def known (state : StagingState Session) (session : Session) : ℕ ×ₗ ℕ :=
  (state.remoteWatermarks.lookup session).getD (toLex (0, 0))

/-- Is the staging region safe to write? -/
def isWatermarkReady (state : StagingState Session) (session : Session)
    (allocRound allocEnd : ℕ) : Bool :=
  if allocRound ≤ 0 then
    true
  else
    let prevRound := allocRound - 1
    let (wmRound, wmTail) := ofLex (state.known session)
    decide (prevRound < wmRound) || decide (prevRound = wmRound) && decide (allocEnd ≤ wmTail)

/-- Process a watermark message. -/
def handleWatermarkMsg (state : StagingState Session) (session : Session) (wm : ℕ ×ₗ ℕ) :
    StagingState Session :=
  if state.known session < wm then
    { remoteWatermarks := state.remoteWatermarks.insert session wm }
  else
    state

/-- A message raises one session's watermark. -/
theorem known_handleWatermarkMsg (session other : Session) (wm : ℕ ×ₗ ℕ) :
    (state.handleWatermarkMsg session wm).known other =
      if other = session then follow (state.known session) wm else state.known other := by
  unfold handleWatermarkMsg follow
  by_cases newer : state.known session < wm
  · rw [if_pos newer]
    split
    next same =>
      subst same
      rw [known, Finmap.lookup_insert, Option.getD_some]
    next differs => rw [known, Finmap.lookup_insert_of_ne _ differs, known]
  · rw [if_neg newer]
    split
    next same => rw [same]
    · rfl

/-- The answer is yes for the first round, and otherwise when the watermark has
passed the end of the region one round back. -/
theorem isWatermarkReady_iff (session : Session) (region : Region) :
    state.isWatermarkReady session region.round (region.offset + region.size) = true ↔
      region.round = 0 ∨
        toLex (region.round - 1, region.offset + region.size) ≤ state.known session := by
  obtain ⟨wm, knownEq⟩ : ∃ wm : ℕ × ℕ, state.known session = toLex wm := ⟨_, rfl⟩
  unfold isWatermarkReady
  rw [knownEq, Prod.Lex.toLex_le_toLex]
  split
  next first => exact ⟨fun _ => .inl (Nat.le_zero.mp first), fun _ => rfl⟩
  next later =>
    rw [or_iff_right fun first => later (Nat.le_zero.mpr first)]
    change (decide (region.round - 1 < wm.1) || decide (region.round - 1 = wm.1) &&
      decide (region.offset + region.size ≤ wm.2)) = true ↔ _
    simp

end StagingState

/-- The decode side, the prefills and the messages that were ever sent. A
subscriber is the list of peers its receiver is connected to, with a session.
`declared` lists the allocations whose region some prefill found ready. -/
structure StagingSystem (Peer Session : Type*) where
  allocator : StagingAllocator
  subscribers : List (List Peer × Session)
  sent : List ((Peer × Session) × (ℕ ×ₗ ℕ))
  prefill : Peer → StagingState Session
  declared : List ℕ

/-- `deliver` hands over the message with the given index among those sent,
`check` is a prefill asking for the region of an allocation. -/
inductive StagingAction (Peer Session : Type*)
  | assign (requiredBytes : ℕ)
  | free (allocId : ℕ)
  | registerWmSubscriber (bootstrapInfos : List Peer) (session : Session)
  | deliver (index : ℕ)
  | check (peer : Peer) (session : Session) (allocId : ℕ)

namespace StagingSystem

/-- A ring nobody has subscribed to. -/
def new (totalSize : ℕ) : StagingSystem Peer Session :=
  { allocator := .new totalSize
    subscribers := []
    sent := []
    prefill := fun _ => ⟨∅⟩
    declared := [] }

variable (system : StagingSystem Peer Session)

/-- Send the current watermark to every peer of some subscribers. -/
def sendWatermark
    (receivers : List (List Peer × Session)) : StagingSystem Peer Session :=
  { system with
    sent := system.sent ++
      (receivers.flatMap fun receiver => receiver.1.map fun peer => (peer, receiver.2)).map
        fun target => (target, system.allocator.getWatermark) }

/-- Register a prefill's connections for broadcasts and send it the current
watermark, unless these connections are registered already. -/
def registerWmSubscriber (bootstrapInfos : List Peer)
    (session : Session) : StagingSystem Peer Session :=
  if bootstrapInfos = [] then
    system
  else if bootstrapInfos ∈ system.subscribers.map Prod.fst then
    system
  else
    { system with
      subscribers := system.subscribers ++ [(bootstrapInfos, session)]
    }.sendWatermark [(bootstrapInfos, session)]

/-- Free an allocation and broadcast the watermark to all prefills. -/
def freeAndSendWatermark (allocId : ℕ) : StagingSystem Peer Session :=
  { system with
    allocator := system.allocator.free allocId
  }.sendWatermark system.subscribers

/-- The prefill looks up the round and the end it was told for an allocation. -/
def ready (peer : Peer) (session : Session)
    (region : Region) : Bool :=
  (system.prefill peer).isWatermarkReady session region.round (region.offset + region.size)

/-- A message reaches its prefill. -/
def deliver
    (message : (Peer × Session) × (ℕ ×ₗ ℕ)) : StagingSystem Peer Session :=
  { system with
    prefill := update system.prefill message.1.1
      ((system.prefill message.1.1).handleWatermarkMsg message.1.2 message.2) }

/-- A prefill asks for an allocation whose region is the given one. -/
def check (peer : Peer) (session : Session)
    (allocId : ℕ) (region : Region) : StagingSystem Peer Session :=
  if system.ready peer session region then
    { system with declared := allocId :: system.declared }
  else
    system

/-- One action. -/
def step : StagingAction Peer Session → StagingSystem Peer Session
  | .assign requiredBytes => { system with allocator := (system.allocator.assign requiredBytes).2 }
  | .free allocId => system.freeAndSendWatermark allocId
  | .registerWmSubscriber bootstrapInfos session =>
    system.registerWmSubscriber bootstrapInfos session
  | .deliver index => (system.sent[index]?).elim system system.deliver
  | .check peer session allocId =>
    (system.allocator.live allocId).elim system (system.check peer session allocId)

/-- Actions in order. -/
def run (actions : List (StagingAction Peer Session)) : StagingSystem Peer Session :=
  actions.foldl step system

/-- The watermark a prefill has on record for each of its sessions. -/
def knownBy (target : Peer × Session) : ℕ ×ₗ ℕ := (system.prefill target.1).known target.2

/-- Declared allocations that are not freed lie apart from every older live one. -/
def DeclaredApart : Prop :=
  ∀ newer ∈ system.declared, ∀ later, system.allocator.live newer = some later →
    ∀ older < newer, ∀ earlier, system.allocator.live older = some earlier →
      Disjoint later.bytes earlier.bytes

/-- Declared allocations were handed out. -/
structure Safe (system : StagingSystem Peer Session) : Prop where
  ordered : system.allocator.Ordered
  trails : Trails system.sent system.knownBy system.allocator.watermark
  issued : ∀ id ∈ system.declared, id < system.allocator.nextAllocId
  apart : system.DeclaredApart

variable {system : StagingSystem Peer Session}

omit [DecidableEq Peer] in
/-- A new system is safe. -/
theorem safe_new (totalSize : ℕ) : (new totalSize : StagingSystem Peer Session).Safe where
  ordered := StagingAllocator.ordered_new totalSize
  trails :=
    { sent_le := forall_mem_nil _
      known_le := fun _ => le_refl _ }
  issued := forall_mem_nil _
  apart := forall_mem_nil _

variable (safe : system.Safe)

section

include safe

omit [DecidableEq Peer] in
/-- A region found ready lies apart from every older live region: what the prefill
knows is at most the watermark, and no live region lies before the watermark. -/
theorem Safe.apart_of_ready {peer : Peer} {session : Session} {newer older : ℕ}
    {later earlier : Region} (foundNewer : system.allocator.live newer = some later)
    (ready : system.ready peer session later = true) (less : older < newer)
    (foundOlder : system.allocator.live older = some earlier) :
    Disjoint later.bytes earlier.bytes := by
  have before := safe.ordered.before older newer earlier later less foundOlder foundNewer
  by_cases same : earlier.round = later.round
  · exact before.disjoint_of_round_eq same
  have lower : earlier.round < later.round := before.resolve_right fun both => same both.1
  obtain first | passed := (StagingState.isWatermarkReady_iff ..).mp ready
  · omega
  · have reached : toLex (later.round - 1, later.offset + later.size) ≤ earlier.position :=
      passed.trans
        ((safe.trails.known_le (peer, session)).trans (safe.ordered.watermark_le foundOlder))
    rw [Region.position, Prod.Lex.toLex_le_toLex] at reached
    rw [Region.bytes, Region.bytes, Set.Ico_disjoint_Ico]
    omega

omit [DecidableEq Peer] in
/-- Sending copies of the watermark changes nothing else. -/
theorem Safe.sendWatermark (receivers : List (List Peer × Session)) :
    (system.sendWatermark receivers).Safe :=
  { safe with
    trails := safe.trails.send _ }

/-- An assignment keeps it safe. -/
theorem Safe.assign (requiredBytes : ℕ) : (system.step (.assign requiredBytes)).Safe := by
  obtain fits | oversized := le_or_gt requiredBytes system.allocator.totalSize
  swap
  · have same : system.step (.assign requiredBytes) = system := by
      rw [step, StagingAllocator.assign_of_oversized oversized]
    rw [same]
    exact safe
  have live := @StagingAllocator.live_assign system.allocator requiredBytes fits
  exact
    { ordered := safe.ordered.assign requiredBytes
      trails := by
        have same := StagingAllocator.watermark_assign system.allocator requiredBytes
        exact safe.trails.grow same.ge
      issued id member := by
        refine (safe.issued id member).trans ?_
        rw [step, StagingAllocator.assign_of_fits fits]
        exact Nat.lt_succ_self _
      apart newer member later foundNewer older less earlier foundOlder := by
        have issued := safe.issued newer member
        have foundNewer := (live newer).symm.trans foundNewer
        have foundOlder := (live older).symm.trans foundOlder
        rw [if_neg issued.ne] at foundNewer
        rw [if_neg (less.trans issued).ne] at foundOlder
        exact safe.apart newer member later foundNewer older less earlier foundOlder }

/-- So does freeing. -/
theorem Safe.free (allocId : ℕ) : (system.step (.free allocId)).Safe := by
  have live := StagingAllocator.live_free safe.ordered allocId
  have still : ∀ {id region}, (system.allocator.free allocId).live id = some region →
      system.allocator.live id = some region := by
    intro id region found
    rw [live id] at found
    split at found
    · cases found
    · exact found
  refine Safe.sendWatermark ?_ _
  exact
    { ordered := safe.ordered.free allocId
      trails := safe.trails.grow (StagingAllocator.watermark_le_free safe.ordered allocId)
      issued id member := by
        have kept : (system.allocator.free allocId).nextAllocId = system.allocator.nextAllocId :=
          StagingAllocator.nextAllocId_free _ _
        exact (safe.issued id member).trans_eq kept.symm
      apart := fun newer member later foundNewer older less earlier foundOlder =>
        safe.apart newer member later (still foundNewer) older less earlier (still foundOlder) }

/-- So does a subscription. -/
theorem Safe.registerWmSubscriber (bootstrapInfos : List Peer)
    (session : Session) : (system.registerWmSubscriber bootstrapInfos session).Safe := by
  unfold StagingSystem.registerWmSubscriber
  split
  · exact safe
  split
  · exact safe
  refine Safe.sendWatermark ?_ _
  exact ⟨safe.ordered, safe.trails, safe.issued, safe.apart⟩

end

/-- A delivered message updates the record of its peer and session. -/
theorem knownBy_deliver (system : StagingSystem Peer Session)
    (message : (Peer × Session) × (ℕ ×ₗ ℕ)) :
    (system.deliver message).knownBy = update system.knownBy message.1
        (follow (system.knownBy message.1) message.2) := by
  obtain ⟨⟨peer, session⟩, wm⟩ := message
  funext ⟨target, other⟩
  rw [update_apply]
  unfold knownBy deliver
  dsimp only
  by_cases samePeer : target = peer
  · subst samePeer
    rw [update_self, StagingState.known_handleWatermarkMsg]
    by_cases same : other = session
    · rw [if_pos same, if_pos (by rw [same])]
    · rw [if_neg same, if_neg fun pair => same (Prod.ext_iff.mp pair).2]
  · rw [update_of_ne samePeer, if_neg fun pair => samePeer (Prod.ext_iff.mp pair).1]

variable (actions : List (StagingAction Peer Session)) (action : StagingAction Peer Session)
  {region : Region}

section

include safe

/-- So does a delivery. -/
theorem Safe.deliver {message : (Peer × Session) × (ℕ ×ₗ ℕ)}
    (member : message ∈ system.sent) : (system.deliver message).Safe :=
  { safe with
    trails := by
      rw [knownBy_deliver]
      exact safe.trails.deliver member }

omit [DecidableEq Peer] in
/-- So does a check. -/
theorem Safe.check (peer : Peer) (session : Session) {allocId : ℕ}
    (found : system.allocator.live allocId = some region) :
    (system.check peer session allocId region).Safe := by
  unfold StagingSystem.check
  split
  swap
  · exact safe
  rename_i ready
  refine ⟨safe.ordered, safe.trails, ?_, ?_⟩
  · intro id member
    obtain rfl | earlier := mem_cons.mp member
    · exact safe.ordered.numbered id (safe.ordered.listed id region found)
    · exact safe.issued id earlier
  · intro newer member later foundNewer older less earlier foundOlder
    obtain rfl | declared := mem_cons.mp member
    · obtain rfl := Option.some.inj (found.symm.trans foundNewer)
      exact safe.apart_of_ready found ready less foundOlder
    · exact safe.apart newer declared later foundNewer older less earlier foundOlder

/-- So does every action. -/
theorem Safe.step : (system.step action).Safe := by
  cases action with
  | assign requiredBytes => exact safe.assign requiredBytes
  | free allocId => exact safe.free allocId
  | registerWmSubscriber bootstrapInfos session =>
    exact safe.registerWmSubscriber bootstrapInfos session
  | deliver index =>
    change ((system.sent[index]?).elim system system.deliver).Safe
    cases found : system.sent[index]? with
    | none => exact safe
    | some message => exact safe.deliver (mem_of_getElem? found)
  | check peer session allocId =>
    change ((system.allocator.live allocId).elim system (system.check peer session allocId)).Safe
    cases found : system.allocator.live allocId with
    | none => exact safe
    | some region => exact safe.check peer session found

/-- So does every run. -/
theorem Safe.run : (system.run actions).Safe := by
  induction actions generalizing system with
  | nil => exact safe
  | cons action rest ih => exact ih (safe.step action)

end

omit [DecidableEq Session] in
/-- A subscription keeps the ring. -/
theorem allocator_registerWmSubscriber (system : StagingSystem Peer Session)
    (bootstrapInfos : List Peer) (session : Session) :
    (system.registerWmSubscriber bootstrapInfos session).allocator = system.allocator := by
  unfold StagingSystem.registerWmSubscriber
  split
  · rfl
  · split <;> rfl

section

include safe

/-- Messages and questions leave the ring as it is. -/
theorem watermark_le_step :
    system.allocator.getWatermark ≤ (system.step action).allocator.getWatermark := by
  cases action with
  | assign requiredBytes =>
    exact (StagingAllocator.watermark_assign system.allocator requiredBytes).ge
  | free allocId => exact StagingAllocator.watermark_le_free safe.ordered allocId
  | registerWmSubscriber bootstrapInfos session =>
    have same := allocator_registerWmSubscriber system bootstrapInfos session
    exact (congrArg StagingAllocator.getWatermark same).ge
  | deliver index =>
    have same : ((system.sent[index]?).elim system system.deliver).allocator =
        system.allocator := by
      cases system.sent[index]? <;> rfl
    exact (congrArg StagingAllocator.getWatermark same).ge
  | check peer session allocId =>
    have same : ((system.allocator.live allocId).elim system
        (system.check peer session allocId)).allocator = system.allocator := by
      cases system.allocator.live allocId with
      | none => rfl
      | some region =>
        dsimp only [Option.elim, check]
        split <;> rfl
    exact (congrArg StagingAllocator.getWatermark same).ge

/-- The watermark never goes back. -/
theorem watermark_le_run :
    system.allocator.getWatermark ≤ (system.run actions).allocator.getWatermark := by
  induction actions generalizing system with
  | nil => exact le_refl _
  | cons action rest ih => exact (watermark_le_step safe action).trans (ih (safe.step action))

omit [DecidableEq Peer] in
/-- The oldest live region is ready for whoever knows the current watermark. -/
theorem Safe.oldest_ready {id : ℕ} (found : system.allocator.live id = some region)
    (oldest : ∀ other < id, system.allocator.live other = none) (state : StagingState Session)
    (session : Session) (current : state.known session = system.allocator.getWatermark) :
    state.isWatermarkReady session region.round (region.offset + region.size) = true := by
  rw [StagingState.isWatermarkReady_iff, current, StagingAllocator.getWatermark,
    safe.ordered.watermark_eq found oldest, Region.position, Prod.Lex.toLex_le_toLex]
  omega

end

/-- In every state some actions lead to, with messages lost, late, reordered or
repeated: a live region found ready lies apart from every older live region, two
live allocations that were both declared ready lie apart, the watermark never
moves back, and the oldest live region is ready under the current watermark. -/
theorem staging_ring_safe (totalSize : ℕ) (actions : List (StagingAction Peer Session)) :
    let system := (new totalSize : StagingSystem Peer Session).run actions
    (∀ peer session newer later older earlier, system.allocator.live newer = some later →
      system.ready peer session later = true → older < newer →
      system.allocator.live older = some earlier → Disjoint later.bytes earlier.bytes) ∧
    (∀ first ∈ system.declared, ∀ second ∈ system.declared, first ≠ second →
      ∀ one other, system.allocator.live first = some one →
        system.allocator.live second = some other → Disjoint one.bytes other.bytes) ∧
    (∀ more, system.allocator.getWatermark ≤ (system.run more).allocator.getWatermark) ∧
    ∀ id region, system.allocator.live id = some region →
      (∀ older < id, system.allocator.live older = none) →
      ∀ (state : StagingState Session) (session : Session),
        state.known session = system.allocator.getWatermark →
        state.isWatermarkReady session region.round (region.offset + region.size) = true := by
  intro system
  have safe : system.Safe := (safe_new totalSize).run actions
  refine ⟨?_, ?_, watermark_le_run safe, ?_⟩
  · intro peer session newer later older earlier foundNewer ready less foundOlder
    exact safe.apart_of_ready foundNewer ready less foundOlder
  · intro first declaredFirst second declaredSecond distinct one other foundFirst foundSecond
    obtain less | less := Nat.lt_or_gt_of_ne distinct
    · exact (safe.apart second declaredSecond other foundSecond first less one foundFirst).symm
    · exact safe.apart first declaredFirst one foundFirst second less other foundSecond
  · intro id region found oldest state session current
    exact safe.oldest_ready found oldest state session current

/-- Three regions of four bytes in a ring of eight: the third reuses the bytes of
the first, which was freed. -/
def wrapped : List (StagingAction ℕ ℕ) :=
  [.assign 4, .assign 4, .registerWmSubscriber [0] 0, .assign 4, .free 0, .deliver 1,
    .check 0 0 1, .check 0 0 2]

/-- A ring that wraps. -/
theorem staging_ring_safe_wrapped : let system := (new 8).run wrapped
    system.ready 0 0 ⟨0, 4, 1⟩ = true ∧ system.declared = [2, 1] ∧
      Disjoint (Region.bytes ⟨0, 4, 1⟩) (Region.bytes ⟨4, 4, 0⟩) ∧
      StagingState.isWatermarkReady (system.prefill 0) 0 0 8 = true := by
  have safe := staging_ring_safe 8 wrapped
  exact ⟨by decide +kernel, by decide +kernel,
    safe.2.1 2 (by decide +kernel) 1 (by decide +kernel) (by decide) ⟨0, 4, 1⟩ ⟨4, 4, 0⟩
      (by decide +kernel) (by decide +kernel),
    safe.2.2.2 1 ⟨4, 4, 0⟩ (by decide +kernel) (by decide +kernel) _ 0 (by decide +kernel)⟩

end StagingSystem

end AvaServe.Disaggregation
