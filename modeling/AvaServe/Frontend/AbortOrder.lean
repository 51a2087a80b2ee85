import AvaServe.Frontend.LifecycleSound

/-!
# Aborted requests and the scheduler

The intake loop serves its two lanes in any order, so that an abort may overtake its own
request. Two facts about all runs are proved here. A sink gets at most one terminal item,
whatever the order. A request whose guard was dropped leaves no multimodal state behind, and
its generation is aborted, in every run whose aborts are taken while the request is not in
transit to the loop; an abort that overtakes its request leaves the scheduler generating.
-/

namespace AvaServe.Frontend

open Foundation List Function Option

namespace Server

variable {server : Server} {req : Request} {mmFull : Bool}

/-! ## Aborts and the order of pushes -/

variable {item : SchedulerRequest} {rid : ℕ}

/-- An abort covers what comes before it. -/
theorem Covered.push {log : List SchedulerRequest} (covered : item = .abort rid ∨ Covered rid log)
    (other : item ≠ .generate rid) : Covered rid (log ++ [item]) := by
  intro before after split
  rcases eq_nil_or_concat after with rfl | ⟨initial, final, rfl⟩
  · have last := append_inj' split rfl
    exact absurd (singleton_inj.mp last.2) other
  · have parts : log ++ [item] = (before ++ .generate rid :: initial) ++ [final] := by
      simpa using split
    obtain ⟨front, last⟩ := append_inj' parts rfl
    rcases covered with rfl | covered
    · rw [← singleton_inj.mp last]
      simp
    · simpa using .inl (covered before initial front)

/-- What holds of one request: a parked result has a reader, a dropped guard's abort is not
lost, and once the abort was handled nothing pushes the request after it. `exempt` is the
request whose parked result the intake loop has in hand. -/
structure Watch (rid : ℕ) (exempt : Option ℕ) (server : Server) : Prop where
  sidecar : server.sidecar rid = true →
    (∃ ids, .mmEncoded rid ids ∈ server.inbox) ∨ .generate rid ∈ server.ring ∨ exempt = some rid
  dropped : server.dropped rid = true → .guard rid ∈ server.abortLane ∨ server.aborted rid = true
  known : .guard rid ∈ server.abortLane ∨ server.armed rid = true → server.phase rid ≠ .absent
  settled : server.aborted rid = true →
    server.phase rid = .handed ∨ server.phase rid = .failed ∨ server.phase rid = .cancelled
  covered : server.aborted rid = true → Covered rid server.log

namespace Watch

variable {rid : ℕ} {exempt : Option ℕ}

/-- A new server is watched. -/
theorem new (rid : ℕ) (mmEnabled : Bool) (shard : ℕ → ℕ) :
    Watch rid none (Server.new mmEnabled shard) where
  sidecar := by simp [Server.new]
  dropped := by simp [Server.new]
  known := by simp [Server.new]
  settled := by simp [Server.new]
  covered := by simp [Server.new]

variable {next : Server} (other : ℕ)

section

variable (watch : Watch rid exempt server)
include watch

/-- The facts about phases survive a request moving on, unless it was aborted and stays. -/
theorem phase_update (next : Phase) (other : ℕ) (present : next ≠ .absent)
    (onward : rid = other → server.aborted rid = true → next = .handed ∨ next = .failed ∨ next =
      .cancelled) : (.guard rid ∈ server.abortLane ∨ server.armed rid = true →
      update server.phase other next rid ≠ .absent) ∧
    (server.aborted rid = true → update server.phase other next rid = .handed ∨
      update server.phase other next rid = .failed ∨
      update server.phase other next rid = .cancelled) := by
  by_cases same : rid = other
  · have moved : update server.phase other next rid = next := by rw [same, update_self]
    rw [moved]
    exact ⟨fun _ => present, onward same⟩
  · rw [update_of_ne same]
    exact ⟨watch.known, watch.settled⟩

/-- A rejected request leaves no parked result. -/
theorem purged {other : ℕ} (own : exempt = none ∨ exempt = some other) :
    update server.sidecar other false rid = true →
      (∃ ids, .mmEncoded rid ids ∈ server.inbox) ∨ .generate rid ∈ server.ring ∨
        (none : Option ℕ) = some rid := by
  intro parked
  by_cases same : rid = other
  · rw [same, update_self] at parked
    cases parked
  · rw [update_of_ne same] at parked
    rcases watch.sidecar parked with waiting | pushed | exempted
    · exact .inl waiting
    · exact .inr (.inl pushed)
    · rcases own with none | self
      · rw [none] at exempted
        cases exempted
      · rw [self] at exempted
        exact absurd (some.inj exempted).symm same

/-- Messages to a shard keep the watch. -/
theorem sent (msg : DetokMsg) : Watch rid exempt (server.detokFor other msg) := { watch with }

/-- So does a failure. -/
theorem fail (own : exempt = none ∨ exempt = some req.rid)
    (registered : Bool) : Watch rid none (server.fail req registered) := by
  obtain ⟨known, settled⟩ := watch.phase_update .failed req.rid nofun fun _ _ => .inr (.inl rfl)
  have rejected : Watch rid none
      (((server.purge req.rid).trySend req.rid .error false).setPhase req.rid .failed) :=
    ⟨watch.purged own, watch.dropped, known, settled, watch.covered⟩
  cases registered with
  | false => exact rejected
  | true => exact rejected.sent req.rid _

/-- A request inside the intake stages is not pushed after its abort. -/
theorem not_aborted {now : Phase} (here : server.phase rid = now)
    (early : ¬(now = .handed ∨ now = .failed ∨ now = .cancelled)) : ¬server.aborted rid = true :=
  fun aborted => early (here ▸ watch.settled aborted)

/-- So does an answer. -/
theorem answered (own : exempt = none ∨ exempt = some req.rid ∧ req.kind = .generate)
    (now : server.phase req.rid = .intake) (answered : Answered server req next) :
    Watch rid none next := by
  obtain ⟨known, settled⟩ := watch.phase_update .handed req.rid nofun fun _ _ => .inl rfl
  have unexempt : req.kind ≠ .generate → server.sidecar rid = true →
      (∃ ids, .mmEncoded rid ids ∈ server.inbox) ∨ .generate rid ∈ server.ring := by
    intro kind parked
    rcases own with rfl | ⟨-, generates⟩
    · simpa using watch.sidecar parked
    · exact absurd generates kind
  cases answered with
  | rejected => exact watch.fail (own.imp_right And.left) true
  | generate _ =>
    refine ⟨?_, watch.dropped, known, settled, ?_⟩
    · intro parked
      rcases watch.sidecar parked with waiting | pushed | exempted
      · exact .inl waiting
      · exact .inr (.inl (mem_append_left _ pushed))
      · rcases own with rfl | ⟨rfl, -⟩
        · cases exempted
        · rw [some.inj exempted]
          exact .inr (.inl (mem_append_right _ mem_cons_self))
    · intro aborted
      apply Covered.push (.inr (watch.covered aborted))
      intro same
      rw [SchedulerRequest.generate.inj same] at now
      exact watch.not_aborted now (by simp) aborted
  | control kind =>
    refine ⟨?_, watch.dropped, known, settled, ?_⟩
    · intro parked
      exact (unexempt kind parked).imp_right fun pushed => .inl (mem_append_left _ pushed)
    · exact fun aborted => Covered.push (.inr (watch.covered aborted)) (by simp)
  | decode kind =>
    refine ⟨?_, watch.dropped, known, settled, watch.covered⟩
    exact fun parked => (unexempt kind parked).imp_right .inl

end

/-- So does an outcome. -/
theorem outcome (watch : Watch rid none server) (now : server.phase req.rid = .intake)
    (outcome : Outcome server req next) : Watch rid none next := by
  cases outcome with
  | answered left => exact watch.answered (.inl rfl) now left
  | tokenizing held same state kind | parked held same state kind => exact { watch with }

/-- So does a registration. -/
theorem registerDetok (watch : Watch rid none server)
    (now : server.phase req.rid = .received) : Watch rid none (server.registerDetok req) := by
  obtain ⟨known, settled⟩ := watch.phase_update .intake req.rid nofun fun same aborted =>
    absurd aborted (watch.not_aborted (same ▸ now) (by simp))
  exact ⟨watch.sidecar, watch.dropped, known, settled, watch.covered⟩

/-- Handling an event of the inbox. -/
theorem onEvent {event : TmEvent} {rest : List TmEvent} (watch : Watch rid none server)
    (sound : Sound none server) (inbox : server.inbox = event :: rest) :
    Watch rid none ({ server with inbox := rest }.onEvent mmFull event) := by
  have tokens := sound.tokens
  rw [inbox] at tokens
  have rests (other : ∀ ids, .mmEncoded rid ids ≠ event) :
      Watch rid none { server with inbox := rest } := by
    refine ⟨?_, watch.dropped, watch.known, watch.settled, watch.covered⟩
    intro parked
    refine (watch.sidecar parked).imp_left fun ⟨ids, member⟩ => ⟨ids, ?_⟩
    rw [inbox] at member
    exact (mem_cons.mp member).resolve_left (other ids)
  have exempted : ∀ other, event.mmRid = some other →
      Watch rid (some other) { server with inbox := rest } := by
    intro other about
    refine ⟨?_, watch.dropped, watch.known, watch.settled, watch.covered⟩
    intro parked
    by_cases same : other = rid
    · exact .inr (.inr (congrArg some same))
    · have kept := (rests ?_).sidecar parked
      · exact kept.imp_right fun later => later.imp_right nofun
      · rintro ids rfl
        exact same (some.inj about).symm
  cases event with
  | intake req =>
    have held := rests (by simp)
    have now := (tokens.takeIntake.of_held (.inl rfl)).1
    have state := tokens.intakes req mem_cons_self
    rcases drive_received { server with inbox := rest } req mmFull state with failed | driven
    · rw [Server.onEvent, failed]
      exact held.fail (.inl rfl) false
    · refine (held.registerDetok now).outcome ?_ driven
      simp [Server.registerDetok, setPhase]
  | tokenized req =>
    have held := rests (by simp)
    exact held.answered (.inl rfl) (tokens.takeTokenized.of_held (.inr rfl)).1
      (drive_returned _ req mmFull (tokens.returns req mem_cons_self))
  | mmEncoded about ids =>
    have held := exempted about rfl
    cases parked : server.pendingMm about with
    | none =>
      rw [Server.onEvent, @onMmEncoded_of_none { server with inbox := rest } mmFull about parked]
      exact ⟨held.purged (.inr rfl), held.dropped, held.known, held.settled, held.covered⟩
    | some req =>
      obtain ⟨same, -, kind⟩ := tokens.parked about req parked
      subst same
      have unparked : Watch rid (some req.rid)
          ({ server with inbox := rest }.unpark req.rid) :=
        { held with }
      have now := ((sound.tokens.unpark parked).of_held (.inr rfl)).1
      exact unparked.answered (.inr ⟨rfl, kind⟩) now
        (@onMmEncoded_answered { server with inbox := rest } req mmFull req.rid parked kind ids)
  | mmFailed about =>
    have held := rests (by simp)
    cases parked : server.pendingMm about with
    | none =>
      rw [Server.onEvent, @onMmFailed_of_none { server with inbox := rest } about parked]
      exact held
    | some req =>
      have unparked : Watch rid none ({ server with inbox := rest }.unpark about) := { held with }
      rw [Server.onEvent, @onMmFailed_of_some { server with inbox := rest } req about parked]
      exact unparked.fail (.inl rfl) true

/-- A request that is known and not in transit has left the intake stages, or is parked. -/
theorem left_or_parked (sound : Sound none server) (known : server.phase rid ≠ .absent)
    (clear : ¬InTransit server rid) :
    (server.phase rid = .handed ∨ server.phase rid = .failed ∨ server.phase rid = .cancelled) ∨
      ∃ req, server.pendingMm rid = some req := by
  simp only [InTransit, not_or, not_exists, not_and] at clear
  have noIntake : server.inbox.countP (TmEvent.isIntake rid) = 0 := by
    rw [countP_eq_zero]
    intro event member
    cases event with
    | intake req =>
      intro found
      exact (clear.1 req (by simpa [TmEvent.isIntake] using found)).1 member
    | tokenized _ | mmEncoded _ _ | mmFailed _ => simp [TmEvent.isIntake]
  have noReturn : server.inbox.countP (TmEvent.isTokenized rid) = 0 := by
    rw [countP_eq_zero]
    intro event member
    cases event with
    | tokenized req =>
      intro found
      exact (clear.1 req (by simpa [TmEvent.isTokenized] using found)).2 member
    | intake _ | mmEncoded _ _ | mmFailed _ => simp [TmEvent.isTokenized]
  have noPool : server.tokenizerPool.countP (Request.isFor rid) = 0 := by
    rw [countP_eq_zero]
    intro req member found
    exact clear.2 req member (by simpa [Request.isFor] using found)
  have fresh := sound.tokens.fresh rid
  have inside := sound.tokens.inside rid
  rw [noIntake] at fresh
  rw [copies, noReturn, noPool] at inside
  cases phase : server.phase rid with
  | absent => exact absurd phase known
  | received => simp [phase] at fresh
  | intake =>
    right
    rw [phase] at inside
    cases parked : server.pendingMm rid with
    | none => simp [parkedCount, parked] at inside
    | some req => exact ⟨req, rfl⟩
  | handed => exact .inl (.inl rfl)
  | failed => exact .inl (.inr (.inl rfl))
  | cancelled => exact .inl (.inr (.inr rfl))

section

variable (watch : Watch rid none server)
include watch

/-- A parked result keeps its reader when the ring grows. -/
theorem sidecar_push (item : SchedulerRequest) (parked : server.sidecar rid = true) :
    (∃ ids, .mmEncoded rid ids ∈ server.inbox) ∨ .generate rid ∈ server.ring ++ [item] ∨
      (none : Option ℕ) = some rid :=
  (watch.sidecar parked).imp_right fun later => later.imp_left (mem_append_left _)

/-- The facts through the parts of `on_abort` that do not concern the guard. -/
theorem told :
    Watch rid none (((server.cancelParked other).detokFor other (.deregister other)).tryPush
      (.abort other)) := by
  have covered : server.aborted rid = true → Covered rid (server.log ++ [.abort other]) :=
    fun aborted => Covered.push (.inr (watch.covered aborted)) (by simp)
  cases parked : server.pendingMm other with
  | none =>
    rw [cancelParked_of_none parked]
    exact ⟨watch.sidecar_push _, watch.dropped, watch.known, watch.settled, covered⟩
  | some req =>
    obtain ⟨known, settled⟩ := watch.phase_update .cancelled other nofun fun _ _ => .inr (.inr rfl)
    rw [cancelParked_of_some parked]
    exact ⟨watch.sidecar_push _, watch.dropped, known, settled, covered⟩

/-- So does another's abort. -/
theorem setAborted {other : ℕ} (apart : rid ≠ other) :
    Watch rid none { server with aborted := update server.aborted other true } := by
  have flag : update server.aborted other true rid = server.aborted rid := update_of_ne apart _ _
  exact ⟨watch.sidecar, fun dropped => (watch.dropped dropped).imp_right flag.trans, watch.known,
    fun aborted => watch.settled (flag.symm.trans aborted),
    fun aborted => watch.covered (flag.symm.trans aborted)⟩

/-- Handling the next abort of the lane. -/
theorem onAbort {source : AbortSource} {rest : List AbortSource}
    (sound : Sound none server) (lane : server.abortLane = source :: rest)
    (timely : source = .guard rid → ¬InTransit server rid) :
    Watch rid none ({ server with abortLane := rest }.onAbort source) := by
  have popped : source ≠ .guard rid → Watch rid none { server with abortLane := rest } := by
    intro other
    refine ⟨watch.sidecar, ?_, ?_, watch.settled, watch.covered⟩
    · intro dropped
      refine (watch.dropped dropped).imp_left fun member => ?_
      rw [lane] at member
      exact (mem_cons.mp member).resolve_left fun same => other same.symm
    · intro waiting
      apply watch.known
      rw [lane]
      exact waiting.imp_left (mem_cons_of_mem _)
  cases source with
  | detok other => exact (popped (by simp)).told other
  | guard other =>
    by_cases same : other = rid
    · subst same
      have known := watch.known (.inl (by rw [lane]; exact mem_cons_self))
      have settled : ({ server with abortLane := rest }.cancelParked other).phase other = .handed ∨
          ({ server with abortLane := rest }.cancelParked other).phase other = .failed ∨
          ({ server with abortLane := rest }.cancelParked other).phase other = .cancelled := by
        cases parked : server.pendingMm other with
        | none =>
          rw [@cancelParked_of_none { server with abortLane := rest } other parked]
          refine (left_or_parked sound known (timely rfl)).resolve_right ?_
          simp [parked]
        | some req =>
          rw [@cancelParked_of_some { server with abortLane := rest } req other parked]
          simp [setPhase]
      obtain ⟨_, phase, cancelled⟩ := cancelParked_eq { server with abortLane := rest } other
      simp only [Server.onAbort, AbortSource.rid]
      rw [cancelled] at settled ⊢
      refine ⟨watch.sidecar_push _, fun _ => .inr (update_self ..), fun _ absent => ?_,
        fun _ => settled, fun _ => Covered.push (.inl rfl) (by simp)⟩
      rcases settled with now | now | now <;> cases now.symm.trans absent
    · exact ((popped (by simpa using same)).told other).setAborted (Ne.symm same)

/-- So does a shard. -/
theorem shardEffect (effect : ShardEffect server next) : Watch rid none next := by
  obtain ⟨lane, table, sink, rfl, own⟩ := effect
  refine ⟨watch.sidecar, ?_, ?_, watch.settled, watch.covered⟩
  · exact fun dropped => (watch.dropped dropped).imp_left (mem_append_left _)
  · intro waiting
    apply watch.known
    exact waiting.imp_left fun member => (mem_append.mp member).resolve_right (own rid)

/-- The scheduler takes an item of the ring and can decode it if it asks for `rid`. -/
theorem recvRequest {rest : List SchedulerRequest} {decodes : Bool}
    (ring : server.ring = item :: rest) (timely : item = .generate rid → decodes = true) :
    Watch rid none ({ server with ring := rest }.recvRequest decodes item) := by
  have popped : item ≠ .generate rid → Watch rid none { server with ring := rest } := by
    intro other
    refine ⟨?_, watch.dropped, watch.known, watch.settled, watch.covered⟩
    intro parked
    refine (watch.sidecar parked).imp_right fun later => later.imp_left fun member => ?_
    rw [ring] at member
    exact (mem_cons.mp member).resolve_left fun same => other same.symm
  cases item with
  | generate other =>
    by_cases same : other = rid
    · subst same
      rw [timely rfl]
      refine ⟨?_, watch.dropped, watch.known, watch.settled, watch.covered⟩
      intro parked
      simp [Server.recvRequest, purge] at parked
    · have held := popped (by simpa using same)
      rw [Server.recvRequest]
      split
      · exact ⟨held.purged (.inl rfl), held.dropped, held.known, held.settled, held.covered⟩
      · exact { held with }
  | control other =>
    have held := popped (by simp)
    rw [Server.recvRequest]
    split
    · exact { held with }
    · exact { held with }
  | abort other => exact popped (by simp)

/-- A worker's answer is appended to the inbox. -/
theorem appended {event : TmEvent} : server.sidecar rid = true →
      (∃ ids, .mmEncoded rid ids ∈ server.inbox ++ [event]) ∨ .generate rid ∈ server.ring ∨
        (none : Option ℕ) = some rid := by
  intro parked
  exact (watch.sidecar parked).imp_left fun ⟨ids, member⟩ => ⟨ids, mem_append_left _ member⟩

/-- So does an encoder. -/
theorem process (ids : Option InputIds) :
    Watch rid none ({ server with mmPool := server.mmPool.erase other }.process other ids) := by
  cases ids with
  | none => exact { watch with sidecar := watch.appended }
  | some ids =>
    refine ⟨?_, watch.dropped, watch.known, watch.settled, watch.covered⟩
    intro parked
    by_cases same : rid = other
    · rw [same]
      exact .inl ⟨ids, mem_append_right _ mem_cons_self⟩
    · have before : server.sidecar rid = true := by
        simpa only [Server.process, update_of_ne same] using parked
      exact watch.appended before

/-- So does a submission. -/
theorem submit (absent : server.phase req.rid = .absent) : Watch rid none (server.submit req) := by
  refine ⟨watch.appended, watch.dropped, ?_, ?_, watch.covered⟩
  · intro waiting
    by_cases same : rid = req.rid
    · simp [Server.submit, setPhase, same]
    · simp only [Server.submit, setPhase, update_of_ne same] at waiting ⊢
      exact watch.known waiting
  · exact (watch.phase_update .received req.rid (by simp) fun same aborted =>
      absurd aborted (watch.not_aborted (same ▸ absent) (by simp))).2

/-- So does a disarmed guard. -/
theorem disarm : Watch rid none (server.disarm other) := by
  refine ⟨watch.sidecar, watch.dropped, ?_, watch.settled, watch.covered⟩
  intro waiting
  apply watch.known
  refine waiting.imp_right fun armed => ?_
  by_cases same : rid = other
  · simp [Server.disarm, same] at armed
  · simpa only [Server.disarm, update_of_ne same] using armed

/-- So does a dropped guard. -/
theorem dropGuard {other : ℕ} (armed : server.armed other = true) :
    Watch rid none (server.dropGuard other) := by
  obtain ⟨sidecar, dropped, known, settled, covered⟩ := watch.disarm other
  refine ⟨sidecar, ?_, ?_, settled, covered⟩
  · intro guarded
    by_cases same : rid = other
    · rw [same]
      exact .inl (mem_append_right _ mem_cons_self)
    · simp only [Server.dropGuard, update_of_ne same] at guarded
      exact (dropped guarded).imp_left (mem_append_left _)
  · rintro (member | still)
    · rcases mem_append.mp member with old | new
      · exact known (.inl old)
      · rw [← AbortSource.guard.inj (mem_singleton.mp new)] at armed
        exact watch.known (.inr armed)
    · exact known (.inr still)

/-- One action of any thread. -/
theorem step {action : Action} (sound : Sound none server) (taken : Step server action next)
    (timely : Timely rid server action) : Watch rid none next := by
  cases action with
  | submit req =>
    obtain ⟨allowed, ⟨⟩⟩ := ite_none_right_eq_some.mp taken
    exact watch.submit allowed.1
  | disarm other =>
    cases taken
    exact watch.disarm other
  | closeSink other =>
    cases taken
    exact { watch with }
  | dropGuard other =>
    obtain ⟨armed, ⟨⟩⟩ := ite_none_right_eq_some.mp taken
    exact watch.dropGuard armed
  | takeAbort =>
    obtain ⟨_, _, lane, rfl⟩ := taken.takeAbort
    apply watch.onAbort sound lane
    rintro rfl
    exact timely (by rw [lane]; rfl)
  | takeEvent mmFull =>
    obtain ⟨_, _, inbox, rfl⟩ := taken.takeEvent
    exact watch.onEvent sound inbox
  | tokenize req ids =>
    obtain ⟨member, ⟨⟩⟩ := ite_none_right_eq_some.mp taken
    have kind := (sound.tokens.pooled req member).2
    simp only [tokenize, kind]
    cases ids with
    | none | some _ => exact { watch with sidecar := watch.appended }
  | process other ids =>
    obtain ⟨-, ⟨⟩⟩ := ite_none_right_eq_some.mp taken
    exact watch.process other ids
  | recvRequest decodes =>
    obtain ⟨_, _, ring, rfl⟩ := taken.recvRequest
    apply watch.recvRequest ring
    rintro rfl
    exact timely (by rw [ring]; rfl)
  | emit frame =>
    obtain ⟨-, ⟨⟩⟩ := ite_none_right_eq_some.mp taken
    exact { watch with }
  | dispatch =>
    obtain ⟨frame, rest, -, rfl⟩ := taken.dispatch
    obtain ⟨detok, routed⟩ := route_eq { server with fromScheduler := rest } frame
    rw [routed]
    exact { watch with }
  | detok k decodes sinkFull =>
    obtain ⟨msg, rest, -, rfl⟩ := taken.detok
    have popped :
        Watch rid none { server with detokenizer := update server.detokenizer k rest } :=
      { watch with }
    exact popped.shardEffect (ShardEffect.onDetokMsg _ decodes sinkFull msg)

end

end Watch

/-! ## Every run -/

/-- A step that takes no abort of `rid` while the request is in transit. -/
def TimelyStep (rid : ℕ) (server : Server) (action : Action) (next : Server) : Prop :=
  Step server action next ∧ Timely rid server action

/-- Once the channels are drained, a request whose guard was dropped has left nothing behind:
no parked entry, no parked result, and no generation that was not aborted. -/
def Forgotten (rid : ℕ) (server : Server) : Prop :=
  server.pendingMm rid = none ∧ server.sidecar rid = false ∧ Covered rid server.log

variable {actions : List Action} {shard : ℕ → ℕ} {mmEnabled : Bool}

/-- Every run is sound. -/
theorem Sound.run {server : Server} (run : Path Step (Server.new mmEnabled shard) actions server) :
    Sound none server :=
  Path.invariant (Sound none) (fun _ _ _ taken sound => sound.step taken) run
    (Sound.new mmEnabled shard)

/-- Every timely run is watched. -/
theorem Watch.run {server : Server}
    (run : Path (TimelyStep rid) (Server.new mmEnabled shard) actions server) :
    Watch rid none server := by
  refine (Path.invariant (fun server => Sound none server ∧ Watch rid none server) ?_ run
    ⟨Sound.new mmEnabled shard, Watch.new rid mmEnabled shard⟩).2
  rintro _ _ _ ⟨taken, timely⟩ ⟨sound, watch⟩
  exact ⟨sound.step taken, watch.step sound taken timely⟩

/-- A drained server has forgotten the request. -/
theorem Watch.forgotten (watch : Watch rid none server) (sound : Sound none server)
    (dropped : server.dropped rid = true) (drained : Drained server) : Forgotten rid server := by
  refine ⟨?_, ?_, ?_⟩
  · by_contra parked
    rcases sound.attended rid (isSome_iff_ne_none.mpr parked) with working | ⟨_, member, _⟩
    · rw [drained.mmPool] at working
      cases working
    · rw [drained.inbox] at member
      cases member
  · by_contra parked
    rcases watch.sidecar (by simpa using parked) with ⟨_, member⟩ | member | exempted
    · rw [drained.inbox] at member
      cases member
    · rw [drained.ring] at member
      cases member
    · cases exempted
  · apply watch.covered
    refine (watch.dropped dropped).resolve_left fun member => ?_
    rw [drained.abortLane] at member
    cases member

/-- Every sink gets at most one terminal item and nothing after it, in every run. In a run
whose steps are all timely for a request, dropping its guard leaves nothing of it behind. -/
theorem dropped_request_forgotten (mmEnabled : Bool) (shard : ℕ → ℕ) :
    (∀ actions server, Path Step (Server.new mmEnabled shard) actions server →
      ∀ rid, AtMostOneTerminal (server.sink rid)) ∧
    ∀ rid actions server, Path (TimelyStep rid) (Server.new mmEnabled shard) actions server →
      server.dropped rid = true → Drained server → Forgotten rid server := by
  refine ⟨?_, ?_⟩
  · intro actions server run rid
    exact (Sound.run run).answers.ended rid
  · intro rid actions server run dropped drained
    have sound : Sound none server := Sound.run (run.mono fun _ _ _ taken => taken.1)
    exact (Watch.run run).forgotten sound dropped drained

/-- A multimodal image request whose flags are all in order. -/
def imageRequest : Request where
  rid := 0
  state := .received
  kind := .generate
  valid := true
  normalizes := true
  multimodal := true
  alreadyTokenized := false
  fits := true
  encodes := true

/-- Its worker answers, it is pushed, and its handler goes away before the first frame. -/
theorem dropped_request_forgotten_image : ∃ server, Path (TimelyStep 0) (Server.new true fun _ => 0)
        [.submit imageRequest, .takeEvent false, .process 0 (some ⟨true, true⟩), .takeEvent false,
          .dropGuard 0, .takeAbort, .recvRequest true, .recvRequest true, .detok 0 true false,
          .detok 0 true false] server ∧
      server.dropped 0 = true ∧ Drained server ∧ Forgotten 0 server := by
  refine Exists.imp (fun server (found : _ ∧ _ ∧ _) => ⟨found.1, found.2.1, found.2.2,
    (dropped_request_forgotten true fun _ => 0).2 0 _ server found.1 found.2.1 found.2.2⟩) ?_
  refine ⟨_, .cons ⟨rfl, trivial⟩ (.cons ⟨rfl, trivial⟩ (.cons ⟨rfl, trivial⟩
    (.cons ⟨rfl, trivial⟩ (.cons ⟨rfl, trivial⟩ (.cons ⟨rfl, ?_⟩ (.cons ⟨rfl, fun _ => rfl⟩
    (.cons ⟨rfl, fun _ => rfl⟩ (.cons ⟨rfl, trivial⟩ (.cons ⟨rfl, trivial⟩
    (.nil _)))))))))), rfl, ⟨rfl, rfl, rfl, rfl, rfl, rfl, ?_⟩⟩
  · rintro - (⟨_, -, member | member⟩ | ⟨_, member, -⟩) <;> cases member
  · intro shard
    cases shard with
    | zero | succ _ => rfl

/-- A request with token ids, which goes straight to the ring. -/
def tokenRequest : Request := { imageRequest with multimodal := false, alreadyTokenized := true }

/-- The abort overtakes the request in the inbox: the scheduler is told to abort first and to
generate afterwards, and no further abort follows. -/
theorem overtaken_abort_leaves_generation :
    ∃ actions server, Path Step (Server.new false fun _ => 0) actions server ∧
      server.dropped 0 = true ∧ Drained server ∧
      server.log = [.abort 0, .generate 0] ∧ ¬Forgotten 0 server := by
  refine ⟨[.submit tokenRequest, .closeSink 0, .dropGuard 0, .takeAbort, .takeEvent false,
    .recvRequest true, .recvRequest true, .detok 0 true false, .detok 0 true false], _,
    .cons rfl (.cons rfl (.cons rfl (.cons rfl (.cons rfl (.cons rfl (.cons rfl (.cons rfl
      (.cons rfl (.nil _))))))))), rfl, ⟨rfl, rfl, rfl, rfl, rfl, rfl, ?_⟩, rfl, ?_⟩
  · intro shard
    cases shard with
    | zero | succ _ => rfl
  · rintro ⟨-, -, covered⟩
    have after := covered [.abort 0] [] rfl
    cases after

end Server

end AvaServe.Frontend
