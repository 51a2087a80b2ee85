import AvaServe.Frontend.AbortOrder

/-!
# Where every submitted request is

A submitted request is once in the inbox, or in one place of the intake stages, or it has left
them. Then there is something to show for it: an error in its sink, an entry of what was pushed
to the scheduler or handed to a shard, or the abort that cancelled it while it was parked.
-/

namespace AvaServe.Frontend

open Foundation List Function Option

namespace Server

variable {server next : Server} {req : Request} {mmFull : Bool} {rid : ℕ}

/-- What the logs hold of a request that comes into a phase. -/
def Logged (server : Server) (rid : ℕ) : Phase → Prop
  | .absent => False
  | .received => True
  | .intake => True
  | .failed => True
  | .handed => .generate rid ∈ server.log ∨ .control rid ∈ server.log ∨ rid ∈ server.decodes
  | .cancelled => .abort rid ∈ server.log

/-- The logs grow, and a request comes into a new phase only with an entry for it. -/
structure Advances (server next : Server) : Prop where
  log : server.log ⊆ next.log
  decodes : server.decodes ⊆ next.decodes
  phase : ∀ rid, next.phase rid = server.phase rid ∨ Logged next rid (next.phase rid)

/-- What is in the logs stays there. -/
theorem Logged.mono {phase : Phase} (logged : Logged server rid phase)
    (log : server.log ⊆ next.log) (decodes : server.decodes ⊆ next.decodes) :
    Logged next rid phase := by
  cases phase with
  | absent => cases logged
  | received | intake | failed => trivial
  | handed => exact logged.imp (@log _) (Or.imp (@log _) (@decodes _))
  | cancelled => exact log logged

namespace Advances

/-- Nothing happens to the requests. -/
theorem refl (server : Server) : Advances server server :=
  ⟨fun _ => id, fun _ => id, fun _ => .inl rfl⟩

/-- One thing after the other. -/
theorem trans {middle : Server} (first : Advances server middle)
    (second : Advances middle next) : Advances server next := by
  refine ⟨fun _ member => second.log (first.log member),
    fun _ member => second.decodes (first.decodes member), fun rid => ?_⟩
  obtain same | logged := second.phase rid
  · rw [same]
    exact (first.phase rid).imp_right fun logged => logged.mono second.log second.decodes
  · exact .inr logged

/-- One request comes into a phase. -/
theorem move {now : Phase} (log : server.log ⊆ next.log) (decodes : server.decodes ⊆ next.decodes)
    (moved : next.phase = update server.phase rid now) (logged : Logged next rid now) :
    Advances server next := by
  refine ⟨log, decodes, fun other => ?_⟩
  rw [moved]
  by_cases same : other = rid
  · rw [same, update_self]
    exact .inr logged
  · exact .inl (update_of_ne same _ _)

/-- A rejected request. -/
theorem fail (server : Server) (req : Request) (registered : Bool) :
    Advances server (server.fail req registered) := by
  cases registered with
  | false | true => exact @move _ _ req.rid .failed (fun _ => id) (fun _ => id) rfl trivial

/-- A registered request leaves the intake stages with an entry. -/
theorem answered (answered : Answered server req next) : Advances server next := by
  cases answered with
  | rejected => exact fail server req true
  | generate _ =>
    exact move (subset_append_left _ _) (fun _ => id) rfl (.inl (mem_concat_self ..))
  | control _ =>
    exact move (subset_append_left _ _) (fun _ => id) rfl (.inr (.inl (mem_concat_self ..)))
  | decode _ =>
    exact move (fun _ => id) (subset_append_left _ _) rfl (.inr (.inr (mem_concat_self ..)))

/-- It leaves them, or waits for a worker. -/
theorem outcome (outcome : Outcome server req next) : Advances server next := by
  cases outcome with
  | answered left => exact answered left
  | tokenizing _ _ _ _ | parked _ _ _ _ => exact { refl server with }

/-- Handling an event of the inbox. -/
theorem onEvent {event : TmEvent} {rest : List TmEvent} (sound : Sound none server)
    (inbox : server.inbox = event :: rest) :
    Advances server ({ server with inbox := rest }.onEvent mmFull event) := by
  have tokens := sound.tokens
  rw [inbox] at tokens
  have taken : Advances server { server with inbox := rest } := { refl server with }
  cases event with
  | intake req =>
    rcases drive_received { server with inbox := rest } req mmFull
      (tokens.intakes req mem_cons_self) with failed | driven
    · rw [Server.onEvent, failed]
      exact taken.trans (fail _ req false)
    · have registered : Advances { server with inbox := rest }
          ({ server with inbox := rest }.registerDetok req) :=
        @move _ _ req.rid .intake (fun _ => id) (fun _ => id) rfl trivial
      exact taken.trans (registered.trans (outcome driven))
  | tokenized req =>
    exact taken.trans (answered (drive_returned _ req mmFull (tokens.returns req mem_cons_self)))
  | mmEncoded about ids =>
    cases parked : server.pendingMm about with
    | none =>
      rw [Server.onEvent, @onMmEncoded_of_none { server with inbox := rest } mmFull about parked]
      exact { taken with }
    | some req =>
      have left : Advances ({ server with inbox := rest }.unpark about) _ :=
        answered (@onMmEncoded_answered { server with inbox := rest } req mmFull about parked
          (tokens.parked about req parked).2.2 ids)
      exact { left with }
  | mmFailed about =>
    cases parked : server.pendingMm about with
    | none =>
      rw [Server.onEvent, @onMmFailed_of_none { server with inbox := rest } about parked]
      exact taken
    | some req =>
      rw [Server.onEvent, @onMmFailed_of_some { server with inbox := rest } req about parked]
      exact { fail ({ server with inbox := rest }.unpark about) req true with }

/-- Handling an abort: what it cancels is in the log as aborted. -/
theorem onAbort (server : Server) (source : AbortSource) :
    Advances server (server.onAbort source) := by
  have told : Advances server (((server.cancelParked source.rid).detokFor source.rid
      (.deregister source.rid)).tryPush (.abort source.rid)) := by
    cases parked : server.pendingMm source.rid with
    | none =>
      rw [cancelParked_of_none parked]
      exact ⟨subset_append_left _ _, fun _ => id, fun _ => .inl rfl⟩
    | some req =>
      rw [cancelParked_of_some parked]
      exact @move _ _ source.rid .cancelled (subset_append_left _ _) (fun _ => id) rfl
        (mem_concat_self ..)
  cases source with
  | guard _ => exact { told with }
  | detok _ => exact told

/-- One action of any thread. -/
theorem step {action : Action} (sound : Sound none server) (taken : Step server action next) :
    Advances server next := by
  cases action with
  | submit req =>
    obtain ⟨-, ⟨⟩⟩ := ite_none_right_eq_some.mp taken
    exact @move _ _ req.rid .received (fun _ => id) (fun _ => id) rfl trivial
  | disarm _ | closeSink _ =>
    cases taken
    exact { refl server with }
  | dropGuard _ | emit _ =>
    obtain ⟨-, ⟨⟩⟩ := ite_none_right_eq_some.mp taken
    exact { refl server with }
  | takeAbort =>
    obtain ⟨source, rest, -, rfl⟩ := taken.takeAbort
    exact { onAbort { server with abortLane := rest } source with }
  | takeEvent mmFull =>
    obtain ⟨_, _, inbox, rfl⟩ := taken.takeEvent
    exact onEvent sound inbox
  | tokenize req ids =>
    obtain ⟨-, ⟨⟩⟩ := ite_none_right_eq_some.mp taken
    unfold Server.tokenize
    split
    · exact { refl server with }
    · cases ids with
      | none | some _ => exact { refl server with }
  | process _ ids =>
    obtain ⟨-, ⟨⟩⟩ := ite_none_right_eq_some.mp taken
    cases ids with
    | none | some _ => exact { refl server with }
  | recvRequest decodes =>
    obtain ⟨item, _, -, rfl⟩ := taken.recvRequest
    cases item with
    | generate _ | control _ => cases decodes <;> exact { refl server with }
    | abort _ => exact { refl server with }
  | dispatch =>
    obtain ⟨frame, rest, -, rfl⟩ := taken.dispatch
    obtain ⟨detok, routed⟩ := route_eq { server with fromScheduler := rest } frame
    rw [routed]
    exact { refl server with }
  | detok k decodes sinkFull =>
    obtain ⟨msg, rest, -, rfl⟩ := taken.detok
    obtain ⟨lane, table, sink, same, -⟩ := ShardEffect.onDetokMsg
      { server with detokenizer := update server.detokenizer k rest } decodes sinkFull msg
    rw [same]
    exact { refl server with }

end Advances

/-- Every request that was submitted is known, and has the entries its phase asks for. -/
structure Recorded (past : List Action) (server : Server) : Prop where
  submitted : ∀ req, .submit req ∈ past → server.phase req.rid ≠ .absent
  logged : ∀ rid, server.phase rid = .absent ∨ Logged server rid (server.phase rid)

/-- A step keeps the records. -/
theorem Recorded.step {past : List Action} {action : Action} (recorded : Recorded past server)
    (sound : Sound none server) (taken : Step server action next) :
    Recorded (past ++ [action]) next := by
  have advances := Advances.step sound taken
  refine ⟨fun req member => ?_, fun rid => ?_⟩
  · rcases mem_append.mp member with old | new
    · obtain same | logged := advances.phase req.rid
      · rw [same]
        exact recorded.submitted req old
      · rintro absent
        rw [absent] at logged
        exact logged
    · rw [← mem_singleton.mp new] at taken
      obtain ⟨-, ⟨⟩⟩ := ite_none_right_eq_some.mp taken
      simp [Server.submit, setPhase]
  · obtain same | logged := advances.phase rid
    · rw [same]
      exact (recorded.logged rid).imp_right fun logged =>
        logged.mono advances.log advances.decodes
    · exact .inr logged

/-- The records in every run. -/
theorem Recorded.run {actions : List Action} {shard : ℕ → ℕ} {mmEnabled : Bool}
    (run : Path Step (Server.new mmEnabled shard) actions server) : Recorded actions server := by
  have start : Recorded [] (Server.new mmEnabled shard) := ⟨by simp, fun _ => .inl rfl⟩
  refine (Path.recorded (fun past server => Sound none server ∧ Recorded past server)
    (fun past server action next taken known => ?_) run ⟨Sound.new mmEnabled shard, start⟩).2
  exact ⟨known.1.step taken, known.2.step known.1 taken⟩

end Server

end AvaServe.Frontend
