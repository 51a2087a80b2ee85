import AvaServe.Indexer.Batching

/-!
# Token counts under batching

The bridge merges adjacent stores of one tier and cuts the merged reports into actions, and
an action keeps only the last report of a hash. A token count is lost when that last report
comes without one. The condition on the events under which none is lost is stated on the runs
of adjacent stores.
-/

namespace AvaServe.Indexer

open Foundation List Finmap

/-! ### Runs of stores -/

/-- The stores of an event, with the mask and the size it gives, 0 for none. -/
def storesOf (hashes : List Int64) (components : Option (UInt32 × UInt32)) : List Report :=
  hashes.map fun hash =>
    (hash, ((components.map Prod.fst).getD 0, (components.map Prod.snd).getD 0))

/-- The stores of each run of adjacent stores of one tier. Events without hashes do not count;
`run` is the run so far. -/
def storeRuns (run : Option (TierType × List Report)) : List CacheEvent → List (List Report)
  | [] => (run.map Prod.snd).toList
  | .blockStored tier hashes components :: events =>
    if hashes = [] then storeRuns run events
    else if run.map Prod.fst = some tier then
      storeRuns (run.map fun run => (tier, run.2 ++ storesOf hashes components)) events
    else (run.map Prod.snd).toList ++ storeRuns (some (tier, storesOf hashes components)) events
  | .blockRemoved _ hashes :: events =>
    if hashes = [] then storeRuns run events
    else (run.map Prod.snd).toList ++ storeRuns none events
  | .allBlocksCleared :: events => (run.map Prod.snd).toList ++ storeRuns none events

/-- A hash that some of the stores give a size has one in the last of its stores. -/
def KeepsSizes (stores : List Report) : Prop :=
  ∀ store ∈ stores, ∀ last ∈ lastWrites stores, last.1 = store.1 → store.2.2 ≠ 0 → last.2.2 ≠ 0

instance (stores : List Report) : Decidable (KeepsSizes stores) :=
  @List.decidableBAll _ _ (fun _ => List.decidableBAll _ (lastWrites stores)) stores

/-- So it is in each run of stores, cut into parts of `MAX_HASHES_PER_REQUEST`. -/
def SizesKept (events : List CacheEvent) : Prop :=
  ∀ run ∈ storeRuns none events, ∀ part,
    KeepsSizes ((run.drop (part * maxHashesPerRequest)).take maxHashesPerRequest)

/-- The run that an action stands for. -/
def Action.run : Action → Option (TierType × List Report)
  | .report tier hashes masks blockSizes => some (tier, Action.reports hashes masks blockSizes)
  | _ => none

/-- The runs of stores among some actions. -/
def runs (actions : List Action) : List (List Report) :=
  actions.filterMap fun action => action.run.map Prod.snd

variable {actions : List Action}

/-- The runs before the last action, and the run that it stands for. -/
theorem runs_eq (actions : List Action) : runs actions = runs actions.dropLast ++
    ((actions.getLast?.bind Action.run).map Prod.snd).toList := by
  obtain rfl | ⟨before, last, rfl⟩ := eq_nil_or_concat' actions
  · rfl
  · rw [runs, filterMap_append, dropLast_concat, getLast?_concat, Option.bind_some]
    cases last <;> rfl

/-- A new action closes the run before it. -/
theorem runs_concat (actions : List Action) (action : Action) (events : List CacheEvent) :
    runs (actions ++ [action]).dropLast ++
      storeRuns ((actions ++ [action]).getLast?.bind Action.run) events =
    runs actions.dropLast ++ (((actions.getLast?.bind Action.run).map Prod.snd).toList ++
      storeRuns action.run events) := by
  rw [dropLast_concat, getLast?_concat, Option.bind_some, runs_eq actions, append_assoc]

/-- Decoding an event goes on with the run of the last action or begins a new one. -/
theorem runs_decodeEvent (aligned : ∀ action ∈ actions, action.Aligned) (event : CacheEvent)
    (events : List CacheEvent) :
    runs (EventActions.decodeEvent actions event).dropLast ++
      storeRuns ((EventActions.decodeEvent actions event).getLast?.bind Action.run) events =
    runs actions.dropLast ++ storeRuns (actions.getLast?.bind Action.run) (event :: events) := by
  cases event with
  | blockStored tier hashes components =>
    have fresh : Action.reports hashes (replicate hashes.length (components.map Prod.fst))
        (replicate hashes.length (components.map Prod.snd)) = storesOf hashes components :=
      reports_replicate hashes _ _
    simp only [EventActions.decodeEvent, EventActions.report]
    split
    next empty => rw [storeRuns, if_pos (List.isEmpty_iff.mp empty)]
    next nonempty =>
      rw [List.isEmpty_iff] at nonempty
      rw [storeRuns, if_neg nonempty]
      split
      next lastTier last masks blockSizes isLast =>
        obtain ⟨-, masksLength, sizesLength⟩ := aligned _ (mem_of_getLast? isLast)
        split
        next same =>
          rw [dropLast_concat, getLast?_concat, isLast, Option.bind_some, Option.bind_some,
            Action.run, Action.run, Option.map_some, if_pos (congrArg some same),
            reports_append masksLength sizesLength, fresh, Option.map_some]
        next different =>
          rw [runs_concat, isLast, Option.bind_some, Action.run, Action.run, fresh, if_neg]
          exact mt Option.some.inj different
      next other =>
        have closed : actions.getLast?.bind Action.run = none := by
          cases isLast : actions.getLast? with
          | none => rfl
          | some last =>
            cases last with
            | report lastTier stored masks blockSizes => exact absurd isLast (other _ _ _ _)
            | revoke | clearAll => rfl
        rw [runs_concat, closed, Action.run, fresh, if_neg (by simp)]
  | blockRemoved tier hashes =>
    simp only [EventActions.decodeEvent, EventActions.revoke]
    split
    next empty => rw [storeRuns, if_pos (List.isEmpty_iff.mp empty)]
    next nonempty =>
      rw [List.isEmpty_iff] at nonempty
      rw [storeRuns, if_neg nonempty]
      split
      next lastTier last isLast =>
        split
        next =>
          rw [dropLast_concat, getLast?_concat, isLast]
          rfl
        next => exact runs_concat actions _ events
      next => exact runs_concat actions _ events
  | allBlocksCleared => exact runs_concat actions .clearAll events

/-- The decoded actions stand for the runs of the events. -/
theorem runs_decodeEventBatch (events : List CacheEvent) :
    runs (EventActions.decodeEventBatch events) = storeRuns none events := by
  have walk : ∀ (events : List CacheEvent) (actions : List Action),
      (∀ action ∈ actions, action.Aligned) → runs (events.foldl EventActions.decodeEvent actions) =
        runs actions.dropLast ++ storeRuns (actions.getLast?.bind Action.run) events := by
    intro events
    induction events with
    | nil => exact fun actions _ => runs_eq actions
    | cons event events ih =>
      intro actions aligned
      rw [foldl_cons, ih _ (EventActions.decodeEvent_aligned aligned event),
        runs_decodeEvent aligned]
  exact walk events [] (by simp)

/-- Past the end there is nothing to keep. -/
theorem keepsSizes_beyond {stores : List Report} {part : ℕ}
    (past : stores.length ≤ part * maxHashesPerRequest) :
    KeepsSizes ((stores.drop (part * maxHashesPerRequest)).take maxHashesPerRequest) := by
  rw [drop_eq_nil_of_le past, take_nil]
  exact fun _ member => absurd member not_mem_nil

/-- Few stores are one part. -/
theorem keepsSizes_parts_iff {stores : List Report} (few : stores.length ≤ maxHashesPerRequest) :
    (∀ part, KeepsSizes ((stores.drop (part * maxHashesPerRequest)).take maxHashesPerRequest)) ↔
      KeepsSizes stores := by
  have whole : (stores.drop (0 * maxHashesPerRequest)).take maxHashesPerRequest = stores := by
    rw [Nat.zero_mul, drop_zero, take_of_length_le few]
  constructor
  · intro kept
    exact whole ▸ kept 0
  · intro kept part
    cases part with
    | zero => rwa [whole]
    | succ part => exact keepsSizes_beyond (few.trans (Nat.le_mul_of_pos_left _ part.succ_pos))

/-- The pieces of a report are its parts. -/
theorem keepsSizes_splitAction {action : ExternalKvAction} (formed : action.Formed) :
    (∀ piece ∈ splitAction action, KeepsSizes piece.reports) ↔ ∀ part,
      KeepsSizes ((action.reports.drop (part * maxHashesPerRequest)).take maxHashesPerRequest) := by
  unfold splitAction
  split
  next small =>
    rw [forall_mem_singleton, keepsSizes_parts_iff (by rwa [length_reports])]
  next =>
    rw [forall_mem_map]
    have slice (part : ℕ) : (action.reports.take (min (part * maxHashesPerRequest +
        maxHashesPerRequest) action.hashes.length)).drop (part * maxHashesPerRequest) =
        (action.reports.drop (part * maxHashesPerRequest)).take maxHashesPerRequest := by
      rw [← length_reports, ← take_eq_take_min, drop_take, Nat.add_sub_cancel_left]
    simp only [reports_slice formed, slice, mem_range]
    refine ⟨fun kept part => ?_, fun kept part _ => kept part⟩
    by_cases inside : part * maxHashesPerRequest < action.hashes.length
    · refine kept part ?_
      unfold maxHashesPerRequest at inside ⊢
      omega
    · exact keepsSizes_beyond (by rwa [length_reports, ← not_lt])

/-- The pieces of an action are of its kind. -/
theorem type_of_mem_splitAction {action piece : ExternalKvAction}
    (member : piece ∈ splitAction action) : piece.type = action.type := by
  unfold splitAction at member
  split at member
  · rw [mem_singleton.mp member]
  · obtain ⟨_, _, rfl⟩ := mem_map.mp member
    rfl

/-- The reports on the wire keep the sizes when the runs of the events do. -/
theorem keepsSizes_pieces (config : BridgeConfig) (seq : UInt64) (events : List CacheEvent) :
    (∀ piece ∈ pieces config seq events, piece.type = ExternalKvActionType.actionReport.code →
      KeepsSizes piece.reports) ↔ SizesKept events := by
  have each : ∀ action ∈ EventActions.decodeEventBatch events,
      (∀ wire ∈ wireActions config action, ∀ piece ∈ splitAction wire,
        piece.type = ExternalKvActionType.actionReport.code → KeepsSizes piece.reports) ↔
      ∀ run, action.run.map Prod.snd = some run → ∀ part,
        KeepsSizes ((run.drop (part * maxHashesPerRequest)).take maxHashesPerRequest) := by
    intro action member
    have aligned := EventActions.decodeEventBatch_aligned events action member
    cases action with
    | report tier hashes masks blockSizes =>
      have formed := wireActions_formed config aligned _ (mem_singleton_self _)
      obtain ⟨-, masksLength, sizesLength⟩ := aligned
      have parts := keepsSizes_splitAction formed
      rw [reports_wire _ masksLength sizesLength] at parts
      simp only [Action.run, Option.map_some, Option.some.injEq, forall_eq']
      rw [wireActions, forall_mem_singleton, ← parts]
      exact forall₂_congr fun piece inside =>
        forall_prop_of_true (type_of_mem_splitAction inside)
    | revoke tier hashes =>
      refine iff_of_true ?_ (by simp [Action.run])
      rw [wireActions, forall_mem_singleton]
      intro piece inside type
      exact absurd (type.symm.trans (type_of_mem_splitAction inside))
        (show ExternalKvActionType.actionReport.code ≠ ExternalKvActionType.actionRevoke.code
          by decide)
    | clearAll =>
      refine iff_of_true ?_ (by simp [Action.run])
      rw [wireActions, forall_mem_map]
      intro tier _ piece inside type
      exact absurd (type.symm.trans (type_of_mem_splitAction inside))
        (show ExternalKvActionType.actionReport.code ≠
          ExternalKvActionType.actionClearAllAtTier.code by decide)
  rw [SizesKept, ← runs_decodeEventBatch, pieces, forall_mem_flatMap]
  simp only [request, buildApplyRequest, forall_mem_flatMap, runs, mem_filterMap]
  constructor
  · rintro kept run ⟨action, member, found⟩
    exact (each action member).mp (kept action member) run found
  · intro kept action member
    exact (each action member).mpr fun run found => kept run ⟨action, member, found⟩

/-! ### Counts of an action -/

namespace State

/-- The token count of a hash, 0 for none. -/
def tokenCount (state : State) (hash : Int64) : UInt32 := (state.block hash).tokenCount

variable (workerId : String) (tier : Int32) (state : State)

/-- A report gives its own hash its count, when it has one. -/
theorem tokenCount_reportOne (report : Report) (hash : Int64) :
    (reportOne workerId tier state report).tokenCount hash =
      if report.1 = hash ∧ report.2.2 ≠ 0 then report.2.2 else state.tokenCount hash := by
  obtain ⟨reported, mask, count⟩ := report
  by_cases same : reported = hash
  · subst same
    simp [tokenCount, State.block, reportOne, UInt32.pos_iff_ne_zero]
  · simp [tokenCount, State.block, reportOne, lookup_insert_of_ne _ (Ne.symm same), same]

variable {state} {hash : Int64} {reports : List Report}

/-- One at a time, reports leave a hash a count when one of them has it. -/
theorem tokenCount_foldl_ne_zero
    (known : state.tokenCount hash ≠ 0 ∨ ∃ value, (hash, value) ∈ reports ∧ value.2 ≠ 0) :
    (reports.foldl (reportOne workerId tier) state).tokenCount hash ≠ 0 := by
  induction reports generalizing state with
  | nil => simpa using known
  | cons report reports ih =>
    refine ih ?_
    rw [tokenCount_reportOne]
    by_cases here : report.1 = hash ∧ report.2.2 ≠ 0
    · rw [if_pos here]
      exact .inl here.2
    · rw [if_neg here]
      refine known.imp_right ?_
      rintro ⟨value, member, sized⟩
      rcases mem_cons.mp member with rfl | later
      · exact absurd ⟨rfl, sized⟩ here
      · exact ⟨value, later, sized⟩

/-- Reports without a count leave a hash none. -/
theorem tokenCount_foldl_eq_zero (unknown : state.tokenCount hash = 0)
    (unsized : ∀ value, (hash, value) ∈ reports → value.2 = 0) :
    (reports.foldl (reportOne workerId tier) state).tokenCount hash = 0 := by
  induction reports generalizing state with
  | nil => exact unknown
  | cons report reports ih =>
    refine ih ?_ fun value later => unsized value (.tail _ later)
    rw [tokenCount_reportOne, if_neg, unknown]
    rintro ⟨rfl, sized⟩
    exact sized (unsized report.2 (.head _))

variable (order : Listing Int64)

/-- An action is carried out as its mutations one by one, from every state, exactly when its
reports keep the sizes. -/
theorem applyAction_eq_mutations_iff {action : ExternalKvAction} (formed : action.Formed) :
    (∀ state : State, state.applyAction order workerId action =
      some (action.mutations.foldl (mutate order workerId) state)) ↔
    (action.type = ExternalKvActionType.actionReport.code → KeepsSizes action.reports) := by
  simp only [applyAction_eq order workerId _ formed, Option.some.injEq]
  by_cases type : action.type = ExternalKvActionType.actionReport.code
  · have applied : action.applied = (lastWrites action.reports).map (.report action.tier) := by
      simp only [ExternalKvAction.applied, type, ExternalKvActionType.tryFrom_code]
    simp only [forall_prop_of_true type, applied, mutations_of_report type, foldl_map, mutate]
    constructor
    · intro same store early last late again sized unsized
      have merged := congrArg (tokenCount · store.1) (same {})
      refine tokenCount_foldl_ne_zero workerId action.tier (.inr ⟨store.2, early, sized⟩)
        (merged.symm.trans (tokenCount_foldl_eq_zero workerId action.tier rfl ?_))
      intro value found
      have only := inj_on_of_nodup_map (nodup_map_fst_lastWrites action.reports) late found again
      rw [← unsized, only]
    · intro kept state
      refine (foldl_lastWrites (reportOne_comm workerId action.tier) ?_ state).symm
      intro hash first last early late state
      exact reportOne_absorb workerId action.tier state hash (kept _ early _ late rfl)
  · refine iff_of_true (fun state => ?_) fun report => absurd report type
    rcases formed.type with ⟨report, -⟩ | ⟨revoke, -⟩ | ⟨clear, -⟩
    · exact absurd report type
    · simp only [ExternalKvAction.applied, revoke, ExternalKvActionType.tryFrom_code]
    · simp only [ExternalKvAction.applied, clear, ExternalKvActionType.tryFrom_code]

end State

/-! ### Transparency -/

section Transparency

variable (order : Listing Int64) (config : BridgeConfig) (seq : UInt64)
  (events : List CacheEvent)

/-- What is carried out as the mutations one by one leaves what they do. -/
theorem foldl_applied_eq {workerId : String} {actions : List ExternalKvAction}
    (formed : ∀ action ∈ actions, action.Formed)
    (kept : ∀ action ∈ actions, action.type = ExternalKvActionType.actionReport.code →
      KeepsSizes action.reports) (state : State) :
    (actions.flatMap ExternalKvAction.applied).foldl (State.mutate order workerId) state =
      (actions.flatMap ExternalKvAction.mutations).foldl (State.mutate order workerId) state := by
  induction actions generalizing state with
  | nil => rfl
  | cons action actions ih =>
    obtain ⟨head, tail⟩ := forall_mem_cons.mp formed
    obtain ⟨here, later⟩ := forall_mem_cons.mp kept
    have first := (State.applyAction_eq_mutations_iff workerId order head).mpr here state
    rw [State.applyAction_eq order workerId state head, Option.some.injEq] at first
    rw [flatMap_cons, flatMap_cons, foldl_append, foldl_append, first, ih tail later]

/-- When no run of stores loses a size, batching leaves the state that one mutation at a time
does. -/
theorem bridged_eq_oneAtATime (kept : SizesKept events) (state : State) :
    bridged order config seq events state = oneAtATime order config seq events state := by
  rw [bridged_eq, oneAtATime_eq]
  refine if_congr Iff.rfl rfl ?_
  rw [foldl_applied_eq order (pieces_formed config seq events)
    ((keepsSizes_pieces config seq events).mpr kept), mutations_pieces]

/-- Batching is transparent when no run of adjacent stores loses a size, which is when every
action on the wire is carried out as its mutations one by one. Every part passes validation,
and the two indexes agree in every reachable state. -/
theorem bridge_transparent :
    (SizesKept events → ∀ state : State,
      bridged order config seq events state = oneAtATime order config seq events state) ∧
    (SizesKept events ↔ ∀ piece ∈ pieces config seq events, ∀ state : State,
      state.applyAction order config.workerId piece =
        some (piece.mutations.foldl (State.mutate order config.workerId) state)) ∧
    (∀ part ∈ splitApplyRequest (request config seq events),
      validateActions part.actions = .ok ()) ∧
    ∀ calls : List BackendCall, State.Consistent (calls.foldl State.call {}) := by
  refine ⟨bridged_eq_oneAtATime order config seq events, ?_,
    fun _ member => validateActions_of_mem_split config seq events member, State.consistent_run⟩
  rw [← keepsSizes_pieces config seq events]
  exact forall₂_congr fun piece member => (State.applyAction_eq_mutations_iff config.workerId
    order (pieces_formed config seq events piece member)).symm

end Transparency

namespace LostSize

/-- A worker without tiers to clear. -/
def config : BridgeConfig := ⟨"w", "a", [], none⟩

/-- A block stored again with another size and, after its removal, without one. -/
def resized : List CacheEvent :=
  [.blockStored .tierHbm [7, 8] (some (1, 16)), .blockStored .tierHbm [7] (some (1, 32)),
    .blockRemoved .tierHbm [7], .blockStored .tierHbm [7] none]

/-- The runs of the example. -/
theorem storeRuns_resized : storeRuns none resized =
    [[(7, 1, 16), (8, 1, 16), (7, 1, 32)], [(7, 0, 0)]] := by
  decide +kernel

/-- They keep their sizes. -/
theorem sizesKept_resized : SizesKept resized := by
  intro run member
  rw [storeRuns_resized] at member
  have short : run.length ≤ 3 ∧ KeepsSizes run := by
    revert run
    decide +kernel
  refine (keepsSizes_parts_iff (short.1.trans ?_)).mpr short.2
  decide

/-- So the bridge is transparent there. -/
theorem bridge_transparent_resized : SizesKept resized ∧
    bridged Listing.some config 0 resized {} = oneAtATime Listing.some config 0 resized {} :=
  ⟨sizesKept_resized,
    (bridge_transparent Listing.some config 0 resized).1 sizesKept_resized {}⟩

/-- The two stores of one block, with its size and then without, which the bridge merges into
one report. -/
def events : List CacheEvent :=
  [.blockStored .tierHbm [7] (some (1, 16)), .blockStored .tierHbm [7] none]

/-- What the bridge applies. -/
theorem flatMap_applied : (pieces config 0 events).flatMap ExternalKvAction.applied =
      [.report 1 (7, 0, 0)] := by
  decide +kernel

/-- What the events say. -/
theorem flatMap_mutations : events.flatMap (CacheEvent.mutations config) =
      [.report 1 (7, 1, 16), .report 1 (7, 0, 0)] := by
  decide +kernel

/-- The merged report loses the block's size, one store at a time keeps it. -/
theorem merged_report_loses_size : (bridged Listing.some config 0 events {}).tokenCount 7 = 0 ∧
      (oneAtATime Listing.some config 0 events {}).tokenCount 7 = 16 ∧
      bridged Listing.some config 0 events {} ≠ oneAtATime Listing.some config 0 events {} := by
  have merged : (bridged Listing.some config 0 events {}).tokenCount 7 = 0 := by
    rw [bridged_eq, flatMap_mutations, flatMap_applied, if_neg (cons_ne_nil _ _)]
    simp only [foldl_cons, foldl_nil, State.mutate]
    decide +kernel
  have single : (oneAtATime Listing.some config 0 events {}).tokenCount 7 = 16 := by
    rw [oneAtATime_eq, flatMap_mutations, if_neg (cons_ne_nil _ _)]
    simp only [foldl_cons, foldl_nil, State.mutate]
    decide +kernel
  refine ⟨merged, single, fun same => ?_⟩
  rw [same, single] at merged
  exact absurd merged (by decide)

end LostSize

end AvaServe.Indexer
