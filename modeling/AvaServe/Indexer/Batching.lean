import Mathlib
import AvaServe.Indexer.Mutations

/-!
# Batching against one mutation at a time

The bridge's merged, encoded and split batches carry the mutations of the events in
order. Applying them is applying the mutations, except that of the reports of one hash in
one action only the last is carried out.
-/

namespace AvaServe.Indexer

open Foundation List

/-! ### The mutations of events -/

/-- The mutations of an event, one hash at a time. -/
def CacheEvent.mutations (config : BridgeConfig) : CacheEvent → List Mutation
  | .blockStored tier hashes components =>
    hashes.map fun hash => .report tier.code
      (hash, ((components.map Prod.fst).getD 0, (components.map Prod.snd).getD 0))
  | .blockRemoved tier hashes => hashes.map fun hash => .revoke tier.code hash
  | .allBlocksCleared => config.clearTiers.map fun tier => .clearAt tier.code

/-- The wire actions of an event, one hash at a time. -/
def CacheEvent.singleActions (config : BridgeConfig) : CacheEvent → List ExternalKvAction
  | .blockStored tier hashes components =>
    hashes.flatMap fun hash => wireActions config
      (.report tier [hash] [components.map Prod.fst] [components.map Prod.snd])
  | .blockRemoved tier hashes => hashes.flatMap fun hash => wireActions config (.revoke tier [hash])
  | .allBlocksCleared => wireActions config .clearAll

/-- The side array gives the value of each hash. -/
theorem encodeValues_getD (values : List (Option UInt32)) (index : ℕ) :
    (if (encodeValues values).isEmpty then 0 else (encodeValues values).getD index 0) =
      (values.getD index none).getD 0 := by
  unfold encodeValues
  by_cases absent : values.all Option.isNone
  · rw [if_pos absent, isEmpty_nil, if_pos rfl]
    rw [all_eq_true] at absent
    by_cases inside : index < values.length
    · have here := absent values[index] (getElem_mem inside)
      rw [getD_eq_getElem _ _ inside, Option.isNone_iff_eq_none.mp here, Option.getD_none]
    · rw [getD_eq_default _ _ (not_lt.mp inside), Option.getD_none]
  · rw [if_neg absent]
    have nonempty : values ≠ [] := by
      rintro rfl
      exact absent rfl
    rw [if_neg (by simpa using nonempty)]
    by_cases inside : index < values.length
    · rw [getD_eq_getElem _ _ (by simpa using inside), getElem_map, getD_eq_getElem _ _ inside]
    · rw [getD_eq_default _ _ (by simpa using inside),
        getD_eq_default _ _ (not_lt.mp inside), Option.getD_none]

/-- The reports of a decoded report action: its hashes with their masks and sizes. -/
def Action.reports (hashes : List Int64) (masks blockSizes : List (Option UInt32)) : List Report :=
  hashes.zip ((masks.map fun mask => mask.getD 0).zip (blockSizes.map fun size => size.getD 0))

variable {hashes : List Int64} {action : ExternalKvAction} {masks blockSizes : List (Option UInt32)}

/-- An action has a report for each hash. -/
@[simp] theorem length_reports (action : ExternalKvAction) :
    action.reports.length = action.hashes.length := by
  simp [ExternalKvAction.reports]

/-- The wire action of a report carries its reports. -/
theorem reports_wire (tier : Int32) (masksLength : masks.length = hashes.length)
    (sizesLength : blockSizes.length = hashes.length) : ExternalKvAction.reports
      { type := ExternalKvActionType.actionReport.code
        tier := tier
        hashes := hashes
        componentMasks := encodeComponentMasks masks
        blockSizes := encodeBlockSizes blockSizes } = Action.reports hashes masks blockSizes := by
  apply ext_getElem
  · simp [Action.reports, masksLength, sizesLength]
  · intro index left right
    have inside : index < hashes.length := by simpa using left
    simp only [ExternalKvAction.reports, encodeComponentMasks, encodeBlockSizes,
      encodeValues_getD, getElem_map, getElem_zipIdx, Action.reports, getElem_zip,
      zero_add]
    rw [getD_eq_getElem _ _ (masksLength ▸ inside), getD_eq_getElem _ _ (sizesLength ▸ inside)]

/-- The mutations of a report. -/
theorem mutations_of_report (type : action.type = ExternalKvActionType.actionReport.code) :
    action.mutations = action.reports.map (Mutation.report action.tier) := by
  simp only [ExternalKvAction.mutations, type, ExternalKvActionType.tryFrom_code]

/-- The mutations of a revoke. -/
theorem mutations_of_revoke (type : action.type = ExternalKvActionType.actionRevoke.code) :
    action.mutations = action.hashes.map (Mutation.revoke action.tier) := by
  simp only [ExternalKvAction.mutations, type, ExternalKvActionType.tryFrom_code]

/-- The mutations an action is sent as. -/
def Action.sent (config : BridgeConfig) (action : Action) : List Mutation :=
  (wireActions config action).flatMap ExternalKvAction.mutations

variable (config : BridgeConfig) (tier : TierType)

/-- A report is sent as its reports. -/
theorem sent_report (masksLength : masks.length = hashes.length)
    (sizesLength : blockSizes.length = hashes.length) :
    Action.sent config (.report tier hashes masks blockSizes) =
      (Action.reports hashes masks blockSizes).map (Mutation.report tier.code) := by
  rw [Action.sent, wireActions, flatMap_singleton, mutations_of_report rfl,
    reports_wire _ masksLength sizesLength]

/-- A revoke is sent as the revokes of its hashes. -/
theorem sent_revoke (hashes : List Int64) :
    Action.sent config (.revoke tier hashes) = hashes.map (Mutation.revoke tier.code) := by
  rw [Action.sent, wireActions, flatMap_singleton, mutations_of_revoke rfl]

/-- A clear is sent as one for each configured tier. -/
theorem sent_clearAll : Action.sent config .clearAll =
      config.clearTiers.map fun tier => Mutation.clearAt tier.code := by
  simp only [Action.sent, wireActions, flatMap_map]
  rw [map_eq_flatMap]
  rfl

/-- The reports of a fresh action. -/
theorem reports_replicate (hashes : List Int64) (mask blockSize : Option UInt32) :
    Action.reports hashes (replicate hashes.length mask)
        (replicate hashes.length blockSize) =
      hashes.map fun hash => (hash, (mask.getD 0, blockSize.getD 0)) := by
  apply ext_getElem
  · simp [Action.reports]
  · simp [Action.reports]

/-- The reports of a merged action. -/
theorem reports_append {more : List Int64} {moreMasks : List (Option UInt32)}
    {moreSizes : List (Option UInt32)} (masksLength : masks.length = hashes.length)
    (sizesLength : blockSizes.length = hashes.length) :
    Action.reports (hashes ++ more) (masks ++ moreMasks) (blockSizes ++ moreSizes) =
      Action.reports hashes masks blockSizes ++ Action.reports more moreMasks moreSizes := by
  simp only [Action.reports, map_append]
  rw [zip_append (by rw [length_map, length_map, masksLength, sizesLength]), zip_append]
  rw [length_zip, length_map, length_map, masksLength, sizesLength, min_self]

/-- The last item apart. -/
theorem flatMap_of_getLast? {α β : Type*} (f : α → List β) {items : List α} {last : α}
    (isLast : items.getLast? = some last) :
    items.flatMap f = items.dropLast.flatMap f ++ f last := by
  obtain ⟨before, rfl⟩ := getLast?_eq_some_iff.mp isLast
  rw [dropLast_concat, flatMap_append, flatMap_singleton]

/-- Merging an event into the actions appends its mutations. -/
theorem sent_decodeEvent {actions : List Action} (aligned : ∀ action ∈ actions, action.Aligned)
    (event : CacheEvent) : (EventActions.decodeEvent actions event).flatMap (Action.sent config) =
      actions.flatMap (Action.sent config) ++ event.mutations config := by
  cases event with
  | blockStored tier hashes components =>
    have alone : Action.sent config (.report tier hashes
        (replicate hashes.length (components.map Prod.fst))
        (replicate hashes.length (components.map Prod.snd))) =
        CacheEvent.mutations config (.blockStored tier hashes components) := by
      rw [sent_report config tier length_replicate length_replicate, reports_replicate, map_map]
      rfl
    simp only [EventActions.decodeEvent, EventActions.report]
    split
    next empty => rw [isEmpty_iff.mp empty, CacheEvent.mutations, map_nil, append_nil]
    next =>
      split
      next lastTier last masks blockSizes isLast =>
        split
        next same =>
          obtain ⟨-, masksLength, sizesLength⟩ := aligned _ (mem_of_getLast? isLast)
          rw [flatMap_of_getLast? _ isLast, flatMap_append, flatMap_singleton,
            append_assoc, ← alone, same,
            sent_report config tier masksLength sizesLength,
            sent_report config tier length_replicate length_replicate,
            sent_report config tier (by simp [masksLength]) (by simp [sizesLength]),
            reports_append masksLength sizesLength, map_append]
        next => rw [flatMap_append, flatMap_singleton, alone]
      next => rw [flatMap_append, flatMap_singleton, alone]
  | blockRemoved tier hashes =>
    simp only [EventActions.decodeEvent, EventActions.revoke]
    split
    next empty => rw [isEmpty_iff.mp empty, CacheEvent.mutations, map_nil, append_nil]
    next =>
      split
      next lastTier last isLast =>
        split
        next same =>
          rw [flatMap_of_getLast? _ isLast, flatMap_append, flatMap_singleton,
            append_assoc, same, sent_revoke, sent_revoke, map_append]
          rfl
        next =>
          rw [flatMap_append, flatMap_singleton, sent_revoke]
          rfl
      next =>
        rw [flatMap_append, flatMap_singleton, sent_revoke]
        rfl
  | allBlocksCleared =>
    rw [EventActions.decodeEvent, EventActions.clearAll, flatMap_append,
      flatMap_singleton, sent_clearAll, CacheEvent.mutations]

/-- The decoded actions are sent as the mutations of the events. -/
theorem sent_decodeEventBatch (events : List CacheEvent) :
    (EventActions.decodeEventBatch events).flatMap (Action.sent config) =
      events.flatMap (CacheEvent.mutations config) := by
  have walk : ∀ (events : List CacheEvent) (actions : List Action),
      (∀ action ∈ actions, action.Aligned) →
      (events.foldl EventActions.decodeEvent actions).flatMap (Action.sent config) =
        actions.flatMap (Action.sent config) ++ events.flatMap (CacheEvent.mutations config) := by
    intro events
    induction events with
    | nil => exact fun _ _ => (append_nil _).symm
    | cons event events ih =>
      intro actions aligned
      rw [foldl_cons, ih _ (EventActions.decodeEvent_aligned aligned event),
        sent_decodeEvent config aligned, append_assoc, flatMap_cons]
  rw [EventActions.decodeEventBatch, walk events [] nofun, flatMap_nil, nil_append]

/-- One hash at a time is sent the same. -/
theorem sent_singleActions (event : CacheEvent) :
    (event.singleActions config).flatMap ExternalKvAction.mutations = event.mutations config := by
  cases event with
  | blockStored tier hashes components =>
    rw [CacheEvent.singleActions, flatMap_assoc, CacheEvent.mutations, map_eq_flatMap]
    exact flatMap_congr fun hash _ => sent_report config tier rfl rfl
  | blockRemoved tier hashes =>
    rw [CacheEvent.singleActions, flatMap_assoc, CacheEvent.mutations, map_eq_flatMap]
    exact flatMap_congr fun hash _ => sent_revoke config tier [hash]
  | allBlocksCleared => exact sent_clearAll config

/-! ### Splitting keeps the mutations -/

/-- The slices of a list make up its beginning. -/
theorem flatMap_range_slices {α : Type*} (items : List α) (size count : ℕ) :
    ((range count).flatMap fun index =>
      (items.take (min (index * size + size) items.length)).drop (index * size)) =
      items.take (count * size) := by
  induction count with
  | zero => rw [Nat.zero_mul, take_zero, range_zero, flatMap_nil]
  | succ count ih =>
    rw [range_succ, flatMap_append, ih, flatMap_singleton,
      ← take_eq_take_min, drop_take, Nat.add_sub_cancel_left, Nat.succ_mul,
      take_add]

/-- A slice of a side array gives the values of its hashes. -/
theorem sliceOrEmpty_getD {values : List UInt32} {start stop index : ℕ}
    (aligned : values = [] ∨ values.length = hashes.length)
    (inside : index < ((hashes.take stop).drop start).length) :
    (if (sliceOrEmpty values start stop).isEmpty then 0
      else (sliceOrEmpty values start stop).getD index 0) =
      if values.isEmpty then 0 else values.getD (start + index) 0 := by
  unfold sliceOrEmpty
  by_cases empty : values.isEmpty
  · simp [empty]
  · rw [List.isEmpty_iff] at empty
    have length := aligned.resolve_left empty
    rw [length_drop, length_take] at inside
    have within : index < ((values.take stop).drop start).length := by
      rw [length_drop, length_take]
      omega
    have nonempty : (values.take stop).drop start ≠ [] :=
      ne_nil_of_length_pos (Nat.zero_lt_of_lt within)
    rw [isEmpty_iff.not.mpr empty |> eq_false_of_ne_true]
    simp only [Bool.false_eq_true, ↓reduceIte]
    rw [if_neg (isEmpty_iff.not.mpr nonempty), getD_eq_getElem _ _ within,
      getElem_drop, getElem_take, getD_eq_getElem _ _ (by omega)]

/-- A piece carries a slice of the reports. -/
theorem reports_slice (formed : action.Formed) (start stop : ℕ) : ExternalKvAction.reports
      { action with
        hashes := (action.hashes.take stop).drop start
        componentMasks := sliceOrEmpty action.componentMasks start stop
        blockSizes := sliceOrEmpty action.blockSizes start stop } =
      (action.reports.take stop).drop start := by
  apply ext_getElem
  · simp
  · intro index left right
    have inside : index < ((action.hashes.take stop).drop start).length := by simpa using left
    simp only [ExternalKvAction.reports, getElem_map, getElem_zipIdx, getElem_drop,
      getElem_take, zero_add, sliceOrEmpty_getD formed.masks inside,
      sliceOrEmpty_getD formed.sizes inside]

/-- The pieces of an action carry its mutations in order. -/
theorem mutations_splitAction (formed : action.Formed) :
    (splitAction action).flatMap ExternalKvAction.mutations = action.mutations := by
  unfold splitAction
  split
  next => rw [flatMap_singleton]
  next large =>
    set count := (action.hashes.length + maxHashesPerRequest - 1) / maxHashesPerRequest
      with isCount
    have covers : action.hashes.length ≤ count * maxHashesPerRequest := by
      rw [isCount]
      unfold maxHashesPerRequest
      omega
    rw [flatMap_map]
    rcases formed.type with ⟨type, -⟩ | ⟨type, -⟩ | ⟨-, empty⟩
    · have length : action.reports.length = action.hashes.length := by simp
      have slices := flatMap_range_slices action.reports maxHashesPerRequest count
      rw [take_of_length_le (length ▸ covers), length] at slices
      have piece : ∀ hashes masks sizes,
          ExternalKvAction.mutations ⟨action.type, action.tier, hashes, masks, sizes⟩ =
            (ExternalKvAction.reports ⟨action.type, action.tier, hashes, masks, sizes⟩).map
              (Mutation.report action.tier) :=
        fun hashes masks sizes =>
          @mutations_of_report ⟨action.type, action.tier, hashes, masks, sizes⟩ type
      rw [mutations_of_report type, ← slices, map_flatMap]
      refine flatMap_congr fun index _ => ?_
      rw [piece, reports_slice formed]
    · have slices := flatMap_range_slices action.hashes maxHashesPerRequest count
      rw [take_of_length_le covers] at slices
      rw [mutations_of_revoke type, ← slices, map_flatMap, slices]
      congr 1
      funext index
      exact @mutations_of_revoke ⟨action.type, action.tier, _, _, _⟩ type
    · rw [empty] at large
      exact absurd (Nat.zero_le _) large

/-! ### Both ways of applying events -/

section Applying

variable (order : Listing Int64) (config : BridgeConfig) (seq : UInt64)
  (events : List CacheEvent) (state : State)

/-- The request that is split into parts. -/
def request : ApplyExternalKvBatchRequest :=
  buildApplyRequest config seq (EventActions.decodeEventBatch events)

/-- The state the bridge's parts leave. -/
def bridged : State :=
  (splitApplyRequest (request config seq events)).foldl
    (fun state part => (state.apply order part).2) state

/-- The state that applying the mutations one hash at a time leaves. -/
def oneAtATime : State :=
  ((events.flatMap (CacheEvent.singleActions config)).map fun action =>
    { request config seq events with actions := [action] }).foldl
    (fun state part => (state.apply order part).2) state

/-- The wire actions of the parts. -/
def pieces : List ExternalKvAction := (request config seq events).actions.flatMap splitAction

/-- The wire actions are well formed. -/
theorem pieces_formed : ∀ piece ∈ pieces config seq events, piece.Formed := by
  intro piece here
  obtain ⟨action, sent, here⟩ := mem_flatMap.mp here
  exact (splitAction_formed (buildApplyRequest_formed config seq events action sent) piece here).1

/-- They carry the mutations of the events. -/
theorem mutations_pieces : (pieces config seq events).flatMap ExternalKvAction.mutations =
      events.flatMap (CacheEvent.mutations config) := by
  have each : ∀ action ∈ (request config seq events).actions,
      (splitAction action).flatMap ExternalKvAction.mutations = action.mutations :=
    fun action sent => mutations_splitAction
      (buildApplyRequest_formed config seq events action sent)
  rw [pieces, flatMap_assoc, flatMap_congr each, ← sent_decodeEventBatch]
  exact flatMap_assoc ..

end Applying

/-- A well-formed action has a mutation. -/
theorem mutations_ne_nil {action : ExternalKvAction} (formed : action.Formed) :
    action.mutations ≠ [] := by
  rcases formed.type with ⟨type, nonempty⟩ | ⟨type, nonempty⟩ | ⟨type, -⟩
  · rw [mutations_of_report type]
    exact map_eq_nil_iff.not.mpr (ne_nil_of_length_pos
      (length_reports action ▸ length_pos_iff_ne_nil.mpr nonempty))
  · rw [mutations_of_revoke type]
    simpa using nonempty
  · simp [ExternalKvAction.mutations, type]

/-- Well-formed actions without a mutation are none. -/
theorem flatMap_mutations_eq_nil {actions : List ExternalKvAction}
    (formed : ∀ action ∈ actions, action.Formed) :
    actions.flatMap ExternalKvAction.mutations = [] ↔ actions = [] := by
  rw [flatMap_eq_nil_iff]
  constructor
  · intro none
    refine eq_nil_iff_forall_not_mem.mpr fun action member => ?_
    exact mutations_ne_nil (formed action member) (none action member)
  · rintro rfl
    simp

section Applying

variable (order : Listing Int64) (config : BridgeConfig) (seq : UInt64)
  (events : List CacheEvent) (state : State)

/-- Applying well-formed batches: their mutations after the address. -/
theorem foldl_apply_eq {batches : List (List ExternalKvAction)}
    (formed : ∀ batch ∈ batches, ∀ action ∈ batch, action.Formed) :
    (batches.map fun actions => { request config seq events with actions := actions }).foldl
        (fun state part => (state.apply order part).2) state =
      if batches = [] then state
      else (batches.flatten.flatMap ExternalKvAction.applied).foldl
        (State.mutate order config.workerId)
        (state.touch config.workerId config.workerAddress config.cacheSpec) := by
  have same : (batches.map fun actions =>
      { request config seq events with actions := actions }).foldl
        (fun state part => (state.apply order part).2) state =
      (batches.map fun actions => actions.flatMap ExternalKvAction.applied).foldl
        (fun state batch => batch.foldl (State.mutate order config.workerId)
          (state.touch config.workerId config.workerAddress config.cacheSpec)) state := by
    induction batches generalizing state with
    | nil => rfl
    | cons batch batches ih =>
      obtain ⟨head, tail⟩ := forall_mem_cons.mp formed
      rw [map_cons, foldl_cons, ih _ tail, map_cons]
      rw [State.apply, State.applyActions_eq order _ _ head]
      rfl
  rw [same, State.foldl_batches]
  by_cases empty : batches = []
  · rw [if_pos empty, if_pos (map_eq_nil_iff.mpr empty)]
  · rw [if_neg empty, if_neg (map_eq_nil_iff.not.mpr empty), ← flatMap_def,
      ← flatMap_id, flatMap_assoc]
    rfl

/-- The state the bridge's parts leave, by mutations. -/
theorem bridged_eq : bridged order config seq events state =
      if events.flatMap (CacheEvent.mutations config) = [] then state
      else ((pieces config seq events).flatMap ExternalKvAction.applied).foldl
        (State.mutate order config.workerId)
        (state.touch config.workerId config.workerAddress config.cacheSpec) := by
  have flat := flatten_splitLoop [] [] 0 (pieces config seq events)
  rw [flatten_nil, nil_append, nil_append] at flat
  have formed : ∀ batch ∈ splitLoop [] [] 0 (pieces config seq events),
      ∀ action ∈ batch, action.Formed := by
    intro batch inside action member
    refine pieces_formed config seq events action ?_
    rw [← flat]
    exact mem_flatten.mpr ⟨batch, inside, member⟩
  have none : splitLoop [] [] 0 (pieces config seq events) = [] ↔
      events.flatMap (CacheEvent.mutations config) = [] := by
    rw [← mutations_pieces config seq events,
      flatMap_mutations_eq_nil (pieces_formed config seq events)]
    constructor
    · intro none
      rw [← flat, none, flatten_nil]
    · intro none
      rw [none]
      rfl
  have applied := foldl_apply_eq order config seq events state formed
  rw [flat] at applied
  simp only [none] at applied
  exact applied

/-- The actions of single mutations are well formed. -/
theorem singleActions_formed (event : CacheEvent) :
    ∀ action ∈ event.singleActions config, action.Formed := by
  cases event with
  | blockStored tier hashes components =>
    intro action member
    obtain ⟨hash, -, here⟩ := mem_flatMap.mp member
    exact @wireActions_formed config
      (.report tier [hash] [components.map Prod.fst] [components.map Prod.snd])
      ⟨cons_ne_nil _ _, rfl, rfl⟩ action here
  | blockRemoved tier hashes =>
    intro action member
    obtain ⟨hash, -, here⟩ := mem_flatMap.mp member
    exact @wireActions_formed config (.revoke tier [hash]) (cons_ne_nil _ _) action here
  | allBlocksCleared => exact @wireActions_formed config .clearAll trivial

/-- An action of one mutation carries it out. -/
theorem applied_singleActions (event : CacheEvent) : ∀ action ∈ event.singleActions config,
      action.applied = action.mutations := by
  cases event with
  | blockStored tier hashes components | blockRemoved tier hashes =>
    intro action member
    obtain ⟨hash, -, here⟩ := mem_flatMap.mp member
    obtain rfl := mem_singleton.mp here
    rfl
  | allBlocksCleared =>
    intro action member
    obtain ⟨tier, -, rfl⟩ := mem_map.mp member
    rfl

/-- The state that one mutation at a time leaves. -/
theorem oneAtATime_eq : oneAtATime order config seq events state =
      if events.flatMap (CacheEvent.mutations config) = [] then state
      else (events.flatMap (CacheEvent.mutations config)).foldl
        (State.mutate order config.workerId)
        (state.touch config.workerId config.workerAddress config.cacheSpec) := by
  set singles := events.flatMap (CacheEvent.singleActions config) with isSingles
  have formed : ∀ action ∈ singles, action.Formed := by
    intro action member
    obtain ⟨event, -, here⟩ := mem_flatMap.mp member
    exact singleActions_formed config event action here
  have carried : singles.flatMap ExternalKvAction.mutations =
      events.flatMap (CacheEvent.mutations config) := by
    rw [flatMap_assoc]
    exact flatMap_congr fun event _ => sent_singleActions config event
  have all : singles.flatMap ExternalKvAction.applied =
      events.flatMap (CacheEvent.mutations config) := by
    rw [← carried]
    refine flatMap_congr fun action member => ?_
    obtain ⟨event, -, here⟩ := mem_flatMap.mp member
    exact applied_singleActions config event action here
  have batches : (singles.map fun action => [action]).flatten = singles :=
    flatMap_singleton' singles
  have each : ∀ batch ∈ singles.map fun action => [action], ∀ action ∈ batch, action.Formed := by
    intro batch inside action member
    obtain ⟨single, here, rfl⟩ := mem_map.mp inside
    obtain rfl := mem_singleton.mp member
    exact formed action here
  have applied := foldl_apply_eq order config seq events state each
  have none : (singles.map fun action => [action]) = [] ↔
      events.flatMap (CacheEvent.mutations config) = [] := by
    rw [map_eq_nil_iff, ← carried, flatMap_mutations_eq_nil formed]
  rw [map_map, batches, all] at applied
  simp only [none] at applied
  exact applied

end Applying

end AvaServe.Indexer
