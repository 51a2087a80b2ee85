import AvaServe.Indexer.Bridge

/-!
# What the bridge sends

Every request the bridge sends passes the service's validation, and the requests
together carry the decoded actions in order.
-/

namespace AvaServe.Indexer

open Foundation List

/-! ### Decoded actions -/

/-- Reports and revokes name hashes, and a report's side arrays are aligned. -/
def Action.Aligned : Action → Prop
  | .report _ hashes masks blockSizes =>
    hashes ≠ [] ∧ masks.length = hashes.length ∧ blockSizes.length = hashes.length
  | .revoke _ hashes => hashes ≠ []
  | .clearAll => True

namespace EventActions

variable {actions : List Action}

/-- A report keeps the lists aligned. -/
theorem report_aligned (aligned : ∀ action ∈ actions, action.Aligned) (tier : TierType)
    (hashes : List Int64) (mask blockSize : Option UInt32) :
    ∀ action ∈ report actions tier hashes mask blockSize, action.Aligned := by
  unfold report
  split
  next => exact aligned
  next nonempty =>
    rw [List.isEmpty_iff] at nonempty
    have fresh : ∀ action ∈ actions ++ [.report tier hashes (replicate hashes.length mask)
        (replicate hashes.length blockSize)], action.Aligned := by
      refine forall_mem_append.mpr ⟨aligned, forall_mem_singleton.mpr ?_⟩
      exact ⟨nonempty, length_replicate, length_replicate⟩
    split
    next lastTier last masks blockSizes isLast =>
      split
      next same =>
        have lastAligned := aligned _ (mem_of_getLast? isLast)
        refine forall_mem_append.mpr
          ⟨fun action member => aligned action (mem_of_mem_dropLast member),
            forall_mem_singleton.mpr ⟨?_, ?_, ?_⟩⟩
        · exact fun empty => nonempty (append_eq_nil_iff.mp empty).2
        · rw [length_append, length_append, length_replicate, lastAligned.2.1]
        · rw [length_append, length_append, length_replicate, lastAligned.2.2]
      next => exact fresh
    next => exact fresh

/-- So does a revocation. -/
theorem revoke_aligned (aligned : ∀ action ∈ actions, action.Aligned) (tier : TierType)
    (hashes : List Int64) : ∀ action ∈ revoke actions tier hashes, action.Aligned := by
  unfold revoke
  split
  next => exact aligned
  next nonempty =>
    rw [List.isEmpty_iff] at nonempty
    have fresh : ∀ action ∈ actions ++ [.revoke tier hashes], action.Aligned :=
      forall_mem_append.mpr ⟨aligned, forall_mem_singleton.mpr nonempty⟩
    split
    next lastTier last isLast =>
      split
      next same =>
        refine forall_mem_append.mpr
          ⟨fun action member => aligned action (mem_of_mem_dropLast member),
            forall_mem_singleton.mpr ?_⟩
        exact fun empty => nonempty (append_eq_nil_iff.mp empty).2
      next => exact fresh
    next => exact fresh

/-- So does an event. -/
theorem decodeEvent_aligned (aligned : ∀ action ∈ actions, action.Aligned) (event : CacheEvent) :
    ∀ action ∈ decodeEvent actions event, action.Aligned := by
  cases event with
  | blockStored tier hashes components => exact report_aligned aligned tier hashes _ _
  | blockRemoved tier hashes => exact revoke_aligned aligned tier hashes
  | allBlocksCleared => exact forall_mem_append.mpr ⟨aligned, forall_mem_singleton.mpr trivial⟩

/-- So do all events. -/
theorem decodeEventBatch_aligned (events : List CacheEvent) :
    ∀ action ∈ decodeEventBatch events, action.Aligned := by
  refine foldlRecOn (motive := fun actions => ∀ action ∈ actions, Action.Aligned action) events
    decodeEvent nofun fun _ aligned event _ => ?_
  exact decodeEvent_aligned aligned event

end EventActions

/-! ### Wire actions -/

/-- A wire action of the bridge: a known type and tier, hashes where the type needs them,
and side arrays that are absent or aligned. -/
structure ExternalKvAction.Formed (action : ExternalKvAction) : Prop where
  type : action.type = ExternalKvActionType.actionReport.code ∧ action.hashes ≠ [] ∨
    action.type = ExternalKvActionType.actionRevoke.code ∧ action.hashes ≠ [] ∨
    action.type = ExternalKvActionType.actionClearAllAtTier.code ∧ action.hashes = []
  tier : ∃ tier : TierType, action.tier = tier.code
  masks : action.componentMasks = [] ∨ action.componentMasks.length = action.hashes.length
  sizes : action.blockSizes = [] ∨ action.blockSizes.length = action.hashes.length

/-- Encoded values are none or all. -/
theorem encodeValues_length (values : List (Option UInt32)) :
    encodeValues values = [] ∨ (encodeValues values).length = values.length := by
  unfold encodeValues
  split
  · exact .inl rfl
  · exact .inr (length_map _)

/-- The wire actions are well formed. -/
theorem wireActions_formed (config : BridgeConfig) {action : Action} (aligned : action.Aligned) :
    ∀ wire ∈ wireActions config action, wire.Formed := by
  cases action with
  | report tier hashes masks blockSizes =>
    obtain ⟨nonempty, masksLength, sizesLength⟩ := aligned
    refine forall_mem_singleton.mpr ⟨.inl ⟨rfl, nonempty⟩, ⟨tier, rfl⟩, ?_, ?_⟩
    · exact (encodeValues_length masks).imp_right fun same => same.trans masksLength
    · exact (encodeValues_length blockSizes).imp_right fun same => same.trans sizesLength
  | revoke tier hashes =>
    exact forall_mem_singleton.mpr
      ⟨.inr (.inl ⟨rfl, aligned⟩), ⟨tier, rfl⟩, .inl rfl, .inl rfl⟩
  | clearAll =>
    intro wire member
    obtain ⟨tier, -, rfl⟩ := mem_map.mp member
    exact ⟨.inr (.inr ⟨rfl, rfl⟩), ⟨tier, rfl⟩, .inl rfl, .inl rfl⟩

variable (config : BridgeConfig) (seq : UInt64)

/-- So is a request. -/
theorem buildApplyRequest_formed (events : List CacheEvent) :
    ∀ wire ∈ (buildApplyRequest config seq (EventActions.decodeEventBatch events)).actions,
      wire.Formed := by
  intro wire member
  obtain ⟨action, inside, here⟩ := mem_flatMap.mp member
  exact wireActions_formed config (EventActions.decodeEventBatch_aligned events action inside) wire
    here

/-! ### Splitting an action -/

variable {hashes : List Int64} {values : List UInt32}

/-- A slice stays aligned. -/
theorem sliceOrEmpty_length {start stop : ℕ}
    (aligned : values = [] ∨ values.length = hashes.length) :
    sliceOrEmpty values start stop = [] ∨
      (sliceOrEmpty values start stop).length = ((hashes.take stop).drop start).length := by
  unfold sliceOrEmpty
  split
  next => exact .inl rfl
  next nonempty =>
    rw [List.isEmpty_iff] at nonempty
    refine .inr ?_
    rw [length_drop, length_drop, length_take, length_take, aligned.resolve_left nonempty]

variable {action : ExternalKvAction}

/-- The pieces of an action are as well formed as the action and within the bound. -/
theorem splitAction_formed (formed : action.Formed) :
    ∀ piece ∈ splitAction action, piece.Formed ∧ piece.hashes.length ≤ maxHashesPerRequest := by
  unfold splitAction
  split
  next small => exact forall_mem_singleton.mpr ⟨formed, small⟩
  next large =>
    intro piece member
    obtain ⟨index, inside, rfl⟩ := mem_map.mp member
    rw [mem_range] at inside
    have start : index * maxHashesPerRequest < action.hashes.length := by
      unfold maxHashesPerRequest at inside ⊢
      omega
    have nonempty : (action.hashes.take (min (index * maxHashesPerRequest + maxHashesPerRequest)
        action.hashes.length)).drop (index * maxHashesPerRequest) ≠ [] := by
      rw [← length_pos_iff_ne_nil, length_drop, length_take]
      unfold maxHashesPerRequest at start ⊢
      omega
    have notClear : action.hashes ≠ [] := by
      rintro empty
      rw [empty] at start
      exact absurd start (Nat.not_lt_zero _)
    refine ⟨⟨?_, formed.tier, sliceOrEmpty_length formed.masks, sliceOrEmpty_length formed.sizes⟩,
      ?_⟩
    · rcases formed.type with ⟨type, -⟩ | ⟨type, -⟩ | ⟨-, empty⟩
      · exact .inl ⟨type, nonempty⟩
      · exact .inr (.inl ⟨type, nonempty⟩)
      · exact absurd empty notClear
    · rw [length_drop, length_take]
      omega

/-! ### Packing the pieces -/

/-- Splitting loses no action. -/
theorem flatten_splitLoop (batches : List (List ExternalKvAction))
    (current : List ExternalKvAction) (currentHashes : ℕ) (actions : List ExternalKvAction) :
    (splitLoop batches current currentHashes actions).flatten =
      batches.flatten ++ current ++ actions := by
  induction actions generalizing batches current currentHashes with
  | nil =>
    rw [splitLoop]
    split
    next empty => simp [isEmpty_iff.mp empty]
    next => simp
  | cons action actions ih =>
    rw [splitLoop]
    split
    next => simp [ih]
    next => simp [ih]

/-- The number of hashes of a batch. -/
def totalHashes (actions : List ExternalKvAction) : ℕ :=
  (actions.map fun action => action.hashes.length).sum

/-- Hashes add up. -/
theorem totalHashes_append (left right : List ExternalKvAction) :
    totalHashes (left ++ right) = totalHashes left + totalHashes right := by
  simp [totalHashes]

/-- A batch within the service's bounds. -/
def Bounded (batch : List ExternalKvAction) : Prop :=
  batch ≠ [] ∧ batch.length ≤ maxActionsPerBatch ∧ totalHashes batch ≤ maxHashesPerRequest

/-- Every part is bounded. -/
theorem splitLoop_bounded {batches : List (List ExternalKvAction)} {current : List ExternalKvAction}
    {actions : List ExternalKvAction} (closed : ∀ batch ∈ batches, Bounded batch)
    (opened : current = [] ∨ Bounded current)
    (small : ∀ action ∈ actions, action.hashes.length ≤ maxHashesPerRequest) :
    ∀ batch ∈ splitLoop batches current (totalHashes current) actions, Bounded batch := by
  induction actions generalizing batches current with
  | nil =>
    rw [splitLoop]
    split
    next => exact closed
    next nonempty =>
      rw [List.isEmpty_iff] at nonempty
      exact forall_mem_append.mpr
        ⟨closed, forall_mem_singleton.mpr (opened.resolve_left nonempty)⟩
  | cons action actions ih =>
    obtain ⟨head, tail⟩ := forall_mem_cons.mp small
    have alone : totalHashes [action] = action.hashes.length := by simp [totalHashes]
    rw [splitLoop]
    split
    next full =>
      refine ih (forall_mem_append.mpr
        ⟨closed, forall_mem_singleton.mpr (opened.resolve_left full.1)⟩) ?_ tail
      exact .inr ⟨cons_ne_nil _ _, by simp [maxActionsPerBatch], by rwa [alone]⟩
    next room =>
      rw [← alone, ← totalHashes_append]
      refine ih closed (.inr ⟨by simp, ?_, ?_⟩) tail
      · rcases opened with rfl | ⟨nonempty, length, -⟩
        · simp [maxActionsPerBatch]
        · rw [length_append, length_singleton]
          have notFull : current.length ≠ maxActionsPerBatch := fun full =>
            room ⟨nonempty, .inl full⟩
          omega
      · rw [totalHashes_append]
        rcases opened with rfl | ⟨nonempty, -⟩
        · simpa [totalHashes] using head
        · exact not_lt.mp fun exceeds => room ⟨nonempty, .inr exceeds⟩

/-! ### Validation -/

/-- Tiers are valid. -/
theorem validateTier_code (tier : TierType) : validateTier tier.code = .ok () := by
  cases tier <;> decide

/-- Aligned lists are valid. -/
theorem validateAligned_ok (field : String)
    (aligned : values = [] ∨ values.length = hashes.length) :
    validateAligned values.length hashes.length field = .ok () := by
  unfold validateAligned
  rw [if_neg]
  rintro ⟨nonempty, different⟩
  rcases aligned with empty | same
  · exact nonempty (by rw [empty]; rfl)
  · exact different same

/-- So are few hashes. -/
theorem validateHashesBounded_ok (nonempty : hashes ≠ [])
    (small : hashes.length ≤ maxHashesPerRequest) : validateHashesBounded hashes = .ok () := by
  unfold validateHashesBounded validateHashes
  rw [if_neg (by rwa [List.isEmpty_iff]), if_neg (not_lt.mpr small)]
  rfl

/-- So are well-formed actions. -/
theorem validateAction_ok (formed : action.Formed)
    (small : action.hashes.length ≤ maxHashesPerRequest) : validateAction action = .ok () := by
  obtain ⟨tier, isTier⟩ := formed.tier
  have masks := validateAligned_ok "component_masks" formed.masks
  have sizes := validateAligned_ok "block_sizes" formed.sizes
  unfold validateAction
  rw [isTier, validateTier_code, masks, sizes]
  rcases formed.type with ⟨type, nonempty⟩ | ⟨type, nonempty⟩ | ⟨type, -⟩
  · simp only [type, validateHashesBounded_ok nonempty small]
    rfl
  · simp only [type, validateHashesBounded_ok nonempty small]
    rfl
  · simp only [type]
    rfl

/-- So are bounded lists of them. -/
theorem validateActions_ok {actions : List ExternalKvAction} (bounded : Bounded actions)
    (formed : ∀ action ∈ actions, action.Formed ∧ action.hashes.length ≤ maxHashesPerRequest) :
    validateActions actions = .ok () := by
  obtain ⟨-, length, total⟩ := bounded
  have each : ∀ actions : List ExternalKvAction, (∀ action ∈ actions,
      action.Formed ∧ action.hashes.length ≤ maxHashesPerRequest) →
      validateEach actions = .ok () := by
    intro actions
    induction actions with
    | nil => exact fun _ => rfl
    | cons action actions ih =>
      intro formed
      obtain ⟨head, tail⟩ := forall_mem_cons.mp formed
      rw [validateEach, validateAction_ok head.1 head.2, ih tail]
      rfl
  unfold validateActions
  rw [if_neg (not_lt.mpr length), each actions formed]
  exact if_neg (not_lt.mpr total)

/-- Every request the bridge sends passes the service's validation. -/
theorem validateActions_of_mem_split (events : List CacheEvent) {part : ApplyExternalKvBatchRequest}
    (member : part ∈ splitApplyRequest
      (buildApplyRequest config seq (EventActions.decodeEventBatch events))) :
    validateActions part.actions = .ok () := by
  obtain ⟨batch, inside, rfl⟩ := mem_map.mp member
  have pieces : ∀ piece ∈ (buildApplyRequest config seq
      (EventActions.decodeEventBatch events)).actions.flatMap splitAction,
      piece.Formed ∧ piece.hashes.length ≤ maxHashesPerRequest := by
    intro piece here
    obtain ⟨action, sent, here⟩ := mem_flatMap.mp here
    exact splitAction_formed (buildApplyRequest_formed config seq events action sent) piece here
  have bounded := @splitLoop_bounded [] [] _ (nofun) (.inl rfl)
    (fun piece here => (pieces piece here).2) batch inside
  refine validateActions_ok bounded fun piece here => pieces piece ?_
  have flat := flatten_splitLoop [] [] 0 ((buildApplyRequest config seq
    (EventActions.decodeEventBatch events)).actions.flatMap splitAction)
  rw [flatten_nil, nil_append, nil_append] at flat
  rw [← flat]
  exact mem_flatten.mpr ⟨batch, inside, here⟩

end AvaServe.Indexer
