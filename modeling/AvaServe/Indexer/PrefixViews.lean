import Mathlib
import AvaServe.Indexer.Prefix

/-!
# What a prefix query sees of a worker

Both prefix queries give every worker the same blocks to scan: for each hash the tiers
at which its placements put the worker. They differ in which workers they consider,
and a worker that only the default query considers lacks the first block.
-/

namespace AvaServe.Indexer

open Foundation List Function

/-- The tiers at which placements put a worker. -/
def tiersOf (workerId : String) (placements : List ((String × Int32) × UInt32)) :
    List (Int32 × UInt32) :=
  (placements.filter fun placement => placement.1.1 = workerId).map fun placement =>
    (placement.1.2, placement.2)

/-- The components of a block held at some tiers. -/
def heldAt (tokenCount : UInt32) (tiers : List (Int32 × UInt32)) : Option BlockComponents :=
  if tiers = [] then none else some ⟨tokenCount, tiers⟩

/-- What a query sees of a worker's block. -/
def blockView (order : PlacementOrder) (state : State) (workerId : String) (hash : Int64) :
    Option BlockComponents :=
  match state.blocks.lookup hash with
  | none => none
  | some block => heldAt block.tokenCount (tiersOf workerId (order.walk hash block))

/-- The prefix of a worker for the considered hashes. -/
def workerPrefix (order : PlacementOrder) (state : State) (hashes : List Int64)
    (workerId : String) : UInt32 :=
  computeWorkerPrefix (state.spec workerId) (hashes.map (blockView order state workerId))

/-- Tiers of two lists of placements. -/
theorem tiersOf_append (workerId : String) (first second : List ((String × Int32) × UInt32)) :
    tiersOf workerId (first ++ second) = tiersOf workerId first ++ tiersOf workerId second := by
  rw [tiersOf, filter_append, map_append]
  rfl

/-- A placement of the worker. -/
theorem tiersOf_singleton_self (workerId : String) (tier : Int32) (mask : UInt32) :
    tiersOf workerId [((workerId, tier), mask)] = [(tier, mask)] := by
  rw [tiersOf, filter_cons_of_pos (by simp)]
  rfl

/-- A placement of another. -/
theorem tiersOf_singleton_ne {workerId other : String} (ne : other ≠ workerId) (tier : Int32)
    (mask : UInt32) : tiersOf workerId [((other, tier), mask)] = [] := by
  rw [tiersOf, filter_cons_of_neg (by simpa using ne)]
  rfl

/-! ### The default query's views -/

namespace CollectViews

variable {order : PlacementOrder} {state : State} {count : ℕ}

/-- The blocks the table has for a worker. -/
def blocksOf (count : ℕ) (table : Table) (workerId : String) : List (Option BlockComponents) :=
  match table.byWorker.lookup workerId with
  | none => replicate count none
  | some view => view.blocks

/-- The tiers added to a block one after the other. -/
def addTiers (tokenCount : UInt32) (tiers : List (Int32 × UInt32))
    (block : Option BlockComponents) : Option BlockComponents :=
  tiers.foldl (fun block tier => addTier tokenCount tier.1 tier.2 block) block

/-- A block that is held gains tiers. -/
theorem addTiers_some (tokenCount : UInt32) (tiers : List (Int32 × UInt32))
    (block : BlockComponents) : addTiers tokenCount tiers (some block) =
      some { block with tierMasks := block.tierMasks ++ tiers } := by
  induction tiers generalizing block with
  | nil => rw [append_nil]; rfl
  | cons tier tiers ih =>
    change addTiers tokenCount tiers (some _) = _
    rw [ih, append_assoc]
    rfl

/-- A block that was not. -/
theorem addTiers_none (tokenCount : UInt32) (tiers : List (Int32 × UInt32)) :
    addTiers tokenCount tiers none = heldAt tokenCount tiers := by
  cases tiers with
  | nil => rfl
  | cons tier tiers => exact addTiers_some tokenCount tiers ⟨tokenCount, [tier]⟩

/-- A placement adds its tier to its worker's block. -/
theorem blocksOf_addPlacement (index : ℕ) (hash : Int64) (tokenCount : UInt32) (table : Table)
    (placement : (String × Int32) × UInt32) (workerId : String) :
    blocksOf count (addPlacement state count true index hash tokenCount table placement) workerId =
      (blocksOf count table workerId).modify index
        (addTiers tokenCount (tiersOf workerId [placement])) := by
  obtain ⟨⟨worker, tier⟩, mask⟩ := placement
  unfold blocksOf addPlacement
  by_cases same : workerId = worker
  · subst same
    rw [Finmap.lookup_insert, tiersOf_singleton_self]
    cases table.byWorker.lookup workerId with
    | none | some view => rfl
  · rw [Finmap.lookup_insert_of_ne _ same, tiersOf_singleton_ne (Ne.symm same)]
    exact (modify_id _ _).symm

/-- So do several placements. -/
theorem blocksOf_foldl_addPlacement (index : ℕ) (hash : Int64) (tokenCount : UInt32)
    (placements : List ((String × Int32) × UInt32)) (table : Table) (workerId : String) :
    blocksOf count
        (placements.foldl (addPlacement state count true index hash tokenCount) table) workerId =
      (blocksOf count table workerId).modify index
        (addTiers tokenCount (tiersOf workerId placements)) := by
  induction placements generalizing table with
  | nil => exact (modify_id _ _).symm
  | cons placement placements ih =>
    have split : tiersOf workerId (placement :: placements) =
        tiersOf workerId [placement] ++ tiersOf workerId placements :=
      tiersOf_append workerId [placement] placements
    rw [foldl_cons, ih, blocksOf_addPlacement, modify_modify_eq, split]
    congr 1
    funext block
    exact (foldl_append ..).symm

/-- A hash of the query fills its place in the blocks of every worker. -/
theorem blocksOf_addHash (order : PlacementOrder) (table : Table) (hash : Int64)
    (workerId : String) {before after : List (Option BlockComponents)}
    (blocks : blocksOf count table workerId = before ++ none :: after) :
    blocksOf count (addHash order state count true table (hash, before.length)) workerId =
      before ++ blockView order state workerId hash :: after := by
  have filled (f : Option BlockComponents → Option BlockComponents) :
      (before ++ none :: after).modify before.length f = before ++ f none :: after := by
    rw [modify_eq_take_cons_drop (by simp)]
    simp
  unfold addHash blockView
  cases state.blocks.lookup hash with
  | none => exact blocks
  | some block =>
    dsimp only
    split
    next empty =>
      rw [PlacementOrder.walk, empty, Listing.entries_empty]
      exact blocks
    next =>
      rw [blocksOf_foldl_addPlacement]
      change (blocksOf count table workerId).modify _ _ = _
      rw [blocks, filled, addTiers_none]

/-- The hashes fill the views one by one. -/
theorem blocksOf_foldl_addHash (order : PlacementOrder) (done rest : List Int64) (table : Table)
    (workerId : String)
    (blocks : blocksOf count table workerId =
      done.map (blockView order state workerId) ++ replicate rest.length none) :
    blocksOf count ((rest.zipIdx done.length).foldl (addHash order state count true) table)
        workerId =
      (done ++ rest).map (blockView order state workerId) := by
  induction rest generalizing done table with
  | nil => simpa using blocks
  | cons hash rest ih =>
    have filled := @blocksOf_addHash state count order table hash workerId
      (done.map (blockView order state workerId)) _ blocks
    rw [length_map] at filled
    have step := ih (done ++ [hash]) (addHash order state count true table (hash, done.length))
      (by rw [filled, map_append, append_assoc]; rfl)
    rw [length_append, append_assoc] at step
    exact step

/-! ### The workers of the table -/

/-- The table's workers are listed once each, with what is known of them. -/
structure Listed (state : State) (table : Table) : Prop where
  nodup : table.workerOrder.Nodup
  mem_iff : ∀ workerId, workerId ∈ table.workerOrder ↔ workerId ∈ table.byWorker
  known : ∀ workerId view, table.byWorker.lookup workerId = some view →
    view.workerId = workerId ∧ view.address = state.address workerId ∧
      view.spec = state.spec workerId

/-- Nothing is listed yet. -/
theorem listed_empty : Listed state {} where
  nodup := nodup_nil
  mem_iff := fun workerId => iff_of_false not_mem_nil Finmap.notMem_empty
  known := fun workerId view found => by simp at found

/-- A placement lists its worker. -/
theorem Listed.addPlacement {table : Table} (listed : Listed state table) (index : ℕ)
    (hash : Int64) (tokenCount : UInt32) (placement : (String × Int32) × UInt32) :
    Listed state (addPlacement state count true index hash tokenCount table placement) := by
  obtain ⟨⟨worker, tier⟩, mask⟩ := placement
  refine ⟨?_, fun workerId => ?_, fun workerId view found => ?_⟩
  · unfold CollectViews.addPlacement
    dsimp only
    split
    next => exact listed.nodup
    next absent =>
      refine nodup_append.mpr ⟨listed.nodup, nodup_singleton worker, ?_⟩
      rintro other member _ here rfl
      obtain rfl := mem_singleton.mp here
      exact absent ((listed.mem_iff _).mp member)
  · unfold CollectViews.addPlacement
    dsimp only
    rw [Finmap.mem_insert]
    split
    next present =>
      rw [listed.mem_iff]
      exact ⟨Or.inr, fun known => known.elim (fun same => same ▸ present) id⟩
    next => rw [mem_append, mem_singleton, listed.mem_iff, or_comm]
  · unfold CollectViews.addPlacement at found
    by_cases same : workerId = worker
    · subst same
      rw [Finmap.lookup_insert, Option.some.injEq] at found
      subst found
      cases old : table.byWorker.lookup workerId with
      | none => exact ⟨rfl, rfl, rfl⟩
      | some view => exact listed.known workerId view old
    · rw [Finmap.lookup_insert_of_ne _ same] at found
      exact listed.known workerId view found

/-- So do those of a hash. -/
theorem Listed.addHash {table : Table} (listed : Listed state table) (order : PlacementOrder)
    (entry : Int64 × ℕ) : Listed state (addHash order state count true table entry) := by
  unfold CollectViews.addHash
  split
  · exact listed
  · split
    · exact listed
    · have start : Listed state
          { table with matchedHashes := table.matchedHashes ++ [entry.1] } :=
        ⟨listed.nodup, listed.mem_iff, listed.known⟩
      exact foldlRecOn _ _ start fun _ listed placement _ =>
        listed.addPlacement entry.2 entry.1 _ placement

/-- The views of the listed workers. -/
theorem mem_takeViews {workers : List String} {byWorker : Finmap fun _ : String => WorkerView}
    (nodup : workers.Nodup) {view : WorkerView} : view ∈ takeViews workers byWorker ↔
      ∃ workerId ∈ workers, byWorker.lookup workerId = some view := by
  induction workers generalizing byWorker with
  | nil => simp [takeViews]
  | cons worker workers ih =>
    obtain ⟨absent, nodup⟩ := nodup_cons.mp nodup
    have others : ∀ workerId ∈ workers,
        (byWorker.erase worker).lookup workerId = byWorker.lookup workerId :=
      fun workerId member => Finmap.lookup_erase_ne fun same => absent (same ▸ member)
    rw [takeViews, exists_mem_cons_iff]
    split
    next missing => simp [ih nodup, missing]
    next found here =>
      rw [mem_cons, ih nodup, here, Option.some.injEq, eq_comm]
      refine or_congr Iff.rfl (exists_congr fun workerId => and_congr_right fun member => ?_)
      rw [others workerId member]

end CollectViews

/-- The input of a worker. -/
def inputOf (order : PlacementOrder) (state : State) (hashes : List Int64) (workerId : String) :
    WorkerPrefixInput where
  workerId := workerId
  address := state.address workerId
  spec := state.spec workerId
  blocks := hashes.map (blockView order state workerId)

open CollectViews in
/-- The default query has the inputs of known workers only, and of all that hold a block. -/
theorem mem_collectWorkerPrefixInputs (order : PlacementOrder) (state : State)
    (hashes : List Int64) :
    (∀ input ∈ collectWorkerPrefixInputs order state hashes,
      ∃ workerId, input = inputOf order state hashes workerId) ∧
    ∀ workerId, (∃ hash ∈ hashes, blockView order state workerId hash ≠ none) →
      inputOf order state hashes workerId ∈ collectWorkerPrefixInputs order state hashes := by
  set table := hashes.zipIdx.foldl (addHash order state hashes.length true) {} with isTable
  have listed : Listed state table :=
    foldlRecOn _ _ listed_empty fun _ listed entry _ => listed.addHash order entry
  have blocks (workerId : String) : blocksOf hashes.length table workerId =
      hashes.map (blockView order state workerId) :=
    blocksOf_foldl_addHash order [] hashes {} workerId rfl
  have viewed (workerId : String) (view : WorkerView)
      (found : table.byWorker.lookup workerId = some view) :
      (⟨view.workerId, view.address, view.spec, view.blocks⟩ : WorkerPrefixInput) =
        inputOf order state hashes workerId := by
    obtain ⟨id, address, spec⟩ := listed.known workerId view found
    have here := blocks workerId
    rw [blocksOf, found] at here
    dsimp only at here
    rw [id, address, spec, here]
    rfl
  refine ⟨fun input member => ?_, fun workerId holds => ?_⟩
  · obtain ⟨view, taken, rfl⟩ := mem_map.mp member
    obtain ⟨workerId, -, found⟩ := (mem_takeViews listed.nodup).mp taken
    exact ⟨workerId, viewed workerId view found⟩
  · cases found : table.byWorker.lookup workerId with
    | none =>
      obtain ⟨hash, member, held⟩ := holds
      have here := blocks workerId
      rw [blocksOf, found] at here
      dsimp only at here
      have none : blockView order state workerId hash ∈ replicate hashes.length none :=
        here ▸ mem_map_of_mem member
      exact absurd (eq_of_mem_replicate none) held
    | some view =>
      refine mem_map.mpr ⟨view, ?_, viewed workerId view found⟩
      refine (mem_takeViews listed.nodup).mpr ⟨workerId, ?_, found⟩
      rw [listed.mem_iff, ← Finmap.lookup_isSome, found, Option.isSome_some]

/-! ### The in-memory query's views -/

/-- Duplicates are erased. -/
theorem nodup_eraseDups {α : Type*} [BEq α] [LawfulBEq α] (items : List α) :
    items.eraseDups.Nodup := by
  induction length : items.length using Nat.strong_induction_on generalizing items with
  | _ count ih =>
    cases items with
    | nil => exact nodup_nil
    | cons item items =>
      rw [eraseDups_cons, nodup_cons, mem_eraseDups]
      refine ⟨by simp, ih _ ?_ _ rfl⟩
      rw [← length]
      exact Nat.lt_succ_of_le (length_filter_le _ _)

namespace MatchPrefix

variable {candidates : List PrefixCandidate} {byId : Finmap fun _ : String => ℕ}

/-- The place of each candidate. -/
theorem lookup_candidateById (nodup : (candidates.map PrefixCandidate.workerId).Nodup)
    (workerId : String) : (candidateById candidates).lookup workerId =
      if workerId ∈ candidates.map PrefixCandidate.workerId then
        some ((candidates.map PrefixCandidate.workerId).idxOf workerId)
      else none := by
  have writes : candidateById candidates =
      gather (candidates.map PrefixCandidate.workerId).zipIdx := by
    rw [zipIdx_map]
    rfl
  rw [writes]
  set ids := candidates.map PrefixCandidate.workerId
  have keys : ids.zipIdx.map Prod.fst = ids := zipIdx_map_fst 0 ids
  split
  next member =>
    rw [lookup_gather, lastWrites_of_nodup (keys.symm ▸ nodup), mem_zipIdx_iff_getElem?]
    exact getElem?_idxOf member
  next absent =>
    rw [Finmap.lookup_eq_none, ← Finmap.mem_keys, mem_keys_gather, keys]
    exact absent

/-- What the placements of a block show of the candidates. -/
theorem foldl_addPlacement {ids : List String} (nodup : ids.Nodup)
    (lookup : ∀ workerId, byId.lookup workerId =
      if workerId ∈ ids then some (ids.idxOf workerId) else none)
    (tokenCount : UInt32) (placements : List ((String × Int32) × UInt32)) :
    placements.foldl (addPlacement byId tokenCount)
        (replicate ids.length false, replicate ids.length ⟨0, []⟩) =
      (ids.map fun workerId => decide (tiersOf workerId placements ≠ []), ids.map fun workerId =>
          (heldAt tokenCount (tiersOf workerId placements)).getD ⟨0, []⟩) := by
  induction placements using reverseRecOn with
  | nil => refine Prod.ext ?_ ?_ <;> exact (map_const' ..).symm
  | append_singleton placements placement ih =>
    obtain ⟨⟨worker, tier⟩, mask⟩ := placement
    have others {workerId : String} (ne : workerId ≠ worker) :
        tiersOf workerId (placements ++ [((worker, tier), mask)]) =
          tiersOf workerId placements := by
      rw [tiersOf_append, tiersOf_singleton_ne (Ne.symm ne), append_nil]
    have self : tiersOf worker (placements ++ [((worker, tier), mask)]) =
        tiersOf worker placements ++ [(tier, mask)] := by
      rw [tiersOf_append, tiersOf_singleton_self]
    rw [foldl_append, ih, foldl_cons, foldl_nil, addPlacement, lookup]
    by_cases member : worker ∈ ids
    · have update {β : Type} (before after : String → β)
          (same : ∀ workerId, workerId ≠ worker → before workerId = after workerId) :
          (ids.map before).set (ids.idxOf worker) (after worker) = ids.map after := by
        have changed : update before worker (after worker) = after := by
          funext workerId
          by_cases here : workerId = worker
          · rw [here, update_self]
          · rw [update_of_ne here, same workerId here]
        have mapped := nodup.map_update before worker (after worker)
        rw [if_pos member, changed] at mapped
        exact mapped.symm
      rw [if_pos member]
      refine Prod.ext ?_ ?_
      · rw [← update (fun workerId => decide (tiersOf workerId placements ≠ []))
          (fun workerId => decide (tiersOf workerId (placements ++ [((worker, tier), mask)]) ≠ []))
          fun workerId ne => by rw [others ne], self]
        simp
      · dsimp only
        rw [← update _ (fun workerId =>
          (heldAt tokenCount (tiersOf workerId (placements ++ [((worker, tier), mask)]))).getD
            ⟨0, []⟩) fun workerId ne => by rw [others ne], self]
        rw [modify_eq_set_getElem?, getElem?_map, getElem?_idxOf member]
        simp only [heldAt, Option.map_some, Option.map_eq_map, Option.getD_some,
          append_eq_nil_iff, cons_ne_nil, and_false, ↓reduceIte]
        split
        next none => rw [none, Option.getD_none]
        next => rfl
    · rw [if_neg member]
      refine Prod.ext ?_ ?_ <;>
        exact map_congr_left fun workerId inside => by
          rw [others fun same => member (same ▸ inside)]

variable (order : PlacementOrder) (state : State)

/-- A hash of the query pushes what each candidate holds of it. -/
theorem pushHash_eq (nodup : (candidates.map PrefixCandidate.workerId).Nodup)
    (lookup : ∀ workerId, byId.lookup workerId =
      if workerId ∈ candidates.map PrefixCandidate.workerId then
        some ((candidates.map PrefixCandidate.workerId).idxOf workerId)
      else none) (hash : Int64) :
    pushHash order state byId candidates hash = candidates.map fun candidate =>
      { candidate with
        scanner := candidate.scanner.push (blockView order state candidate.workerId hash) } := by
  set ids := candidates.map PrefixCandidate.workerId with isIds
  have count : candidates.length = ids.length := (length_map _).symm
  have pushed (view : String → Option BlockComponents) (views : List Bool × List BlockComponents)
      (same : ∀ (index : ℕ) (candidate : PrefixCandidate), candidates[index]? = some candidate →
        (if views.1.getD index false then views.2[index]? else none) = view candidate.workerId) :
      (candidates.zipIdx.map fun entry =>
        { entry.1 with
          scanner := entry.1.scanner.push
            (if views.1.getD entry.2 false then views.2[entry.2]? else none) }) =
        candidates.map fun candidate =>
          { candidate with scanner := candidate.scanner.push (view candidate.workerId) } := by
    refine ext_getElem? fun index => ?_
    rw [getElem?_map, getElem?_zipIdx, getElem?_map]
    cases found : candidates[index]? with
    | none => rfl
    | some candidate =>
      simp only [Option.map_some, zero_add]
      rw [same index candidate found]
  refine pushed (blockView order state · hash) _ fun index candidate found => ?_
  have named : ids[index]? = some candidate.workerId := by rw [getElem?_map, found, Option.map_some]
  unfold blockView
  cases state.blocks.lookup hash with
  | none =>
    rw [getD_eq_getElem?_getD, getElem?_replicate]
    split <;> simp
  | some block =>
    have shown (tiers : String → List (Int32 × UInt32))
        (views : List Bool × List BlockComponents)
        (same : views = (ids.map fun workerId => decide (tiers workerId ≠ []),
          ids.map fun workerId => (heldAt block.tokenCount (tiers workerId)).getD ⟨0, []⟩)) :
        (if views.1.getD index false then views.2[index]? else none) =
          heldAt block.tokenCount (tiers candidate.workerId) := by
      subst same
      simp only [getD_eq_getElem?_getD, getElem?_map, named]
      by_cases none : tiers candidate.workerId = []
      · simp [none, heldAt]
      · simp [none, heldAt]
    refine shown (tiersOf · (order.walk hash block)) _ ?_
    rw [count]
    exact foldl_addPlacement nodup lookup block.tokenCount (order.walk hash block)

/-- Scanning all hashes pushes each candidate's blocks. -/
theorem foldl_pushHash (hashes : List Int64)
    (nodup : (candidates.map PrefixCandidate.workerId).Nodup)
    (lookup : ∀ workerId, byId.lookup workerId =
      if workerId ∈ candidates.map PrefixCandidate.workerId then
        some ((candidates.map PrefixCandidate.workerId).idxOf workerId)
      else none) :
    hashes.foldl (pushHash order state byId) candidates = candidates.map fun candidate =>
      { candidate with
        scanner := (hashes.map (blockView order state candidate.workerId)).foldl
          WorkerPrefixScanner.push candidate.scanner } := by
  induction hashes generalizing candidates with
  | nil => exact (map_id' _).symm
  | cons hash hashes ih =>
    have ids : (pushHash order state byId candidates hash).map PrefixCandidate.workerId =
        candidates.map PrefixCandidate.workerId := by
      rw [pushHash_eq order state nodup lookup, map_map]
      rfl
    rw [foldl_cons, ih (ids.symm ▸ nodup) (ids.symm ▸ lookup),
      pushHash_eq order state nodup lookup, map_map]
    rfl

end MatchPrefix

/-! ### Prefixes of what is seen -/

variable (spec : Option WorkerCacheSpec)

namespace WorkerPrefixScanner

/-- A scanner whose prefix is settled at zero. -/
def Settled (scanner : WorkerPrefixScanner) : Prop :=
  match scanner.state with
  | .legacy prefixLen contiguous _ => prefixLen = 0 ∧ contiguous = false
  | .invalid => True
  | .componentAware active best _ _ _ => active = false ∧ best = 0

variable {scanner : WorkerPrefixScanner}

/-- A settled scan stays so. -/
theorem Settled.push (settled : scanner.Settled) (block : Option BlockComponents) :
    (scanner.push block).Settled := by
  obtain ⟨processed, state⟩ := scanner
  cases state with
  | legacy prefixLen contiguous sawComponents =>
    obtain ⟨rfl, rfl⟩ := settled
    exact ⟨rfl, rfl⟩
  | invalid => trivial
  | componentAware active best spec swaRun swaHeadBroken =>
    obtain ⟨rfl, rfl⟩ := settled
    exact ⟨rfl, rfl⟩

/-- Its answer is 0. -/
theorem Settled.prefixLen (settled : scanner.Settled) : scanner.prefixLen = 0 := by
  obtain ⟨processed, state⟩ := scanner
  cases state with
  | legacy prefixLen contiguous sawComponents =>
    obtain ⟨rfl, -⟩ := settled
    exact ite_self 0
  | invalid => rfl
  | componentAware active best spec swaRun swaHeadBroken => exact settled.2

/-- Missing the first block settles any scanner. -/
theorem settled_push_none : ((WorkerPrefixScanner.new spec).push none).Settled := by
  cases spec with
  | none => exact ⟨rfl, rfl⟩
  | some spec =>
    unfold WorkerPrefixScanner.new WorkerPrefixScanner.push
    dsimp only
    split
    · trivial
    · split
      · trivial
      · exact ⟨rfl, rfl⟩

end WorkerPrefixScanner

/-- A missing first block ends the prefix. -/
theorem computeWorkerPrefix_none_cons (blocks : List (Option BlockComponents)) :
    computeWorkerPrefix spec (none :: blocks) = 0 := by
  have settled : (blocks.foldl WorkerPrefixScanner.push
      ((WorkerPrefixScanner.new spec).push none)).Settled :=
    foldlRecOn _ _ (WorkerPrefixScanner.settled_push_none spec) fun _ settled block _ =>
      settled.push block
  exact settled.prefixLen

/-- Blocks that differ in the order of their tiers at most. -/
inductive SameTiers : Option BlockComponents → Option BlockComponents → Prop
  | absent : SameTiers none none
  | present {tokenCount : UInt32} {tiers others : List (Int32 × UInt32)}
      (perm : tiers.Perm others) : SameTiers (some ⟨tokenCount, tiers⟩) (some ⟨tokenCount, others⟩)

variable {entry : String × String × UInt32} {block other : Option BlockComponents}
  {order : PlacementOrder} {state : State} {first : Int64} {rest : List Int64}

/-- Availability reads the tiers. -/
theorem componentAvailable_congr (same : SameTiers block other) (component specTierMask : UInt32) :
    componentAvailable block component specTierMask =
      componentAvailable other component specTierMask := by
  cases same with
  | absent => rfl
  | present perm => exact perm.any_eq

/-- So does the window's scan. -/
theorem pushSwa_congr (same : SameTiers block other) (spec : WorkerCacheSpec) (swaRun : UInt64)
    (swaHeadBroken : Bool) : WorkerPrefixScanner.pushSwa spec block swaRun swaHeadBroken =
      WorkerPrefixScanner.pushSwa spec other swaRun swaHeadBroken := by
  unfold WorkerPrefixScanner.pushSwa
  rw [componentAvailable_congr same]
  cases same with
  | absent | present perm => rfl

/-- So does the whole scan. -/
theorem push_congr (same : SameTiers block other) (scanner : WorkerPrefixScanner) :
    scanner.push block = scanner.push other := by
  unfold WorkerPrefixScanner.push
  cases scanner.state with
  | legacy prefixLen contiguous sawComponents =>
    cases same with
    | absent => rfl
    | present perm => simp [WorkerPrefixScanner.pushState, perm.any_eq]
  | invalid => rfl
  | componentAware active best spec swaRun swaHeadBroken =>
    simp [WorkerPrefixScanner.pushState, componentAvailable_congr same, pushSwa_congr same]

/-- Views in two orders have the same tiers. -/
theorem sameTiers_blockView (order other : PlacementOrder) (state : State) (workerId : String)
    (hash : Int64) :
    SameTiers (blockView order state workerId hash) (blockView other state workerId hash) := by
  unfold blockView
  cases state.blocks.lookup hash with
  | none => exact .absent
  | some block =>
    have perm : (tiersOf workerId (order.walk hash block)).Perm
        (tiersOf workerId (other.walk hash block)) :=
      ((Listing.entries_perm (order hash) (other hash) block.placements).filter _).map _
    have empty : tiersOf workerId (order.walk hash block) = [] ↔
        tiersOf workerId (other.walk hash block) = [] := by
      rw [← length_eq_zero_iff, perm.length_eq, length_eq_zero_iff]
    dsimp only
    unfold heldAt
    by_cases none : tiersOf workerId (other.walk hash block) = []
    · rw [if_pos none, if_pos (empty.mpr none)]
      exact .absent
    · rw [if_neg none, if_neg (empty.not.mpr none)]
      exact .present perm

/-- The order in which placements are walked does not matter to a worker's prefix. -/
theorem workerPrefix_congr (order other : PlacementOrder) (state : State) (hashes : List Int64)
    (workerId : String) :
    workerPrefix order state hashes workerId = workerPrefix other state hashes workerId := by
  have scanned : ∀ scanner : WorkerPrefixScanner,
      (hashes.map (blockView order state workerId)).foldl WorkerPrefixScanner.push scanner =
        (hashes.map (blockView other state workerId)).foldl WorkerPrefixScanner.push scanner := by
    induction hashes with
    | nil => exact fun _ => rfl
    | cons hash hashes ih =>
      intro scanner
      rw [map_cons, map_cons, foldl_cons, foldl_cons,
        push_congr (sameTiers_blockView order other state workerId hash), ih]
  unfold workerPrefix computeWorkerPrefix
  rw [scanned]

/-! ### The answers -/

/-- The workers a response reports, with their addresses and prefixes. -/
def MatchExternalKvPrefixResponse.reported (response : MatchExternalKvPrefixResponse) :
    Finset (String × String × UInt32) :=
  (response.responseMatches.map fun found =>
    (found.workerId, found.workerAddress, found.matchedPrefixBlocks)).toFinset

/-- The response reports the entries. -/
theorem mem_reported_assemble {entries : List (String × String × UInt32)} {blocksRead : UInt32} :
    entry ∈ (assemblePrefixResponse entries blocksRead).reported ↔ entry ∈ entries := by
  unfold MatchExternalKvPrefixResponse.reported assemblePrefixResponse
  rw [map_map, mem_toFinset]
  change entry ∈ map id _ ↔ _
  rw [map_id, mem_mergeSort]

/-- A worker with an entry holds the first considered block. -/
theorem blockView_ne_none_of_entry {workerId address : String}
    (found : prefixEntry workerId address (workerPrefix order state (first :: rest) workerId) =
      some entry) : blockView order state workerId first ≠ none := by
  intro none
  rw [workerPrefix, map_cons, none, computeWorkerPrefix_none_cons, prefixEntry,
    if_neg fun positive => absurd positive.2 (by decide)] at found
  cases found

variable {req : MatchExternalKvPrefixRequest}

/-- What the default query reports. -/
theorem mem_reported_matchExternalKvPrefix (considered : req.considered = first :: rest) :
    entry ∈ (matchExternalKvPrefix order state req).reported ↔
      ∃ workerId, prefixEntry workerId (state.address workerId)
        (workerPrefix order state (first :: rest) workerId) = some entry := by
  obtain ⟨known, listed⟩ := mem_collectWorkerPrefixInputs order state (first :: rest)
  unfold matchExternalKvPrefix
  rw [considered, if_neg (cons_ne_nil _ _), computePrefixResponse, mem_reported_assemble,
    mem_filterMap]
  constructor
  · rintro ⟨input, member, found⟩
    obtain ⟨workerId, rfl⟩ := known input member
    exact ⟨workerId, found⟩
  · rintro ⟨workerId, found⟩
    refine ⟨inputOf order state (first :: rest) workerId, listed workerId ?_, found⟩
    exact ⟨first, mem_cons_self, blockView_ne_none_of_entry found⟩

open MatchPrefix in
/-- What the in-memory query reports. -/
theorem mem_reported_doMatchPrefix (considered : req.considered = first :: rest) :
    entry ∈ (doMatchPrefix order state req).reported ↔
      ∃ workerId, prefixEntry workerId (state.address workerId)
        (workerPrefix order state (first :: rest) workerId) = some entry := by
  unfold doMatchPrefix
  rw [considered]
  dsimp only
  split
  next missing =>
    refine iff_of_false (by simp [MatchExternalKvPrefixResponse.reported]) ?_
    rintro ⟨workerId, found⟩
    refine blockView_ne_none_of_entry found ?_
    rw [Option.filter_eq_none_iff] at missing
    unfold blockView
    cases recorded : state.blocks.lookup first with
    | none => rfl
    | some block =>
      have empty : block.placements = ∅ := by simpa using missing block recorded
      dsimp only
      rw [PlacementOrder.walk, empty, Listing.entries_empty]
      rfl
  next block present =>
    obtain ⟨recorded, -⟩ := Option.filter_eq_some_iff.mp present
    set workers := ((order.walk first block).map fun placement => placement.1.1).eraseDups
    have ids : (candidates state (order.walk first block)).map PrefixCandidate.workerId =
        workers := by
      rw [candidates, map_map]
      exact map_id _
    have nodup : ((candidates state (order.walk first block)).map
        PrefixCandidate.workerId).Nodup := ids ▸ nodup_eraseDups _
    rw [mem_reported_assemble, foldl_pushHash order state (first :: rest) nodup
      (lookup_candidateById nodup), candidates, map_map, filterMap_map,
      mem_filterMap]
    constructor
    · rintro ⟨workerId, -, found⟩
      exact ⟨workerId, found⟩
    · rintro ⟨workerId, found⟩
      refine ⟨workerId, ?_, found⟩
      have held := blockView_ne_none_of_entry found
      rw [blockView, recorded] at held
      rw [mem_eraseDups, mem_map]
      obtain ⟨placement, member⟩ := exists_mem_of_ne_nil
        ((order.walk first block).filter fun placement => placement.1.1 = workerId) (by
          intro none
          exact held (by simp [tiersOf, none, heldAt]))
      obtain ⟨member, here⟩ := mem_filter.mp member
      exact ⟨placement, member, by simpa using here⟩

/-- Both prefix queries report the same workers, addresses and prefixes. -/
theorem reported_doMatchPrefix_eq (order other : PlacementOrder) (state : State)
    (req : MatchExternalKvPrefixRequest) : (doMatchPrefix order state req).reported =
      (matchExternalKvPrefix other state req).reported := by
  cases considered : req.considered with
  | nil =>
    unfold doMatchPrefix matchExternalKvPrefix
    rw [considered, if_pos rfl]
  | cons first rest =>
    ext entry
    rw [mem_reported_doMatchPrefix considered, mem_reported_matchExternalKvPrefix considered]
    simp [workerPrefix_congr order other]

end AvaServe.Indexer
