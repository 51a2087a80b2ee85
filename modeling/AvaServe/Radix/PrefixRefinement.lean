import AvaServe.Foundation.PrefixMap
import AvaServe.Radix.Descent

/-!
# The radix cache is a prefix map

Without eviction, a radix cache answers lookups as the prefix map of everything
inserted so far does. `Denotes` relates the tree to the history of inserts: every
whole-page prefix of an inserted key is a prefix of some node's word, every node's
word begins an inserted key, and a node stores at each position the index that the
first insert to cover the position's page gave.
-/

namespace AvaServe.Radix

open Foundation AvaServe.Foundation.PrefixMap List

/-- A stored key as the prefix map sees it. -/
abbrev KeyEntry := PrefixEntry (Option String × Option String) KeyUnit ℕ

namespace InsertParams

/-- The indices an insert stores position by position; the token ids stand in for
missing ones. -/
def indices (params : InsertParams) : List ℕ := params.value.getD params.key.tokenIds

/-- What an insert stores, in a cache that views keys as bigrams or not. -/
def stored (isEagle : Bool) (params : InsertParams) : KeyEntry where
  space := params.key.namespaceOf
  word := (params.key.maybeToBigramView isEagle none).1.units
  values := params.indices

/-- There is an index for every position of the pages that an insert stores. -/
def Valued (isEagle : Bool) (pageSize : ℕ) (params : InsertParams) : Prop :=
  ((params.key.maybeToBigramView isEagle none).1.pageAligned pageSize).len ≤ params.indices.length

instance (isEagle : Bool) (pageSize : ℕ) (params : InsertParams) :
    Decidable (params.Valued isEagle pageSize) :=
  inferInstanceAs (Decidable (_ ≤ _))

end InsertParams

namespace RadixCache

/-- A call to the cache that does not evict. -/
inductive PrefixCall
  | insert (clock : Clock) (params : InsertParams)
  | matchPrefix (clock : Clock) (key : RadixKey)

/-- The cache after a call. -/
def execPrefix (cache : RadixCache) : PrefixCall → Except IncompatibleKeys RadixCache
  | .insert clock params => (cache.insert clock params).map Prod.fst
  | .matchPrefix clock key => (cache.matchPrefix clock key).map Prod.fst

/-- What a call adds to the history. -/
def PrefixCall.stored (isEagle : Bool) : PrefixCall → Option KeyEntry
  | .insert _ params => some (params.stored isEagle)
  | .matchPrefix _ _ => none

/-- An insert comes with an index for every position it stores. -/
def PrefixCall.Valued (isEagle : Bool) (pageSize : ℕ) : PrefixCall → Prop
  | .insert _ params => params.Valued isEagle pageSize
  | .matchPrefix _ _ => True

instance (isEagle : Bool) (pageSize : ℕ) : ∀ call : PrefixCall,
    Decidable (call.Valued isEagle pageSize)
  | .insert _ params => inferInstanceAs (Decidable (params.Valued isEagle pageSize))
  | .matchPrefix _ _ => inferInstanceAs (Decidable True)

/-! ### The arguments of an insert -/

section Args

variable {cache : RadixCache} {params : InsertParams}

/-- The key that is inserted. -/
theorem insertArgs_fst : (cache.insertArgs params).1 = cache.lookupKey params.key := by
  unfold insertArgs lookupKey RadixKey.maybeToBigramView
  cases cache.isEagle && !params.key.isBigram <;> cases params.value <;> rfl

/-- The values that are. -/
theorem insertArgs_snd :
    (cache.insertArgs params).2 = params.indices.take (cache.lookupKey params.key).len := by
  have cut (key : RadixKey) : (key.pageAligned cache.pageSize).len ≤ key.len := by
    rw [RadixKey.len_pageAligned]
    exact Nat.div_mul_le_self _ _
  unfold insertArgs lookupKey InsertParams.indices RadixKey.maybeToBigramView
  cases cache.isEagle && !params.key.isBigram with
  | false =>
    cases params.value with
    | none => exact RadixKey.take_tokenIds_pageAligned _ _
    | some value => rfl
  | true =>
    cases params.value with
    | none => exact RadixKey.take_tokenIds_pageAligned { params.key with isBigram := true } _
    | some value =>
      simp only [↓reduceIte, Option.map_some, Option.getD_some, take_take]
      rw [min_eq_left (cut _)]

/-- They have one length. -/
theorem length_insertArgs_snd (valued : params.Valued cache.isEagle cache.pageSize) :
    (cache.insertArgs params).2.length = (cache.insertArgs params).1.len := by
  rw [insertArgs_snd, insertArgs_fst, length_take]
  exact min_eq_left valued

/-- A prefix of whole pages of a key is a prefix of the key cut to whole pages. -/
theorem prefix_lookupKey_iff {cache : RadixCache} {key : RadixKey} {front : List KeyUnit}
    (positive : 0 < cache.pageSize) (whole : cache.pageSize ∣ front.length) :
    front <+: (cache.lookupKey key).units ↔
      front <+: (key.maybeToBigramView cache.isEagle none).1.units := by
  rw [lookupKey, RadixKey.units_pageAligned]
  constructor
  · exact fun cut => cut.trans <| take_prefix _ _
  · intro covers
    rw [prefix_take_iff]
    refine ⟨covers, ?_⟩
    obtain ⟨pages, length⟩ := whole
    have short := covers.length_le
    rw [length, RadixKey.length_units, mul_comm] at short
    rw [length, mul_comm]
    exact Nat.mul_le_mul_right _ ((Nat.le_div_iff_mul_le positive).mpr short)

end Args

/-! ### The tree and the history -/

/-- The tree holds what the history stored. -/
structure Denotes (cache : RadixCache) (full : ℕ → List KeyUnit) (vals : ℕ → List ℕ)
    (history : List KeyEntry) : Prop where
  wellFormed : WellFormed cache full vals
  enabled : cache.disable = false
  covered : ∀ entry ∈ history, ∀ front, front ≠ [] → cache.pageSize ∣ front.length →
    front <+: entry.word → ∃ id ∈ cache.nodes, id ≠ cache.rootNode ∧
      cache.space id = entry.space ∧ front <+: full id
  known : ∀ id ∈ cache.nodes, id ≠ cache.rootNode → Known history (cache.space id) (full id)
  values : ∀ id ∈ cache.nodes, id ≠ cache.rootNode → ∀ i < (full id).length, (vals id)[i]? =
    (firstCovering history (cache.space id) ((full id).take (pageEnd cache.pageSize i))).bind
      fun entry => entry.values[i]?

namespace Denotes

variable {cache after : RadixCache} {full full' : ℕ → List KeyUnit} {vals vals' : ℕ → List ℕ}
variable {history : List KeyEntry}

/-- A reset cache denotes nothing. -/
theorem reset (cache : RadixCache) (clock : Clock) (positive : 0 < cache.pageSize)
    (enabled : cache.disable = false) :
    Denotes (cache.reset clock) (fun _ => []) (fun _ => []) [] where
  wellFormed := cache.wellFormed_reset clock positive
  enabled := enabled
  covered entry member := absurd member not_mem_nil
  known id member notRoot := by
    rw [nodes_reset, Finset.mem_singleton] at member
    exact absurd member notRoot
  values id member notRoot := by
    rw [nodes_reset, Finset.mem_singleton] at member
    exact absurd member notRoot

section

variable (held : Denotes cache full vals history)
include held

/-- Splitting nodes does not change what the tree holds. -/
theorem extended
    (step : Extended cache full vals after full' vals') : Denotes after full' vals' history := by
  have frame := frame_of_moves step.moves
  have size : after.pageSize = cache.pageSize := by rw [frame]
  have root : after.rootNode = cache.rootNode := by rw [frame]
  refine ⟨step.wellFormed, by rw [frame]; exact held.enabled, ?_, ?_, ?_⟩
  · intro entry member front nonempty whole covers
    obtain ⟨id, idMem, notRoot, space, inside⟩ :=
      held.covered entry member front nonempty (size ▸ whole) covers
    exact ⟨id, step.kept idMem, root ▸ notRoot, (step.space_eq id idMem).trans space,
      step.full_eq id idMem ▸ inside⟩
  · intro id member notRoot
    obtain ⟨old, oldMem, oldNotRoot, space, word, -⟩ := step.origin id member notRoot
    rw [space]
    exact (held.known old oldMem oldNotRoot).shorten word
  · intro id member notRoot i inside
    obtain ⟨old, oldMem, oldNotRoot, space, ⟨rest, word⟩, ⟨more, stored⟩⟩ :=
      step.origin id member notRoot
    have value := held.values old oldMem oldNotRoot i (by rw [← word, length_append]; omega)
    rw [← word, ← stored, getElem?_append_left
      (by rwa [step.wellFormed.length_vals member]), take_append_of_le_length
      (pageEnd_le (size ▸ step.wellFormed.length_full_dvd member) inside)] at value
    rw [size, space, value]

/-- Storing more does not change what the nodes of the tree hold. -/
theorem kept_of_append (later : List KeyEntry) {id : ℕ} (member : id ∈ cache.nodes)
    (notRoot : id ≠ cache.rootNode) : Known (history ++ later) (cache.space id) (full id) ∧
      ∀ i < (full id).length, (vals id)[i]? = (firstCovering (history ++ later) (cache.space id)
        ((full id).take (pageEnd cache.pageSize i))).bind fun entry => entry.values[i]? := by
  have known := held.known id member notRoot
  refine ⟨known.append later, fun i inside => ?_⟩
  rw [firstCovering_append_of_known (known.shorten <| take_prefix _ _)]
  exact held.values id member notRoot i inside

variable {query : List KeyUnit} {entry : KeyEntry} {cursor : InsertCursor}

/-- A prefix of whole pages that the history knows is within reach of a walk that
is as far as it gets. -/
theorem length_le_of_known {front : List KeyUnit} {space : Option String × Option String} {node : ℕ}
    (farthest : Farthest cache full query space node) (isPrefix : front <+: query)
    (whole : cache.pageSize ∣ front.length) (known : Known history space front) :
    front.length ≤ (full node).length := by
  by_cases nonempty : front = []
  · simp [nonempty]
  obtain ⟨entry, member, same, covers⟩ := known
  obtain ⟨id, idMem, notRoot, space', inside⟩ :=
    held.covered entry member front nonempty whole covers
  refine le_trans ?_ (farthest id idMem notRoot (space'.trans same))
  rw [le_alignedPrefix_iff held.wellFormed.positive whole, le_commonPrefix_iff]
  exact ⟨inside.length_le, isPrefix.length_le,
    (prefix_iff_eq_take.mp inside).symm.trans (prefix_iff_eq_take.mp isPrefix)⟩

/-- What the walk of an insert has established when it ends: `entry` is being
stored, `query` is its part of whole pages, and the cursor has the rest. -/
structure Storing (cache : RadixCache) (full : ℕ → List KeyUnit) (entry : KeyEntry)
    (query : List KeyUnit) (cursor : InsertCursor) : Prop where
  space : cursor.key.namespaceOf = entry.space
  here : At cache full query cursor.node cursor.key
  farthest : Farthest cache full query entry.space cursor.node
  pages : ∀ front, cache.pageSize ∣ front.length → (front <+: query ↔ front <+: entry.word)
  values : ∀ i, (full cursor.node).length ≤ i → i < query.length →
    cursor.value[i - (full cursor.node).length]? = entry.values[i]?

section

variable (storing : Storing cache full entry query cursor)
include storing

/-- A known key adds nothing. -/
theorem store_found (done : cursor.key.len = 0) : Denotes cache full vals (history ++ [entry]) := by
  have spelled : query = full cursor.node := by
    rw [← storing.here.spells, append_right_eq_self]
    exact eq_nil_of_length_eq_zero (cursor.key.length_units.trans done)
  refine ⟨held.wellFormed, held.enabled, ?_, fun id member notRoot =>
    (held.kept_of_append [entry] member notRoot).1, fun id member notRoot =>
    (held.kept_of_append [entry] member notRoot).2⟩
  intro stored member front nonempty whole covers
  obtain member | member := mem_append.mp member
  · exact held.covered stored member front nonempty whole covers
  · cases mem_singleton.mp member
    have inside := (storing.pages front whole).mpr covers
    rw [spelled] at inside
    have notRoot : cursor.node ≠ cache.rootNode := by
      intro isRoot
      rw [isRoot, held.wellFormed.full_root] at inside
      exact nonempty (prefix_nil.mp inside)
    exact ⟨cursor.node, storing.here.member, notRoot,
      (storing.here.space notRoot).trans storing.space, inside⟩

variable (point : LeafPoint cache cursor)

/-- The new leaf holds the indices its walk found and, from there on, the ones being
stored, which nothing stored before covers. -/
theorem values_leaf (whole : cache.pageSize ∣ query.length) {i : ℕ} (inside : i < query.length) :
    (point.valsAfter vals cache.counter)[i]? = (firstCovering (history ++ [entry]) entry.space
        (query.take (pageEnd cache.pageSize i))).bind fun entry => entry.values[i]? := by
  have wf := held.wellFormed
  have member := storing.here.member
  have wholeNode := wf.length_full_dvd member
  have length := wf.length_vals member
  rw [point.valsAfter_fresh]
  by_cases early : i < (full cursor.node).length
  · have notRoot : cursor.node ≠ cache.rootNode := by
      intro isRoot
      rw [isRoot, wf.full_root] at early
      exact Nat.not_lt_zero _ early
    have found := (held.kept_of_append [entry] member notRoot).2 i early
    rw [storing.here.space notRoot, storing.space] at found
    rw [getElem?_append_left (by omega), found, ← storing.here.spells,
      take_append_of_le_length (pageEnd_le wholeNode early)]
  · have late : (full cursor.node).length ≤ i := not_lt.mp early
    have reach := pageEnd_le whole inside
    have beyond := @lt_pageEnd _ i wf.positive
    have begins : query.take (pageEnd cache.pageSize i) <+: query := take_prefix _ _
    have covers := begins.trans ((storing.pages query whole).mp prefix_rfl)
    have unknown : ¬ Known history entry.space (query.take (pageEnd cache.pageSize i)) := by
      intro known
      have short := held.length_le_of_known storing.farthest begins
        (by rw [length_take, min_eq_left reach]; exact dvd_pageEnd) known
      rw [length_take] at short
      omega
    rw [getElem?_append_right (by omega), length, storing.values i late inside,
      firstCovering_append_singleton unknown rfl covers]
    rfl

/-- A new leaf adds its entry. -/
theorem store_leaf {after : RadixCache} (inserted : Inserted cache after cursor) :
    Denotes after (point.fullAfter full) (point.valsAfter vals) (history ++ [entry]) := by
  have wf := held.wellFormed
  have wf' := inserted.wellFormed point wf
  have nodes := inserted.nodes point wf
  have kept {id : ℕ} := @inserted.space_of_mem id
  have fresh := inserted.space_fresh
  have size : after.pageSize = cache.pageSize := by rw [inserted.frame]
  have root : after.rootNode = cache.rootNode := by rw [inserted.frame]
  have spelled : point.fullAfter full cache.counter = query := by
    rw [point.fullAfter_fresh, storing.here.spells]
  have freshMem : cache.counter ∈ after.nodes := nodes ▸ Finset.mem_insert_self _ _
  have freshNotRoot : cache.counter ≠ after.rootNode := by
    rw [root]
    exact (lt_counter_of_mem wf.root_mem).ne'
  have wholeQuery : cache.pageSize ∣ query.length := by
    rw [← spelled, ← size]
    exact wf'.length_full_dvd freshMem
  refine ⟨wf', by rw [inserted.frame]; exact held.enabled, ?_, ?_, ?_⟩
  · intro stored member front nonempty whole covers
    rw [size] at whole
    obtain member | member := mem_append.mp member
    · obtain ⟨id, idMem, notRoot, space, inside⟩ :=
        held.covered stored member front nonempty whole covers
      exact ⟨id, nodes ▸ Finset.mem_insert_of_mem idMem, root ▸ notRoot, (kept idMem).trans space,
        point.fullAfter_of_mem idMem ▸ inside⟩
    · cases mem_singleton.mp member
      exact ⟨cache.counter, freshMem, freshNotRoot, fresh.trans storing.space,
        spelled ▸ (storing.pages front whole).mpr covers⟩
  · intro id member notRoot
    rw [nodes] at member
    obtain rfl | member := Finset.mem_insert.mp member
    · rw [fresh, spelled, storing.space]
      exact ⟨entry, mem_append_right _ mem_cons_self, rfl,
        (storing.pages query wholeQuery).mp prefix_rfl⟩
    · rw [kept member, point.fullAfter_of_mem member]
      exact (held.kept_of_append [entry] member (root ▸ notRoot)).1
  · intro id member notRoot i inside
    rw [nodes] at member
    rw [size]
    obtain rfl | member := Finset.mem_insert.mp member
    · rw [spelled] at inside
      rw [fresh, spelled, storing.space]
      exact held.values_leaf storing point wholeQuery inside
    · rw [kept member, point.fullAfter_of_mem member, point.valsAfter_of_mem member] at *
      exact (held.kept_of_append [entry] member (root ▸ notRoot)).2 i inside

end

/-- An insert returns and adds what it stores to the history. -/
theorem insert (clock : Clock) {params : InsertParams}
    (valued : params.Valued cache.isEagle cache.pageSize) :
    ∃ after result full' vals', cache.insert clock params = .ok (after, result) ∧
      after.isEagle = cache.isEagle ∧ after.pageSize = cache.pageSize ∧
      Denotes after full' vals' (history ++ [params.stored cache.isEagle]) := by
  obtain ⟨middle, cursor, full', vals', placed, outcome⟩ :=
    insert_spec held.wellFormed held.enabled clock params (length_insertArgs_snd valued)
  have frame := frame_of_moves placed.extended.moves
  have size : middle.pageSize = cache.pageSize := by rw [frame]
  have mode : middle.isEagle = cache.isEagle := by rw [frame]
  have space : (cache.insertArgs params).1.namespaceOf = params.key.namespaceOf := by
    simp [insertArgs_fst, lookupKey]
  have held' := held.extended placed.extended
  have storing : Storing middle full' (params.stored cache.isEagle)
      (cache.insertArgs params).1.units cursor := by
    have farthest : Farthest middle full' (cache.insertArgs params).1.units params.key.namespaceOf
        cursor.node := by
      rw [← space]
      exact placed.farthest
    refine ⟨placed.space.trans space, placed.here, farthest,
      fun front whole => ?_, fun i late inside => ?_⟩
    · rw [insertArgs_fst]
      exact prefix_lookupKey_iff held.wellFormed.positive (size ▸ whole)
    · obtain ⟨count, lengths, -, values⟩ := placed.consumed
      have spelled := congrArg length placed.here.spells
      rw [length_append, RadixKey.length_units, RadixKey.length_units] at spelled
      rw [RadixKey.length_units] at inside
      dsimp only at lengths
      have same : count = (full' cursor.node).length := by omega
      rw [values, same, getElem?_drop, Nat.add_sub_cancel' late, insertArgs_snd,
        getElem?_take_of_lt (insertArgs_fst ▸ inside)]
      rfl
  obtain ⟨done, returned⟩ | ⟨point, returned⟩ := outcome
  · exact ⟨middle, _, full', vals', returned, mode, size, held'.store_found storing done⟩
  · have inserted := point.inserted clock (params.priority.getD 0) params.chunked
    refine ⟨_, _, _, _, returned, ?_, ?_, held'.store_leaf storing point inserted⟩
    · rw [inserted.frame, mode]
    · rw [inserted.frame, size]

/-- A match returns, gives the answer of the prefix map, and leaves the history. -/
theorem matchPrefix (clock : Clock) (key : RadixKey) :
    ∃ after result front full' vals', cache.matchPrefix clock key = .ok (after, result) ∧
      after.isEagle = cache.isEagle ∧ after.pageSize = cache.pageSize ∧
      Denotes after full' vals' history ∧
      Answers cache.pageSize history key.namespaceOf
        (key.maybeToBigramView cache.isEagle none).1.units front result.deviceIndices := by
  obtain ⟨after, result, full', vals', returned, collected, matched⟩ :=
    matchPrefix_spec held.wellFormed held.enabled clock key
  have frame := frame_of_moves matched.extended.moves
  have size : after.pageSize = cache.pageSize := by rw [frame]
  have mode : after.isEagle = cache.isEagle := by rw [frame]
  have held' := held.extended matched.extended
  have wf' := held'.wellFormed
  have positive := held.wellFormed.positive
  have whole : cache.pageSize ∣ (full' result.lastDeviceNode).length :=
    size ▸ wf'.length_full_dvd matched.member
  have notRoot (nonempty : full' result.lastDeviceNode ≠ []) :
      result.lastDeviceNode ≠ after.rootNode :=
    fun isRoot => nonempty (isRoot ▸ wf'.full_root)
  refine ⟨after, result, full' result.lastDeviceNode, full', vals', returned, mode, size, held',
    (prefix_lookupKey_iff positive whole).mp matched.spells, whole, fun nonempty => ?_,
    fun other covers wholeOther known => ?_, ?_, fun i inside => ?_⟩
  · rw [← matched.lastSpace (notRoot nonempty)]
    exact held'.known _ matched.member (notRoot nonempty)
  · exact held'.length_le_of_known matched.farthest
      ((prefix_lookupKey_iff positive wholeOther).mpr covers) (size ▸ wholeOther) known
  · rw [collected, wf'.length_vals matched.member]
  · have nonempty : full' result.lastDeviceNode ≠ [] := by
      intro empty
      rw [empty] at inside
      exact Nat.not_lt_zero _ inside
    rw [collected, ← matched.lastSpace (notRoot nonempty), ← size]
    exact held'.values _ matched.member (notRoot nonempty) i inside

/-- Any sequence of calls returns, and the tree then holds what the calls stored. -/
theorem run {calls : List PrefixCall}
    (valued : ∀ call ∈ calls, call.Valued cache.isEagle cache.pageSize) :
    ∃ after full' vals', calls.foldlM execPrefix cache = .ok after ∧
      after.isEagle = cache.isEagle ∧ after.pageSize = cache.pageSize ∧
      Denotes after full' vals' (history ++ calls.filterMap (·.stored cache.isEagle)) := by
  induction calls generalizing cache full vals history with
  | nil => exact ⟨cache, full, vals, rfl, rfl, rfl, by simpa using held⟩
  | cons call calls ih =>
    have step : ∃ next full' vals', cache.execPrefix call = .ok next ∧
        next.isEagle = cache.isEagle ∧ next.pageSize = cache.pageSize ∧
        Denotes next full' vals' (history ++ (call.stored cache.isEagle).toList) := by
      cases call with
      | insert clock params =>
        obtain ⟨next, result, full', vals', returned, mode, size, held'⟩ :=
          held.insert clock (valued _ mem_cons_self)
        exact ⟨next, full', vals', by simp [execPrefix, returned, Except.map], mode, size, held'⟩
      | matchPrefix clock key =>
        obtain ⟨next, result, front, full', vals', returned, mode, size, held', -⟩ :=
          held.matchPrefix clock key
        exact ⟨next, full', vals', by simp [execPrefix, returned, Except.map], mode, size,
          by simpa [PrefixCall.stored] using held'⟩
    obtain ⟨next, full', vals', ran, mode, size, held'⟩ := step
    obtain ⟨after, full'', vals'', rest, mode', size', held''⟩ := ih held' fun call member => by
      rw [mode, size]
      exact valued call (mem_cons_of_mem _ member)
    refine ⟨after, full'', vals'', ?_, mode'.trans mode, size'.trans size, ?_⟩
    · rw [foldlM_cons, ran]
      exact rest
    · rw [mode] at held''
      cases stored : call.stored cache.isEagle <;> simpa [stored] using held''

end

end Denotes

/-! ### The refinement -/

/-- After any sequence of inserts and matches from an empty cache, a match returns
the indices the prefix map gives: those of the longest prefix of whole pages that an
insert of the namespace begins with, each position holding what the first insert to
cover the prefix up to the end of its page gave. Matching does not change any later
answer. -/
theorem matchPrefix_refines (cache : RadixCache) (clock : Clock) (positive : 0 < cache.pageSize)
    (enabled : cache.disable = false) (calls : List PrefixCall)
    (valued : ∀ call ∈ calls, call.Valued cache.isEagle cache.pageSize) :
    ∃ after, calls.foldlM execPrefix (cache.reset clock) = .ok after ∧
      ∀ (now : Clock) (key : RadixKey), ∃ matched result front,
        after.matchPrefix now key = .ok (matched, result) ∧
        Answers cache.pageSize (calls.filterMap (·.stored cache.isEagle)) key.namespaceOf
          (key.maybeToBigramView cache.isEagle none).1.units front result.deviceIndices ∧
        ∀ (later : Clock) (other : RadixKey), ∃ before again answer answer',
          after.matchPrefix later other = .ok (before, answer) ∧
          matched.matchPrefix later other = .ok (again, answer') ∧
          answer'.deviceIndices = answer.deviceIndices := by
  obtain ⟨after, full, vals, ran, mode, size, held⟩ :=
    (Denotes.reset cache clock positive enabled).run valued
  rw [nil_append] at held
  refine ⟨after, ran, fun now key => ?_⟩
  obtain ⟨matched, result, front, full', vals', returned, mode', size', held', answers⟩ :=
    held.matchPrefix now key
  refine ⟨matched, result, front, returned, ?_, fun later other => ?_⟩
  · rw [size, mode] at answers
    exact answers
  · obtain ⟨before, answer, front₁, -, -, returned₁, -, -, -, answers₁⟩ :=
      held.matchPrefix later other
    obtain ⟨again, answer', front₂, -, -, returned₂, -, -, -, answers₂⟩ :=
      held'.matchPrefix later other
    rw [mode', size'] at answers₂
    exact ⟨before, again, answer, answer', returned₁, returned₂, answers₂.unique answers₁⟩

section Samples

/-- A stopped clock. -/
def stoppedClock : Clock := ⟨0, fun _ => 0, fun _ => 0⟩

/-- A key of plain tokens in the default namespace. -/
def plainTokens (tokens : List ℕ) : RadixKey := .init tokens none false none none

/-- An insert of plain tokens with indices. -/
def insertTokens (tokens indices : List ℕ) : PrefixCall :=
  .insert stoppedClock ⟨plainTokens tokens, some indices, none, false⟩

/-- The indices a match returns after a sequence of calls. -/
def answerAfter (cache : RadixCache) (calls : List PrefixCall) (key : RadixKey) :
    Except IncompatibleKeys (List ℕ) := do
  let after ← calls.foldlM execPrefix cache
  let (_, result) ← after.matchPrefix stoppedClock key
  return result.deviceIndices

/-- Two inserts with a match in between that splits the first. -/
def splitCalls : List PrefixCall :=
  [insertTokens [1, 2, 3, 4] [10, 11, 12, 13], .matchPrefix stoppedClock (plainTokens [1, 2, 5, 6]),
    insertTokens [1, 2, 5, 6] [20, 21, 22, 23]]

/-- A query that splits a node. -/
theorem matchPrefix_refines_split : ∃ after, splitCalls.foldlM execPrefix
        ((init false 2 false false .lru stoppedClock).reset stoppedClock) = .ok after ∧
      ∃ matched result front,
        after.matchPrefix stoppedClock (plainTokens [1, 2, 5, 6]) = .ok (matched, result) ∧
        Answers 2 (splitCalls.filterMap (·.stored false)) (none, none)
          ([1, 2, 5, 6].map KeyUnit.token) front result.deviceIndices := by
  obtain ⟨after, ran, answers⟩ := matchPrefix_refines (init false 2 false false .lru stoppedClock)
    stoppedClock (by decide) rfl splitCalls (by decide)
  obtain ⟨matched, result, front, returned, answer, -⟩ :=
    answers stoppedClock (plainTokens [1, 2, 5, 6])
  exact ⟨after, ran, matched, result, front, returned, answer⟩

/-- A short insert followed by a longer one. -/
def nestedCalls : List PrefixCall :=
  [insertTokens [1, 2] [10, 11], insertTokens [1, 2, 3] [20, 21, 22]]

/-- The first insert to cover the whole matched prefix need not have given the
indices: the first two positions still hold those of the shorter, earlier insert. -/
theorem matchPrefix_not_of_whole_prefix :
    (answerAfter (init false 1 false false .lru stoppedClock) nestedCalls
        (plainTokens [1, 2, 3])).toOption = some [10, 11, 22] ∧
      (firstCovering (nestedCalls.filterMap (·.stored false)) (none, none)
        ([1, 2, 3].map KeyUnit.token)).map (·.values) = some [20, 21, 22] := by
  decide +kernel

end Samples

end RadixCache

end AvaServe.Radix
