import AvaServe.BeamSearch.Textbook

/-!
# Overlapped beam search follows the textbook

Every schedule of launches and commits takes a beam group through states of the
synchronous algorithm: the history and the pool are those after as many steps as
have been committed, the frontier and the rows are those after as many steps as
have been launched, and the selections staged between the two are the selections
of the steps in between. Once the algorithm has ended, nothing is required of
the frontier, of the rows and of what is staged: the commit that ends the group
drops all of it.
-/

namespace AvaServe.BeamSearch

open Foundation List

variable {Score : Type} [AddCommGroup Score] [LinearOrder Score]

/-- A completed beam as a returned sequence. -/
def CompletedBeam.outcome {Score : Type} (beam : CompletedBeam Score) : Outcome Score :=
  ⟨materializeTokens beam.leaf, beam.cumLogprob, beam.numTokens, beam.matchedToken⟩

namespace Search

/-- The vocabulary holds all candidates of a row, and no two extensions the algorithm ranks
have the same score. -/
structure Admissible (search : Search Score) : Prop where
  wide : ∀ tokens, 2 * search.beamWidth ≤ (search.model tokens).length
  noTies : ∀ steps, ((search.extensionsOf (search.progress steps).live).map Extension.score).Nodup

/-- What the launch half stages for the step after `steps` ones. -/
def selectionAt (search : Search Score) (steps : ℕ) : StagedStep Score :=
  let live := (search.progress steps).live
  let top := rowsTopkLogprobs (live.map fun beam => search.model beam.tokens)
    (2 * search.beamWidth)
  if search.maxNewTokens ≤ steps + 1 then
    .final (selectFinalTopk (live.map Beam.score) top.1 top.2 search.beamWidth)
  else
    .step (jointSelect (live.map Beam.score) top.1 top.2 search.stopTokenIds search.beamWidth)

section Selection

variable {search : Search Score} {steps : ℕ}

/-- One beam at the start, then the beam width. -/
theorem length_live (running : (search.progress steps).done = false) :
    (search.progress steps).live.length = if steps = 0 then 1 else search.beamWidth := by
  cases steps with
  | zero => rfl
  | succ steps =>
    obtain ⟨before, below, full⟩ := running_succ running
    rw [progress, step_of_full before below full, length_map]
    exact le_antisymm (length_examine_survivors_le ..) (not_lt.mp full)

/-- There are candidates unless none are asked for. -/
theorem live_nonempty (running : (search.progress steps).done = false) :
    ((search.progress steps).live.map fun beam => search.model beam.tokens) = [] →
      2 * search.beamWidth = 0 := by
  intro empty
  have width := length_live running
  rw [map_eq_nil_iff.mp empty, length_nil] at width
  split at width <;> omega

variable [IsOrderedAddMonoid Score]

/-- The last selection. -/
theorem selectionAt_final (admissible : search.Admissible)
    (running : (search.progress steps).done = false) (limit : search.maxNewTokens ≤ steps + 1) :
    let live := (search.progress steps).live
    let finalists := best Candidate.score search.beamWidth (search.candidatesOf live)
    search.selectionAt steps = .final
      { tokens := finalists.map Candidate.token
        parentIdx := finalists.map Candidate.parent
        cumLogprobs := finalists.map Candidate.score } := by
  rw [selectionAt, if_pos limit]
  congr 1
  refine selectFinalTopk_eq (by simp) (live_nonempty running) ?_
    (noTies_candidates (admissible.noTies steps))
  simpa using fun (beam : Beam Score) _ => admissible.wide beam.tokens

/-- The selection of an earlier step. -/
theorem selectionAt_step (admissible : search.Admissible)
    (running : (search.progress steps).done = false) (below : ¬search.maxNewTokens ≤ steps + 1) :
    let walked := search.walkCandidates (search.progress steps).live
    search.selectionAt steps = .step
      { nextTokens := padded search.beamWidth (walked.1.map Candidate.token)
        parentIdx := padded search.beamWidth (walked.1.map Candidate.parent)
        newCumLogprobs := padded search.beamWidth (walked.1.map Candidate.score)
        numSurvivors := walked.1.length
        finTokens := padded (2 * search.beamWidth) (walked.2.map Candidate.token)
        finParentIdx := padded (2 * search.beamWidth) (walked.2.map Candidate.parent)
        finCumLogprobs := padded (2 * search.beamWidth) (walked.2.map Candidate.score)
        numFinished := walked.2.length } := by
  rw [selectionAt, if_neg below]
  congr 1
  refine jointSelect_eq (by simp) (live_nonempty running) ?_
    (noTies_candidates (admissible.noTies steps))
  simpa using fun (beam : Beam Score) _ => admissible.wide beam.tokens

end Selection

end Search

/-- Padding is behind the rows. -/
theorem take_padded {α β : Type} [Zero β] (size : ℕ) (field : α → β) (rows : List α) :
    (padded size (rows.map field)).take rows.length = rows.map field :=
  take_left' (length_map _)

/-- A full list is not padded. -/
theorem padded_of_length {β : Type} [Zero β] {size : ℕ} {values : List β}
    (full : size ≤ values.length) : padded size values = values := by
  rw [padded, Nat.sub_eq_zero_of_le full, replicate_zero, append_nil]

/-! ## The deferred half -/

namespace BeamGroup

/-- The history and the pool are those of the synchronous algorithm after the committed
steps. -/
structure Committed (search : Search Score) (group : BeamGroup Score) : Prop where
  width : group.beamWidth = search.beamWidth
  limit : group.maxNewTokens = search.maxNewTokens
  stopTokens : group.stopTokenIds = search.stopTokenIds
  leaves : group.leaves.map materializeTokens =
    (search.progress group.numCommitted).live.map Beam.tokens
  pool : group.completed.map CompletedBeam.outcome = (search.progress group.numCommitted).pool
  state : group.state = if (search.progress group.numCommitted).done then .finished else .decoding

/-- Two states of a group that differ in the deferred half only. -/
structure SameLaunch (next group : BeamGroup Score) : Prop where
  frontier : next.frontierCumLogprobs = group.frontierCumLogprobs
  numGenerated : next.numGenerated = group.numGenerated
  retired : next.retired = group.retired

omit [AddCommGroup Score] [LinearOrder Score] in
/-- The launch part stays twice. -/
theorem SameLaunch.trans {last next group : BeamGroup Score} (later : last.SameLaunch next)
    (earlier : next.SameLaunch group) : last.SameLaunch group :=
  ⟨later.frontier.trans earlier.frontier, later.numGenerated.trans earlier.numGenerated,
    later.retired.trans earlier.retired⟩

section Commit

variable {search : Search Score} {group : BeamGroup Score}

omit [LinearOrder Score] in
/-- Attaching candidates to the leaves of their parents gives the extended histories. -/
theorem attach_candidates {live : List (Beam Score)}
    (leaves : group.leaves.map materializeTokens = live.map Beam.tokens)
    {candidates : List (Candidate Score)}
    (inside : ∀ candidate ∈ candidates, candidate.parent < live.length) :
    ∃ nodes, group.attach (candidates.map Candidate.token) (candidates.map Candidate.parent) =
        some nodes ∧
      nodes.map materializeTokens =
        candidates.map fun candidate => (Search.extensionOf live candidate).extend.tokens := by
  induction candidates with
  | nil => exact ⟨[], rfl, rfl⟩
  | cons candidate rest ih =>
    obtain ⟨nodes, attached, histories⟩ :=
      ih fun other member => inside other (mem_cons_of_mem _ member)
    have bound := inside candidate mem_cons_self
    have sized : group.leaves.length = live.length := by simpa using congrArg length leaves
    have leafBound : candidate.parent < group.leaves.length := sized ▸ bound
    obtain ⟨leaf, named⟩ : ∃ leaf, group.leaves[candidate.parent]? = some leaf :=
      ⟨_, getElem?_eq_getElem leafBound⟩
    have history : materializeTokens leaf = (live.getD candidate.parent ⟨[], 0⟩).tokens := by
      have same := congrArg (fun histories => histories[candidate.parent]?) leaves
      simp only [getElem?_map, named, getElem?_eq_getElem bound,
        Option.map_some, Option.some.injEq] at same
      rw [same, getD_eq_getElem?_getD, getElem?_eq_getElem bound, Option.getD_some]
    refine ⟨some (.mk candidate.token leaf) :: nodes, ?_, ?_⟩
    · rw [attach] at attached ⊢
      simp only [map_cons, zip_cons_cons, mapM_cons, attached, named]
      rfl
    · simp only [map_cons, histories, materializeTokens_mk, history]
      rfl

variable {tokens : Candidate Score → List ℕ} {candidates : List (Candidate Score)}
  {nodes : List (Option BeamNode)} (histories : nodes.map materializeTokens = candidates.map tokens)

include histories in
omit [AddCommGroup Score] [LinearOrder Score] in
/-- Completed candidates have the textbook's outcome. -/
theorem complete_candidates (matched : Candidate Score → Option ℕ) (numTokens : ℕ) :
    (complete nodes (candidates.map Candidate.score) (candidates.map matched) numTokens).map
        CompletedBeam.outcome =
      candidates.map fun candidate =>
        ⟨tokens candidate, candidate.score, numTokens, matched candidate⟩ := by
  induction candidates generalizing nodes with
  | nil => simp [complete]
  | cons candidate rest ih =>
    cases nodes with
    | nil => cases histories
    | cons node nodes =>
      simp only [map_cons, cons.injEq] at histories
      have later := ih histories.2
      simp only [complete] at later
      simp only [complete, map_cons, zip_cons_cons, later, CompletedBeam.outcome, histories.1]

include histories in
omit [AddCommGroup Score] [LinearOrder Score] in
/-- No beam has matched. -/
theorem map_none_eq : (nodes.map fun _ => (none : Option ℕ)) = candidates.map fun _ => none := by
  have lengths := congrArg length histories
  simp only [length_map] at lengths
  simp only [map_const', lengths]

variable [IsOrderedAddMonoid Score]

variable (admissible : search.Admissible) (committed : group.Committed search)
  (running : (search.progress group.numCommitted).done = false)

section

include admissible committed running

/-- The last step is committed. -/
theorem commitOne_final (limit : search.maxNewTokens ≤ group.numCommitted + 1) :
    ∃ next, group.commitOne (search.selectionAt group.numCommitted) = some (next, true) ∧
      next.Committed search ∧ next.numCommitted = group.numCommitted + 1 ∧
      (search.progress next.numCommitted).done = true ∧ next.SameLaunch group := by
  set live := (search.progress group.numCommitted).live with liveEq
  set finalists := best Candidate.score search.beamWidth (search.candidatesOf live) with finalEq
  have counted := Search.length_progress running
  have inside (candidate : Candidate Score) (member : candidate ∈ finalists) :
      candidate.parent < live.length := Search.parent_lt_of_mem (best_subset member)
  have sized : group.leaves.length = live.length := by simpa using congrArg length committed.leaves
  obtain ⟨nodes, attached, histories⟩ := attach_candidates committed.leaves inside
  have after : search.progress (group.numCommitted + 1) = _ :=
    Search.step_of_limit running (by rwa [counted])
  refine ⟨{ group with
    completed := group.completed ++ complete nodes (finalists.map Candidate.score)
      (nodes.map fun _ => none) (group.numCommitted + 1)
    leaves := []
    numCommitted := group.numCommitted + 1
    state := .finished }, ?_, ?_, rfl, ?_, ⟨rfl, rfl, rfl⟩⟩
  · have guarded : ∀ parent ∈ finalists.map Candidate.parent, parent < group.leaves.length := by
      intro parent member
      obtain ⟨candidate, among, rfl⟩ := mem_map.mp member
      exact sized ▸ inside candidate among
    rw [Search.selectionAt_final admissible running limit]
    simp only [commitOne, commitFinal, ← liveEq, ← finalEq, attached]
    simp only [guard, if_pos guarded]
    rfl
  · refine ⟨committed.width, committed.limit, committed.stopTokens, ?_, ?_, ?_⟩
    · simp [after]
    · rw [map_append, committed.pool, map_none_eq histories,
        complete_candidates histories, after, Search.finalists_eq, map_map, counted]
      rfl
    · simp [after]
  · simp [after]

/-- So is an earlier one. -/
theorem commitOne_step (below : ¬search.maxNewTokens ≤ group.numCommitted + 1) :
    ∃ next, group.commitOne (search.selectionAt group.numCommitted) =
        some (next, (search.progress (group.numCommitted + 1)).done) ∧
      next.Committed search ∧ next.numCommitted = group.numCommitted + 1 ∧
      next.SameLaunch group := by
  set live := (search.progress group.numCommitted).live with liveEq
  set walked := search.walkCandidates live with walkedEq
  have counted := Search.length_progress running
  have short : ¬search.maxNewTokens ≤ (search.progress group.numCommitted).length + 1 := by
    rwa [counted]
  obtain ⟨finNodes, finAttached, finHistories⟩ := @attach_candidates _ _ group live
    committed.leaves walked.2 fun candidate member => Search.parent_lt_of_mem_walk (.inr member)
  obtain ⟨nodes, attached, histories⟩ := @attach_candidates _ _ group live
    committed.leaves walked.1 fun candidate member => Search.parent_lt_of_mem_walk (.inl member)
  have walkLength : (search.walk live).1.length = walked.1.length := by
    rw [Search.walk_eq, length_map]
  have finOutcomes : (complete finNodes (walked.2.map Candidate.score)
      ((walked.2.map Candidate.token).map some) (group.numCommitted + 1)).map
        CompletedBeam.outcome = (search.walk live).2.map fun extension =>
          extension.outcome (group.numCommitted + 1) (some extension.token) := by
    rw [map_map, complete_candidates finHistories, Search.walk_eq, map_map]
    rfl
  have outcomes : (complete nodes (walked.1.map Candidate.score) (nodes.map fun _ => none)
      (group.numCommitted + 1)).map CompletedBeam.outcome =
        (search.walk live).1.map (Extension.outcome (group.numCommitted + 1) none) := by
    rw [map_none_eq histories, complete_candidates histories, Search.walk_eq, map_map]
    rfl
  rw [Search.selectionAt_step admissible running below, commitOne, commitStep, ← walkedEq]
  simp only [take_padded, finAttached, attached, Option.bind_eq_bind, Option.bind_some]
  by_cases few : walked.1.length < group.beamWidth
  · have after : search.progress (group.numCommitted + 1) = _ :=
      Search.step_of_short running short (by rwa [walkLength, ← committed.width])
    refine ⟨{ group with
      completed := group.completed ++ complete finNodes (walked.2.map Candidate.score)
        ((walked.2.map Candidate.token).map some) (group.numCommitted + 1) ++
        complete nodes (walked.1.map Candidate.score) (nodes.map fun _ => none)
          (group.numCommitted + 1)
      leaves := []
      numCommitted := group.numCommitted + 1
      state := .finished }, ?_, ?_, rfl, ⟨rfl, rfl, rfl⟩⟩
    · rw [after, if_pos few]
    · refine ⟨committed.width, committed.limit, committed.stopTokens, ?_, ?_, ?_⟩
      · simp [after]
      · rw [map_append, map_append, committed.pool, finOutcomes, outcomes, after, counted]
      · simp [after]
  · have after : search.progress (group.numCommitted + 1) = _ :=
      Search.step_of_full running short (by rwa [walkLength, ← committed.width])
    refine ⟨{ group with
      completed := group.completed ++ complete finNodes (walked.2.map Candidate.score)
        ((walked.2.map Candidate.token).map some) (group.numCommitted + 1)
      leaves := nodes
      numCommitted := group.numCommitted + 1 }, ?_, ?_, rfl, ⟨rfl, rfl, rfl⟩⟩
    · rw [after, if_neg few]
    · refine ⟨committed.width, committed.limit, committed.stopTokens, ?_, ?_, ?_⟩
      · rw [histories, after, Search.walk_eq, map_map, map_map]
        rfl
      · rw [map_append, committed.pool, finOutcomes, after, counted]
      · rw [after]
        simpa [running] using committed.state

/-- Committing a selection advances the search. -/
theorem commitOne_selectionAt : ∃ next, group.commitOne (search.selectionAt group.numCommitted) =
        some (next, (search.progress (group.numCommitted + 1)).done) ∧
      next.Committed search ∧ next.numCommitted = group.numCommitted + 1 ∧
      next.SameLaunch group := by
  by_cases limit : search.maxNewTokens ≤ group.numCommitted + 1
  · obtain ⟨next, commits, done, counted, ended, same⟩ :=
      commitOne_final admissible committed running limit
    rw [counted] at ended
    exact ⟨next, by rw [commits, ended], done, counted, same⟩
  · exact commitOne_step admissible committed running limit

end

/-- The staged selections are those of the steps from `first` on, as far as the algorithm
gets. -/
def Stages (search : Search Score) (first : ℕ) (pending : List (ℕ × StagedStep Score)) : Prop :=
  ∀ position staged, pending[position]? = some staged →
    (search.progress (first + position)).done = false →
      staged.2 = search.selectionAt (first + position)

omit [IsOrderedAddMonoid Score] in
/-- The later stages. -/
theorem Stages.tail {first : ℕ} {staged : ℕ × StagedStep Score}
    {pending : List (ℕ × StagedStep Score)} (stages : Stages search first (staged :: pending)) :
    Stages search (first + 1) pending := by
  intro position other named running
  have shifted : first + 1 + position = first + (position + 1) := by omega
  rw [shifted] at running ⊢
  exact stages (position + 1) other named running

omit [IsOrderedAddMonoid Score] in
/-- One stage more. -/
theorem Stages.append {first : ℕ} {staged : ℕ × StagedStep Score}
    {pending : List (ℕ × StagedStep Score)} (stages : Stages search first pending)
    (last : (search.progress (first + pending.length)).done = false →
      staged.2 = search.selectionAt (first + pending.length)) :
    Stages search first (pending ++ [staged]) := by
  intro position other named running
  obtain before | after := lt_or_ge position pending.length
  · rw [getElem?_append_left before] at named
    exact stages position other named running
  · rw [getElem?_append_right after] at named
    obtain ⟨bound, rfl⟩ := List.getElem?_eq_some_iff.mp named
    have same : position = pending.length := by
      simp only [length_singleton] at bound
      omega
    subst same
    simpa using last running

/-- A commit steps the synchronous algorithm through the staged selections that are not
gated, and stops where the algorithm ends. -/
theorem commitLoop_follows (admissible : search.Admissible) (upToTick : Option ℕ)
    {pending : List (ℕ × StagedStep Score)} (committed : group.Committed search)
    (running : (search.progress group.numCommitted).done = false)
    (stages : Stages search group.numCommitted pending) :
    ∃ next, commitLoop upToTick pending group =
        some (next, (search.progress next.numCommitted).done) ∧
      next.Committed search ∧ next.SameLaunch group ∧
      Stages search next.numCommitted next.pendingSteps ∧
      next.numCommitted ≤ group.numCommitted + pending.length ∧
      ((search.progress next.numCommitted).done = false →
        next.numCommitted + next.pendingSteps.length = group.numCommitted + pending.length ∧
        next.pendingSteps = pending.dropWhile fun staged => !gated upToTick staged.1) := by
  induction pending generalizing group with
  | nil =>
    refine ⟨{ group with pendingSteps := [] }, ?_, { committed with },
      ⟨rfl, rfl, rfl⟩, ?_, le_refl _, fun _ => ⟨rfl, rfl⟩⟩
    · rw [commitLoop, running]
    · intro position staged named
      simp at named
  | cons staged pending ih =>
    obtain ⟨tick, sel⟩ := staged
    rw [commitLoop]
    split
    next closed =>
      refine ⟨{ group with pendingSteps := (tick, sel) :: pending }, ?_,
        { committed with }, ⟨rfl, rfl, rfl⟩, stages,
        Nat.le_add_right _ _, fun _ => ⟨rfl, ?_⟩⟩
      · rw [running]
      · simp [closed]
    next ungated =>
      have first : sel = search.selectionAt group.numCommitted := stages 0 (tick, sel) rfl running
      obtain ⟨next, commits, advanced, counted, same⟩ :=
        commitOne_selectionAt admissible committed running
      rw [first, commits, Option.bind_some]
      cases ended : (search.progress (group.numCommitted + 1)).done with
      | true =>
        refine ⟨{ next with pendingSteps := [] }, ?_,
          { advanced with }, ⟨same.frontier, same.numGenerated, same.retired⟩, ?_, ?_, ?_⟩
        · simp [counted, ended]
        · intro position staged named
          simp at named
        · simp only [length_cons]
          omega
        · intro running
          simp only [counted, ended] at running
          cases running
      | false =>
        have nextRunning : (search.progress next.numCommitted).done = false := by
          rw [counted, ended]
        have nextStages : Stages search next.numCommitted pending := by
          rw [counted]
          exact stages.tail
        obtain ⟨last, loops, final, sameLast, lastStages, bound, rest⟩ :=
          ih advanced nextRunning nextStages
        have longer : next.numCommitted + pending.length =
            group.numCommitted + ((tick, sel) :: pending).length := by
          rw [length_cons]
          omega
        rw [longer] at bound rest
        refine ⟨last, loops, final, sameLast.trans same, lastStages, bound, fun running => ?_⟩
        obtain ⟨length, remaining⟩ := rest running
        refine ⟨length, ?_⟩
        simp [ungated, remaining]

end Commit

end BeamGroup

/-! ## The launch half -/

namespace Decoding

open BeamGroup

/-- A decoding group follows the synchronous algorithm. -/
structure Follows (search : Search Score) (decoding : Decoding Score) : Prop where
  committed : decoding.group.Committed search
  retired : decoding.group.retired = (search.progress decoding.group.numCommitted).done
  stages : Stages search decoding.group.numCommitted decoding.group.pendingSteps
  bound : decoding.group.numCommitted ≤ decoding.group.numGenerated
  ahead : (search.progress decoding.group.numCommitted).done = false →
    decoding.group.numCommitted + decoding.group.pendingSteps.length = decoding.group.numGenerated
  frontier : (search.progress decoding.group.numGenerated).done = false →
    decoding.group.frontierCumLogprobs =
      (search.progress decoding.group.numGenerated).live.map Beam.score
  rows : (search.progress decoding.group.numGenerated).done = false →
    decoding.rows = (search.progress decoding.group.numGenerated).live.map Beam.tokens
  spawned : (search.progress decoding.group.numGenerated).done = false →
    0 < decoding.group.numGenerated → decoding.spawned = true

section Launch

variable {search : Search Score} {decoding : Decoding Score}

/-- A new decoding follows the search. -/
theorem follows_new (search : Search Score) :
    (Decoding.new search.beamWidth search.maxNewTokens search.stopTokenIds).Follows search where
  committed := ⟨rfl, rfl, rfl, rfl, rfl, rfl⟩
  retired := rfl
  stages := fun position staged named => by simp [Decoding.new, BeamGroup.new] at named
  bound := le_refl _
  ahead := fun _ => rfl
  frontier := fun _ => rfl
  rows := fun _ => rfl
  spawned := fun _ positive => absurd positive (lt_irrefl 0)

/-- A group decodes until it is retired. -/
theorem Follows.state_eq (follows : decoding.Follows search) :
    decoding.group.state = .decoding ↔ decoding.group.retired = false := by
  rw [follows.committed.state, follows.retired]
  cases (search.progress decoding.group.numCommitted).done <;> simp

/-- The group after a launch that stages a selection. -/
def staging (group : BeamGroup Score) (tick : ℕ) (staged : StagedStep Score)
    (frontier : List Score) : BeamGroup Score :=
  { group with
    frontierCumLogprobs := frontier
    numGenerated := group.numGenerated + 1
    pendingSteps := group.pendingSteps ++ [(tick, staged)] }

/-- Staging the selection of the next step keeps following. -/
theorem Follows.advance (follows : decoding.Follows search)
    (running : decoding.group.retired = false) {tick : ℕ} {staged : StagedStep Score}
    {frontier : List Score} {rows : List (List ℕ)} {spawned : Bool}
    (selection : (search.progress decoding.group.numGenerated).done = false → staged =
      search.selectionAt decoding.group.numGenerated)
    (next : (search.progress (decoding.group.numGenerated + 1)).done = false → frontier =
      (search.progress (decoding.group.numGenerated + 1)).live.map Beam.score ∧ rows =
      (search.progress (decoding.group.numGenerated + 1)).live.map Beam.tokens ∧ spawned = true) :
    Follows search ⟨staging decoding.group tick staged frontier, rows, spawned⟩ := by
  have ahead := follows.ahead (follows.retired ▸ running)
  refine ⟨{ follows.committed with }, follows.retired, ?_,
    follows.bound.trans (Nat.le_succ _), fun _ => ?_, fun going => (next going).1,
    fun going => (next going).2.1, fun going _ => (next going).2.2⟩
  · refine follows.stages.append fun going => ?_
    rw [ahead] at going ⊢
    exact selection going
  · simp [staging, ← add_assoc, ahead]

/-- The per-row candidates the launch half selects from. -/
def topOf (search : Search Score) (decoding : Decoding Score) : List (List Score) × List (List ℕ) :=
  rowsTopkLogprobs (decoding.rows.map search.model) decoding.group.numCandidates

variable [IsOrderedAddMonoid Score]

/-- The selection of a step that does not end the algorithm: the survivors fill the
frontier and are the next live beams. -/
theorem next_live {steps : ℕ} (admissible : search.Admissible)
    (going : (search.progress (steps + 1)).done = false) {sel : SelectResult Score}
    (selection : .step sel = search.selectionAt steps) : let live := (search.progress steps).live
    let survivors := (search.walkCandidates live).1
    survivors.length = search.beamWidth ∧
      sel.newCumLogprobs = (search.progress (steps + 1)).live.map Beam.score ∧
      sel.nextTokens = survivors.map Candidate.token ∧
      sel.parentIdx = survivors.map Candidate.parent ∧
      (search.progress (steps + 1)).live.map Beam.tokens = survivors.map fun candidate =>
        (live.getD candidate.parent ⟨[], 0⟩).tokens ++ [candidate.token] := by
  intro live survivors
  obtain ⟨running, below, full⟩ := Search.running_succ going
  have after : search.progress (steps + 1) = _ := Search.step_of_full running below full
  rw [Search.length_progress running] at below
  rw [Search.walk_eq, length_map] at full
  have width : survivors.length = search.beamWidth :=
    le_antisymm (length_examine_survivors_le ..) (not_lt.mp full)
  have whole {β : Type} [Zero β] (field : Candidate Score → β) :
      padded search.beamWidth (survivors.map field) = survivors.map field :=
    padded_of_length (by rw [length_map, width])
  rw [Search.selectionAt_step admissible running below, StagedStep.step.injEq] at selection
  rw [selection, after, Search.walk_eq, map_map, map_map, map_map]
  refine ⟨width, whole Candidate.score, whole _, whole _, ?_⟩
  rw [map_map]
  rfl

omit [AddCommGroup Score] [LinearOrder Score] [IsOrderedAddMonoid Score] in
/-- The rows are those of the survivors' parents. -/
theorem relay_map (survivors : List (Candidate Score)) (rowOf : Candidate Score → List ℕ) :
    relay (survivors.map rowOf) (survivors.map Candidate.token) =
      survivors.map fun candidate => rowOf candidate ++ [candidate.token] := by
  rw [relay, zipWith_map, zipWith_self]

variable (admissible : search.Admissible) (follows : decoding.Follows search)

section

include admissible follows

variable (decodes : decoding.group.state = .decoding)

section

include decodes

/-- A launch stages the selection of the next step. The group keeps following with the rows
of the survivors, and with any rows if the step ends the algorithm. -/
theorem Follows.selectGroup_eq (tick : ℕ) : ∃ staged frontier tokens parents,
      selectGroup decoding.group (topOf search decoding).1 (topOf search decoding).2 tick =
        some (staging decoding.group tick staged frontier, tokens, parents) ∧
      (decoding.group.nextStepIsFinal = true → parents = none) ∧
      ∀ rows spawned, ((search.progress decoding.group.numGenerated).done = false →
          ∀ survivors : List (Candidate Score), survivors.length = search.beamWidth →
          tokens = survivors.map Candidate.token → parents = some (survivors.map Candidate.parent) →
          rows = (survivors.map fun candidate =>
            ((search.progress decoding.group.numGenerated).live.getD candidate.parent
              ⟨[], 0⟩).tokens ++ [candidate.token]) ∧ spawned = true) →
        Follows search ⟨staging decoding.group tick staged frontier, rows, spawned⟩ := by
  have alive := follows.state_eq.mp decodes
  rw [selectGroup, nextStepIsFinal, follows.committed.limit]
  by_cases limit : search.maxNewTokens ≤ decoding.group.numGenerated + 1
  · simp only [if_pos (decide_eq_true limit), advanceFinalFrontier, if_pos decodes]
    refine ⟨_, _, _, none, rfl, fun _ => rfl, fun rows spawned _ =>
      follows.advance alive (fun running => ?_) fun going => ?_⟩
    · rw [Search.selectionAt, if_pos limit, topOf, follows.frontier running, follows.rows running,
        numCandidates, follows.committed.width, map_map]
      rfl
    · rw [Search.done_of_limit (by omega)] at going
      cases going
  · simp only [decide_eq_false limit, Bool.false_eq_true, advanceFrontier, if_pos decodes]
    have selection (running : (search.progress decoding.group.numGenerated).done = false) :
        .step (jointSelect decoding.group.frontierCumLogprobs (topOf search decoding).1
          (topOf search decoding).2 decoding.group.stopTokenIds decoding.group.beamWidth) =
            search.selectionAt decoding.group.numGenerated := by
      rw [Search.selectionAt, if_neg limit, topOf, follows.frontier running, follows.rows running,
        numCandidates, follows.committed.width, follows.committed.stopTokens, map_map]
      rfl
    refine ⟨_, _, _, some _, rfl, False.elim, fun rows spawned filled =>
      follows.advance alive selection fun going => ?_⟩
    have running := Search.live_of_not_done going (Nat.le_succ _)
    obtain ⟨width, scores, tokens, parents, lists⟩ := next_live admissible going (selection running)
    rw [lists]
    refine ⟨scores, filled running _ width ?_ ?_⟩
    · rw [tokens, follows.committed.width, take_of_length_le (by rw [length_map, width])]
    · rw [parents, follows.committed.width, take_of_length_le (by rw [length_map, width])]

/-- The prefill launch. -/
theorem Follows.selectLeaderPrefill (first : decoding.group.numGenerated = 0) (tick : ℕ) :
    ∃ next, decoding.selectLeaderPrefill search.model tick = some next ∧ next.Follows search ∧
      ∃ staged frontier, next.group = staging decoding.group tick staged frontier := by
  obtain ⟨staged, frontier, tokens, parents, launched, final, keeps⟩ :=
    follows.selectGroup_eq admissible decodes tick
  rw [topOf] at launched
  rw [Decoding.selectLeaderPrefill, launched]
  split
  next last =>
    refine ⟨_, rfl, keeps _ _ fun _ _ _ _ moved => ?_, _, _, rfl⟩
    cases (final last).symm.trans moved
  next =>
    refine ⟨_, rfl, keeps _ _ fun running survivors width relayed _ => ⟨?_, rfl⟩, _, _, rfl⟩
    have prompt : (search.progress decoding.group.numGenerated).live = [⟨[], 0⟩] := by
      rw [first]
      rfl
    have leader : decoding.rows.headD [] = [] := by
      rw [follows.rows running, prompt]
      rfl
    rw [relayed, leader, follows.committed.width, ← width, ← map_const', relay_map]
    refine map_congr_left fun candidate _ => ?_
    rw [prompt]
    cases candidate.parent <;> simp

/-- A decode launch. -/
theorem Follows.selectAndRelayDecode (members : decoding.spawned = true) (tick : ℕ) :
    ∃ next, decoding.selectAndRelayDecode search.model tick = some next ∧ next.Follows search ∧
      ∃ staged frontier, next.group = staging decoding.group tick staged frontier := by
  have live : ¬(decoding.spawned = false ∨ decoding.group.retired = true ∨
      decoding.group.state ≠ .decoding) := by
    simp [members, follows.state_eq.mp decodes, decodes]
  obtain ⟨staged, frontier, tokens, parents, launched, -, keeps⟩ :=
    follows.selectGroup_eq admissible decodes tick
  rw [topOf] at launched
  simp only [Decoding.selectAndRelayDecode, if_neg live, launched]
  refine ⟨_, rfl, keeps _ _ fun running survivors width relayed moved => ⟨?_, members⟩, _, _, rfl⟩
  rw [relayed, moved, reparent, map_map, relay_map]
  refine map_congr_left fun candidate _ => ?_
  simp only [Function.comp_apply, follows.rows running, getD_eq_getElem?_getD, getElem?_map]
  cases (search.progress decoding.group.numGenerated).live[candidate.parent]? <;> rfl

end

end

/-- A group whose launches select nothing any more: it ended in its prefill, or a commit
finished it. -/
def Idle (decoding : Decoding Score) : Prop :=
  0 < decoding.group.numGenerated ∧ decoding.spawned = false ∨ decoding.group.state = .finished

omit [IsOrderedAddMonoid Score] in
/-- An idle decoding is done. -/
theorem Follows.done_of_idle (follows : decoding.Follows search) (idle : decoding.Idle) :
    (search.progress decoding.group.numGenerated).done = true := by
  obtain ⟨positive, none⟩ | ended := idle
  · by_contra running
    rw [Bool.not_eq_true] at running
    rw [follows.spawned running positive] at none
    cases none
  · refine Search.done_mono ?_ follows.bound
    by_contra running
    rw [Bool.not_eq_true] at running
    rw [follows.committed.state, running] at ended
    cases ended

section

include admissible follows

/-- A launch follows the search. -/
theorem Follows.launch (tick : ℕ) :
    ∃ next, decoding.launch search.model tick = some next ∧ next.Follows search ∧ (¬decoding.Idle ∧
          (∃ staged frontier, next.group = staging decoding.group tick staged frontier) ∨
        decoding.Idle ∧ next = decoding) := by
  rw [Decoding.launch]
  by_cases decodes : decoding.group.state = .decoding
  · have unfinished : decoding.group.state ≠ .finished := by
      rw [decodes]
      exact BeamGroupState.noConfusion
    by_cases first : decoding.group.numGenerated = 0
    · rw [if_pos ⟨first, decodes⟩]
      obtain ⟨next, launched, after, staged⟩ :=
        follows.selectLeaderPrefill admissible decodes first tick
      refine ⟨next, launched, after, .inl ⟨?_, staged⟩⟩
      rintro (⟨positive, _⟩ | ended)
      · omega
      · exact unfinished ended
    · rw [if_neg fun both => first both.1]
      cases members : decoding.spawned with
      | true =>
        obtain ⟨next, launched, after, staged⟩ :=
          follows.selectAndRelayDecode admissible decodes members tick
        refine ⟨next, launched, after, .inl ⟨?_, staged⟩⟩
        rintro (⟨_, none⟩ | ended)
        · rw [members] at none
          cases none
        · exact unfinished ended
      | false =>
        refine ⟨decoding, ?_, follows, .inr ⟨.inl ⟨pos_of_ne_zero first, members⟩, rfl⟩⟩
        simp [Decoding.selectAndRelayDecode, members]
  · refine ⟨decoding, ?_, follows, .inr ⟨.inr ?_, rfl⟩⟩
    · simp [Decoding.selectAndRelayDecode, decodes]
    · cases state : decoding.group.state with
      | decoding => exact absurd state decodes
      | finished => rfl

/-- So does a commit. -/
theorem Follows.commit (upToTick : Option ℕ) :
    ∃ next, decoding.commit upToTick = some next ∧ next.Follows search ∧
      next.group.numGenerated = decoding.group.numGenerated ∧
      (decoding.Idle → next.Idle) ∧
      (next.group.state = .decoding → decoding.group.state = .decoding ∧ next.group.pendingSteps =
          decoding.group.pendingSteps.dropWhile fun staged => !gated upToTick staged.1) := by
  rw [Decoding.commit]
  cases alive : decoding.group.retired with
  | true =>
    refine ⟨decoding, if_pos rfl, follows, rfl, id, fun decodes => ?_⟩
    rw [follows.state_eq.mp decodes] at alive
    cases alive
  | false =>
    have decodes := follows.state_eq.mpr alive
    have running : (search.progress decoding.group.numCommitted).done = false :=
      follows.retired ▸ alive
    have ahead := follows.ahead running
    obtain ⟨group, loops, committed, same, stages, bound, rest⟩ :=
      commitLoop_follows admissible upToTick follows.committed running follows.stages
    have pending : decoding.group.commitPending upToTick =
        some (group, (search.progress group.numCommitted).done) := by
      rw [commitPending, decodes]
      exact loops
    rw [ahead, ← same.numGenerated] at bound
    simp only [Bool.false_eq_true, pending, Option.map_some]
    cases ended : (search.progress group.numCommitted).done with
    | true =>
      have past {steps : ℕ} (after : group.numCommitted ≤ steps)
          (going : (search.progress steps).done = false) : False := by
        rw [Search.done_mono ended after] at going
        cases going
      have state : group.state = .finished := by
        rw [committed.state, ended]
        rfl
      refine ⟨_, rfl, ⟨{ committed with }, ended.symm, ?_, bound,
        fun going => (past le_rfl going).elim, fun going => (past bound going).elim,
        fun going => (past bound going).elim, fun going => (past bound going).elim⟩,
        same.numGenerated, fun _ => .inr state, fun going => ?_⟩
      · intro position staged named
        simp at named
      · exact BeamGroupState.noConfusion (state.symm.trans going)
    | false =>
      rw [if_neg Bool.false_ne_true]
      obtain ⟨counted, remaining⟩ := rest ended
      have frame : decoding.Idle → Idle ⟨group, decoding.rows, decoding.spawned⟩ := by
        rintro (⟨positive, none⟩ | finished)
        · exact .inl ⟨same.numGenerated ▸ positive, none⟩
        · rw [decodes] at finished
          cases finished
      refine ⟨_, rfl, ⟨committed, ?_, stages, bound, fun _ => ?_, fun going => ?_,
        fun going => ?_, fun going => ?_⟩, same.numGenerated, frame,
        fun _ => ⟨decodes, remaining⟩⟩
      · rw [ended, same.retired, alive]
      · rw [counted, ahead, same.numGenerated]
      all_goals simp only [same.numGenerated] at going ⊢
      · rw [same.frontier]
        exact follows.frontier going
      · exact follows.rows going
      · exact follows.spawned going

end

end Launch

end Decoding

end AvaServe.BeamSearch
