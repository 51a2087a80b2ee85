import AvaServe.BeamSearch.OverlapRefinement

/-!
# Whole runs of an overlapped beam search

Launches and commits may come in any order and under any ticks. The group returns
the pool of the synchronous algorithm, and it does so as soon as a commit covers
the ticks of as many launches as the length limit allows.
-/

namespace AvaServe.BeamSearch

open Foundation BeamGroup List

variable {Score : Type} [AddCommGroup Score] [LinearOrder Score]

namespace Decoding

/-- The ticks of the launches of a schedule. -/
def launchTicks (schedule : List Half) : List ℕ :=
  schedule.filterMap fun half => match half with
    | .launch tick => some tick
    | .commit _ => none

/-- The selections of a group were launched under the first of the given ticks, and all of
them were, unless launches select nothing any more. -/
structure Ticked (decoding : Decoding Score) (ticks : List ℕ) : Prop where
  count : decoding.group.numGenerated = ticks.length ∨
    decoding.group.numGenerated ≤ ticks.length ∧ decoding.Idle
  pending : decoding.group.state = .decoding → decoding.group.pendingSteps.map Prod.fst =
      (ticks.take decoding.group.numGenerated).drop decoding.group.numCommitted

section Runs

variable [IsOrderedAddMonoid Score] {search : Search Score} {decoding : Decoding Score}
  {ticks : List ℕ}

variable (ticked : decoding.Ticked ticks) (admissible : search.Admissible)
  (follows : decoding.Follows search)

section

include ticked admissible follows

/-- A launch follows the search. -/
theorem Ticked.launch (tick : ℕ) :
    ∃ next, decoding.launch search.model tick = some next ∧ next.Follows search ∧
      next.Ticked (ticks ++ [tick]) := by
  obtain ⟨next, launched, nextFollows, ⟨busy, staged, frontier, group⟩ | ⟨idle, rfl⟩⟩ :=
    follows.launch admissible tick
  · refine ⟨next, launched, nextFollows, ?_⟩
    have all : decoding.group.numGenerated = ticks.length := by
      obtain all | ⟨_, idle⟩ := ticked.count
      · exact all
      · exact absurd idle busy
    refine ⟨.inl ?_, fun decodes => ?_⟩
    · rw [group, staging, length_append, length_singleton, all]
    · have bound : decoding.group.numCommitted ≤ ticks.length := all ▸ follows.bound
      rw [group] at decodes ⊢
      have before := ticked.pending decodes
      rw [all, take_length] at before
      simp only [staging, map_append, before, all]
      rw [take_of_length_le (by simp), drop_append_of_le_length bound]
      rfl
  · refine ⟨next, launched, nextFollows, ?_⟩
    have short : next.group.numGenerated ≤ ticks.length := by
      obtain all | ⟨short, _⟩ := ticked.count
      · exact all.le
      · exact short
    refine ⟨.inr ⟨short.trans (by simp), idle⟩, fun decodes => ?_⟩
    rw [ticked.pending decodes, take_append_of_le_length short]

/-- The remaining selections after a commit that leaves the group decoding. -/
theorem Ticked.commit (upToTick : Option ℕ) :
    ∃ next, decoding.commit upToTick = some next ∧ next.Follows search ∧ next.Ticked ticks ∧
      (next.group.state = .decoding → ∀ staged, next.group.pendingSteps.head? = some staged →
          gated upToTick staged.1 = true) := by
  obtain ⟨next, commits, nextFollows, generated, idle, remaining⟩ :=
    follows.commit admissible upToTick
  refine ⟨next, commits, nextFollows, ⟨?_, fun decodes => ?_⟩, fun decodes staged first => ?_⟩
  · rw [generated]
    exact ticked.count.imp id fun few => ⟨few.1, idle few.2⟩
  · obtain ⟨before, rest⟩ := remaining decodes
    have ahead := follows.ahead (by rw [← follows.retired]; exact follows.state_eq.mp before)
    have nextAhead := nextFollows.ahead
      (by rw [← nextFollows.retired]; exact nextFollows.state_eq.mp decodes)
    have suffix : next.group.pendingSteps <:+ decoding.group.pendingSteps := by
      rw [rest]
      exact dropWhile_suffix _
    have shift : next.group.numCommitted = decoding.group.numCommitted +
        (decoding.group.pendingSteps.length - next.group.pendingSteps.length) := by
      have shorter := suffix.length_le
      omega
    rw [suffix_iff_eq_drop.mp suffix, map_drop, ticked.pending before, drop_drop,
      generated, ← shift]
  · obtain ⟨_, rest⟩ := remaining decodes
    rw [rest] at first
    have stopped := head?_dropWhile_not (fun staged => !gated upToTick staged.1)
      decoding.group.pendingSteps
    rw [first] at stopped
    simpa using stopped

end

/-- Every schedule does. -/
theorem run_follows (admissible : search.Admissible) (schedule : List Half)
    (follows : decoding.Follows search) (ticked : decoding.Ticked ticks) :
    ∃ last, Decoding.run search.model decoding schedule = some last ∧ last.Follows search ∧
      last.Ticked (ticks ++ launchTicks schedule) := by
  induction schedule generalizing decoding ticks with
  | nil => exact ⟨decoding, rfl, follows, by simpa [launchTicks] using ticked⟩
  | cons half schedule ih =>
    cases half with
    | launch tick =>
      obtain ⟨next, launched, nextFollows, nextTicked⟩ := ticked.launch admissible follows tick
      obtain ⟨last, runs, lastFollows, lastTicked⟩ := ih nextFollows nextTicked
      refine ⟨last, ?_, lastFollows, by simpa [launchTicks] using lastTicked⟩
      rw [Decoding.run, perform, launched]
      exact runs
    | commit upToTick =>
      obtain ⟨next, commits, nextFollows, nextTicked, _⟩ :=
        ticked.commit admissible follows upToTick
      obtain ⟨last, runs, lastFollows, lastTicked⟩ := ih nextFollows nextTicked
      refine ⟨last, ?_, lastFollows, by simpa [launchTicks] using lastTicked⟩
      rw [Decoding.run, perform, commits]
      exact runs

omit [IsOrderedAddMonoid Score] in
/-- A finished group has the search's answer. -/
theorem Follows.answer (follows : decoding.Follows search)
    (ended : decoding.group.state = .finished) :
    decoding.group.completed.map CompletedBeam.outcome = search.answer := by
  rw [follows.committed.pool]
  refine Search.pool_of_done ?_
  by_contra running
  rw [Bool.not_eq_true] at running
  rw [follows.committed.state, running] at ended
  cases ended

include ticked admissible follows in
/-- A commit that covers the first `max 1 maxNewTokens` launches finishes the group. -/
theorem Ticked.commit_finishes {upToTick : Option ℕ}
    (enough : max 1 search.maxNewTokens ≤ ticks.length)
    (covered : ∀ tick ∈ ticks.take (max 1 search.maxNewTokens), gated upToTick tick = false) :
    ∃ last, decoding.commit upToTick = some last ∧ last.Follows search ∧
      last.group.state = .finished := by
  obtain ⟨last, commits, lastFollows, lastTicked, stopped⟩ :=
    ticked.commit admissible follows upToTick
  refine ⟨last, commits, lastFollows, ?_⟩
  cases decodes : last.group.state with
  | finished => rfl
  | decoding =>
    have running : (search.progress last.group.numCommitted).done = false := by
      rw [← lastFollows.retired]
      exact lastFollows.state_eq.mp decodes
    have ahead := lastFollows.ahead running
    have launched : (search.progress last.group.numGenerated).done = true := by
      obtain all | ⟨_, idle⟩ := lastTicked.count
      · exact Search.done_of_limit (all ▸ enough)
      · exact lastFollows.done_of_idle idle
    have early : last.group.numCommitted < max 1 search.maxNewTokens := by
      by_contra! late
      rw [Search.done_of_limit late] at running
      cases running
    have behind : last.group.numCommitted < last.group.numGenerated := by
      refine lt_of_le_of_ne lastFollows.bound fun same => ?_
      rw [same, launched] at running
      cases running
    cases pending : last.group.pendingSteps with
    | nil =>
      rw [pending, length_nil] at ahead
      omega
    | cons staged rest =>
      have closed := stopped decodes staged (by rw [pending]; rfl)
      have ticksEq := lastTicked.pending decodes
      have named : ticks[last.group.numCommitted]? = some staged.1 := by
        have first := congrArg head? ticksEq
        rw [pending, map_cons, head?_drop, getElem?_take_of_lt behind] at first
        exact first.symm
      have member : staged.1 ∈ ticks.take (max 1 search.maxNewTokens) := by
        refine mem_of_getElem? (i := last.group.numCommitted) ?_
        rw [getElem?_take_of_lt early, named]
      rw [covered _ member] at closed
      cases closed

/-- **Overlapped beam search returns the textbook answer.** In every schedule of launches and
commits the group never fails; its pool is the one of the synchronous algorithm after the
committed steps, each sequence scored by the model along its own tokens; a finished group
holds the whole answer; and a commit that covers enough launches finishes it. -/
theorem overlap_returns_textbook_answer (search : Search Score) (admissible : search.Admissible)
    (schedule : List Half) : ∃ decoding, Decoding.run search.model
        (Decoding.new search.beamWidth search.maxNewTokens search.stopTokenIds) schedule =
          some decoding ∧
      decoding.group.completed.map CompletedBeam.outcome =
        (search.progress decoding.group.numCommitted).pool ∧
      (decoding.group.state = .finished →
        decoding.group.completed.map CompletedBeam.outcome = search.answer) ∧
      (∀ beam ∈ decoding.group.completed,
        beam.cumLogprob = search.pathScore (materializeTokens beam.leaf)) ∧
      ∀ upToTick, max 1 search.maxNewTokens ≤ (launchTicks schedule).length →
        (∀ tick ∈ (launchTicks schedule).take (max 1 search.maxNewTokens),
          gated upToTick tick = false) →
        ∃ last, decoding.commit upToTick = some last ∧ last.group.state = .finished ∧
          last.group.completed.map CompletedBeam.outcome = search.answer := by
  obtain ⟨decoding, runs, follows, ticked⟩ :=
    run_follows admissible schedule (follows_new search) (⟨.inl rfl, fun _ => rfl⟩ : Ticked _ [])
  rw [nil_append] at ticked
  refine ⟨decoding, runs, follows.committed.pool, follows.answer, fun beam member => ?_,
    fun upToTick enough covered => ?_⟩
  · have scored := (search.progress_scored decoding.group.numCommitted).2 beam.outcome
    rw [← follows.committed.pool] at scored
    exact scored (mem_map_of_mem member)
  · obtain ⟨last, commits, lastFollows, ended⟩ :=
      ticked.commit_finishes admissible follows enough covered
    exact ⟨last, commits, ended, lastFollows.answer ended⟩

end Runs

/-- A search over four tokens, the first of which stops a beam. -/
def twoStepSearch : Search ℤ where
  model := fun tokens => if tokens.length = 0 then [-1, -2, -4, -8] else [-10, -20, -30, -40]
  beamWidth := 2
  maxNewTokens := 2
  stopTokenIds := [0]

/-- The search meets the conditions of the refinement. -/
theorem twoStepSearch_admissible : twoStepSearch.Admissible where
  wide := fun tokens => by
    simp only [twoStepSearch]
    split <;> decide
  noTies := fun steps => by
    match steps with
    | 0 | 1 => decide +kernel
    | steps + 2 =>
      rw [@Search.progress_of_done _ _ _ twoStepSearch 2 _ (by decide +kernel) (by omega)]
      decide +kernel

/-- A schedule that launches one step too many. -/
theorem overlap_returns_textbook_answer_two_steps : twoStepSearch.Admissible ∧
      ∃ decoding, Decoding.run twoStepSearch.model (Decoding.new 2 2 [0])
          [.launch 1, .launch 2, .commit (some 1), .launch 3] = some decoding ∧
        ∃ last, decoding.commit (some 2) = some last ∧ last.group.state = .finished ∧
          last.group.completed.map CompletedBeam.outcome =
            [⟨[0], -1, 1, some 0⟩, ⟨[1, 0], -12, 2, none⟩, ⟨[2, 0], -14, 2, none⟩] := by
  refine ⟨twoStepSearch_admissible, ?_⟩
  obtain ⟨decoding, runs, _, _, _, ends⟩ := overlap_returns_textbook_answer twoStepSearch
    twoStepSearch_admissible [.launch 1, .launch 2, .commit (some 1), .launch 3]
  obtain ⟨last, commits, finished, answer⟩ := ends (some 2) (by decide) (by decide)
  refine ⟨decoding, runs, last, commits, finished, answer.trans ?_⟩
  decide +kernel

/-- At the length limit stop tokens are not looked for: the best extensions finish as they are,
where a check would leave their places to the best extensions without a stop token. -/
theorem no_stop_check_at_limit : twoStepSearch.Admissible ∧
    ((Decoding.run twoStepSearch.model (Decoding.new 2 2 [0])
        [.launch 1, .commit (some 1), .launch 2]).bind (·.commit (some 2))).map
          (fun last => last.group.completed.map CompletedBeam.outcome) =
      some [⟨[0], -1, 1, some 0⟩, ⟨[1, 0], -12, 2, none⟩, ⟨[2, 0], -14, 2, none⟩] ∧
    twoStepSearch.answerCheckingStops =
      [⟨[0], -1, 1, some 0⟩, ⟨[1, 0], -12, 2, some 0⟩, ⟨[2, 0], -14, 2, some 0⟩,
        ⟨[1, 1], -22, 2, none⟩, ⟨[2, 1], -24, 2, none⟩] := by
  refine ⟨twoStepSearch_admissible, ?_, ?_⟩ <;> decide +kernel

end Decoding

end AvaServe.BeamSearch
