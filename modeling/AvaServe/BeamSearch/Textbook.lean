import AvaServe.BeamSearch.BeamGroup

/-!
# Beam search as in the textbook

The synchronous algorithm keeps whole token sequences. Each step ranks all
one-token extensions of the live beams, walks the best `2 * beamWidth` of them,
finishes the extensions that end in a stop token, and keeps the best `beamWidth`
others. It ends at the length limit, where the best extensions all finish, or when
too few extensions survive, in which case these finish as well.

The second half of the module reads the tensor selection back in these terms: the
candidates of a frontier are the extensions of the live beams, with the position
of a beam in place of its tokens.
-/

namespace AvaServe.BeamSearch

open Foundation List

variable {Score : Type}

/-- A live beam: its tokens and their cumulative score. -/
structure Beam (Score : Type) where
  tokens : List ℕ
  score : Score
  deriving DecidableEq, Repr

/-- A beam extended by one token. -/
structure Extension (Score : Type) where
  beam : Beam Score
  token : ℕ
  score : Score
  deriving DecidableEq, Repr

/-- The beam an extension leads to. -/
def Extension.extend (extension : Extension Score) : Beam Score :=
  ⟨extension.beam.tokens ++ [extension.token], extension.score⟩

/-- Whether an extension ends in a stop token. -/
def Extension.stops (stopTokenIds : List ℕ) (extension : Extension Score) : Bool :=
  decide (extension.token ∈ stopTokenIds)

/-- A returned sequence with its score, its length and the stop token that ended it. -/
structure Outcome (Score : Type) where
  tokens : List ℕ
  score : Score
  length : ℕ
  matched : Option ℕ
  deriving DecidableEq, Repr

/-- An extension that ends its beam at a given length. -/
def Extension.outcome (length : ℕ) (matched : Option ℕ) (extension : Extension Score) :
    Outcome Score :=
  ⟨extension.beam.tokens ++ [extension.token], extension.score, length, matched⟩

/-- What a search is given: the scores of all next tokens after a sequence, the width, the
length limit and the stop tokens. -/
structure Search (Score : Type) where
  model : List ℕ → List Score
  beamWidth : ℕ
  maxNewTokens : ℕ
  stopTokenIds : List ℕ

/-- The state of the synchronous algorithm. -/
structure Progress (Score : Type) where
  live : List (Beam Score)
  pool : List (Outcome Score)
  length : ℕ
  done : Bool
  deriving DecidableEq, Repr

namespace Search

/-- All one-token extensions of the live beams. -/
def extensionsOf [Add Score] (search : Search Score) (live : List (Beam Score)) :
    List (Extension Score) :=
  live.flatMap fun beam => (search.model beam.tokens).zipIdx.map fun step =>
    ⟨beam, step.2, beam.score + step.1⟩

/-- The empty sequence is the only live beam at first. -/
def start [Zero Score] : Progress Score where
  live := [⟨[], 0⟩]
  pool := []
  length := 0
  done := false

section

variable [Add Score] [LinearOrder Score]

/-- The walk over the best extensions: the survivors and the finished ones. -/
def walk (search : Search Score) (live : List (Beam Score)) :
    List (Extension Score) × List (Extension Score) :=
  examine (Extension.stops search.stopTokenIds) search.beamWidth
    (best Extension.score (2 * search.beamWidth) (search.extensionsOf live))

/-- The extensions that finish at the length limit. -/
def finalists (search : Search Score) (live : List (Beam Score)) : List (Extension Score) :=
  best Extension.score search.beamWidth (search.extensionsOf live)

/-- One step of the algorithm. -/
def step (search : Search Score) (progress : Progress Score) : Progress Score :=
  let length := progress.length + 1
  if progress.done then progress
  else if search.maxNewTokens ≤ length then
    { live := []
      pool := progress.pool ++ (search.finalists progress.live).map (Extension.outcome length none)
      length := length
      done := true }
  else
    let walked := search.walk progress.live
    let pool := progress.pool ++ walked.2.map fun extension =>
      extension.outcome length (some extension.token)
    if walked.1.length < search.beamWidth then
      { live := []
        pool := pool ++ walked.1.map (Extension.outcome length none)
        length := length
        done := true }
    else
      { live := walked.1.map Extension.extend
        pool := pool
        length := length
        done := false }

/-- A step that walks the candidates at the length limit too: stop tokens finish there as stops,
and the best other extensions finish beside them. -/
def stepCheckingStops (search : Search Score) (progress : Progress Score) : Progress Score :=
  let length := progress.length + 1
  let walked := search.walk progress.live
  let pool := progress.pool ++ walked.2.map fun extension =>
    extension.outcome length (some extension.token)
  if progress.done then progress
  else if search.maxNewTokens ≤ length ∨ walked.1.length < search.beamWidth then
    { live := []
      pool := pool ++ walked.1.map (Extension.outcome length none)
      length := length
      done := true }
  else
    { live := walked.1.map Extension.extend
      pool := pool
      length := length
      done := false }

end

variable [AddCommGroup Score] [LinearOrder Score]

/-- The state after a number of steps. -/
def progress (search : Search Score) : ℕ → Progress Score
  | 0 => start
  | steps + 1 => search.step (search.progress steps)

/-- The pool the algorithm returns. It ends within `maxNewTokens` steps, and in one step at
least. -/
def answer (search : Search Score) : List (Outcome Score) :=
  (search.progress (max 1 search.maxNewTokens)).pool

/-- The pool of the algorithm that checks for stop tokens at the length limit too. -/
def answerCheckingStops (search : Search Score) : List (Outcome Score) :=
  (search.stepCheckingStops^[max 1 search.maxNewTokens] start).pool

/-! ## Runs of the algorithm -/

section Progress

variable {search : Search Score} {steps later : ℕ} {progress : Progress Score}

/-- A run that has ended stays as it is. -/
theorem step_of_done (ended : progress.done = true) : search.step progress = progress := by
  simp [step, ended]

/-- The step that reaches the length limit. -/
theorem step_of_limit (running : progress.done = false)
    (limit : search.maxNewTokens ≤ progress.length + 1) : search.step progress =
      { live := []
        pool := progress.pool ++ (search.finalists progress.live).map
          (Extension.outcome (progress.length + 1) none)
        length := progress.length + 1
        done := true } := by
  simp [step, running, limit]

/-- A step with too few survivors. -/
theorem step_of_short (running : progress.done = false)
    (below : ¬search.maxNewTokens ≤ progress.length + 1)
    (few : (search.walk progress.live).1.length < search.beamWidth) : search.step progress =
      { live := []
        pool := progress.pool ++ ((search.walk progress.live).2.map fun extension =>
          extension.outcome (progress.length + 1) (some extension.token)) ++
          (search.walk progress.live).1.map (Extension.outcome (progress.length + 1) none)
        length := progress.length + 1
        done := true } := by
  simp [step, running, below, few]

/-- A step that goes on. -/
theorem step_of_full (running : progress.done = false)
    (below : ¬search.maxNewTokens ≤ progress.length + 1)
    (full : ¬(search.walk progress.live).1.length < search.beamWidth) : search.step progress =
      { live := (search.walk progress.live).1.map Extension.extend
        pool := progress.pool ++ ((search.walk progress.live).2.map fun extension =>
          extension.outcome (progress.length + 1) (some extension.token))
        length := progress.length + 1
        done := false } := by
  simp [step, running, below, full]

/-- Nothing changes after the end. -/
theorem progress_of_done (ended : (search.progress steps).done = true) (after : steps ≤ later) :
    search.progress later = search.progress steps := by
  induction later, after using Nat.le_induction with
  | base => rfl
  | succ later _ ih => rw [progress, ih, step_of_done ended]

/-- A run that has ended has ended later on. -/
theorem done_mono (ended : (search.progress steps).done = true) (after : steps ≤ later) :
    (search.progress later).done = true := by
  rw [progress_of_done ended after]
  exact ended

/-- A run that goes on has not ended before. -/
theorem live_of_not_done (running : (search.progress later).done = false)
    (before : steps ≤ later) :
    (search.progress steps).done = false := by
  by_contra ended
  rw [Bool.not_eq_false] at ended
  rw [done_mono ended before] at running
  exact Bool.noConfusion running

/-- A step that does not end the run is below the limit and has enough survivors. -/
theorem running_succ (running : (search.progress (steps + 1)).done = false) :
    (search.progress steps).done = false ∧
      ¬search.maxNewTokens ≤ (search.progress steps).length + 1 ∧
      ¬(search.walk (search.progress steps).live).1.length < search.beamWidth := by
  have before := live_of_not_done running (Nat.le_succ steps)
  rw [progress] at running
  have below : ¬search.maxNewTokens ≤ (search.progress steps).length + 1 := by
    intro limit
    rw [step_of_limit before limit] at running
    cases running
  refine ⟨before, below, fun few => ?_⟩
  rw [step_of_short before below few] at running
  cases running

/-- While the run goes on its length counts the steps. -/
theorem length_progress (running : (search.progress steps).done = false) :
    (search.progress steps).length = steps := by
  induction steps with
  | zero => rfl
  | succ steps ih =>
    obtain ⟨before, below, full⟩ := running_succ running
    rw [progress, step_of_full before below full, ih before]

/-- The length limit ends the run. -/
theorem done_of_limit (reached : max 1 search.maxNewTokens ≤ steps) :
    (search.progress steps).done = true := by
  obtain ⟨before, rfl⟩ : ∃ before, steps = before + 1 := ⟨steps - 1, by omega⟩
  by_contra running
  rw [Bool.not_eq_true] at running
  obtain ⟨earlier, below, -⟩ := running_succ running
  rw [length_progress earlier] at below
  omega

/-- The pool of an ended run is the answer. -/
theorem pool_of_done (ended : (search.progress steps).done = true) :
    (search.progress steps).pool = search.answer := by
  rw [answer]
  obtain early | late := le_total steps (max 1 search.maxNewTokens)
  · rw [progress_of_done ended early]
  · rw [progress_of_done (done_of_limit le_rfl) late]

end Progress

/-! ## Scores of sequences -/

/-- The score of a sequence: the sum of the scores of its tokens, each after the tokens
before it. -/
def pathScore (search : Search Score) (tokens : List ℕ) : Score :=
  ((range tokens.length).map fun position =>
    (search.model (tokens.take position)).getD (tokens.getD position 0) 0).sum

variable (search : Search Score)

omit [LinearOrder Score] in
/-- One more token adds its own score. -/
theorem pathScore_append (tokens : List ℕ) (token : ℕ) : search.pathScore (tokens ++ [token]) =
      search.pathScore tokens + (search.model tokens).getD token 0 := by
  have earlier (position : ℕ) (inside : position ∈ range tokens.length) :
      (search.model ((tokens ++ [token]).take position)).getD
          ((tokens ++ [token]).getD position 0) 0 =
        (search.model (tokens.take position)).getD (tokens.getD position 0) 0 := by
    have bound := mem_range.mp inside
    have same : (tokens ++ [token]).getD position 0 = tokens.getD position 0 := by
      simp [getElem?_append_left bound]
    rw [take_append_of_le_length bound.le, same]
  rw [pathScore, length_append, length_singleton, range_succ, map_append,
    map_congr_left earlier, pathScore]
  simp [getD_eq_getElem?_getD]

omit [LinearOrder Score] in
/-- The score of an extension is the score of its sequence. -/
theorem score_of_mem_extensionsOf {search : Search Score} {live : List (Beam Score)}
    (scored : ∀ beam ∈ live, beam.score = search.pathScore beam.tokens)
    {extension : Extension Score} (member : extension ∈ search.extensionsOf live) :
    extension.score = search.pathScore extension.extend.tokens := by
  obtain ⟨beam, beamMem, inside⟩ := mem_flatMap.mp member
  obtain ⟨step, stepMem, rfl⟩ := mem_map.mp inside
  have named := mk_mem_zipIdx_iff_getElem?.mp stepMem
  simp only [Extension.extend, pathScore_append, scored beam beamMem]
  rw [getD_eq_getElem?_getD, named]
  rfl

/-- Every live beam and every outcome carries the score of its sequence. -/
theorem progress_scored (steps : ℕ) :
    (∀ beam ∈ (search.progress steps).live, beam.score = search.pathScore beam.tokens) ∧
      ∀ outcome ∈ (search.progress steps).pool,
        outcome.score = search.pathScore outcome.tokens := by
  induction steps with
  | zero => simp [progress, start, pathScore]
  | succ steps ih =>
    obtain ⟨live, pool⟩ := ih
    have ranked (count : ℕ) (extension : Extension Score) (member : extension ∈
        best Extension.score count (search.extensionsOf (search.progress steps).live)) :
        extension.score = search.pathScore extension.extend.tokens :=
      score_of_mem_extensionsOf live (best_subset member)
    have walked := examine_sublist (Extension.stops search.stopTokenIds) search.beamWidth
      (best Extension.score (2 * search.beamWidth)
        (search.extensionsOf (search.progress steps).live))
    have survivors (extension : Extension Score)
        (among : extension ∈ (search.walk (search.progress steps).live).1) :=
      ranked _ extension (walked.1.subset among)
    have finished (extension : Extension Score)
        (among : extension ∈ (search.walk (search.progress steps).live).2) :=
      ranked _ extension (walked.2.subset among)
    rw [progress]
    cases running : (search.progress steps).done with
    | true =>
      rw [step_of_done running]
      exact ⟨live, pool⟩
    | false =>
      by_cases limit : search.maxNewTokens ≤ (search.progress steps).length + 1
      · rw [step_of_limit running limit]
        exact ⟨by simp, forall_mem_append.mpr ⟨pool, forall_mem_map.mpr (ranked _)⟩⟩
      by_cases few : (search.walk (search.progress steps).live).1.length < search.beamWidth
      · rw [step_of_short running limit few]
        refine ⟨by simp, forall_mem_append.mpr ⟨?_, forall_mem_map.mpr survivors⟩⟩
        exact forall_mem_append.mpr ⟨pool, forall_mem_map.mpr finished⟩
      · rw [step_of_full running limit few]
        exact ⟨forall_mem_map.mpr survivors,
          forall_mem_append.mpr ⟨pool, forall_mem_map.mpr finished⟩⟩

/-! ## The tensor selection -/

/-- The beam a candidate extends, by its position. -/
def extensionOf (live : List (Beam Score)) (candidate : Candidate Score) : Extension Score :=
  ⟨live.getD candidate.parent ⟨[], 0⟩, candidate.token, candidate.score⟩

/-- The candidates of the frontier that stands for the live beams. -/
def candidatesOf (search : Search Score) (live : List (Beam Score)) : List (Candidate Score) :=
  extensions (live.map Beam.score) (live.map fun beam => search.model beam.tokens)

section Readback

variable {search : Search Score} {live : List (Beam Score)}

omit [LinearOrder Score] in
/-- The candidates one by one, with the positions of their beams. -/
theorem candidatesOf_eq : search.candidatesOf live =
    live.zipIdx.flatMap fun entry => (search.model entry.1.tokens).zipIdx.map fun step =>
      ⟨entry.1.score + step.1, entry.2, step.2⟩ := by
  rw [candidatesOf, extensions, zip_map', zipIdx_map, map_map]
  rfl

omit [LinearOrder Score] in
/-- The candidates read as extensions are all extensions. -/
theorem map_extensionOf : (search.candidatesOf live).map (extensionOf live) =
    search.extensionsOf live := by
  have indexed : search.extensionsOf live = live.zipIdx.flatMap fun entry =>
      (search.model entry.1.tokens).zipIdx.map fun step =>
        ⟨entry.1, step.2, entry.1.score + step.1⟩ := by
    conv_lhs => rw [extensionsOf, ← zipIdx_map_fst 0 live, flatMap_map]
  rw [candidatesOf_eq, indexed, map_flatMap]
  refine flatMap_congr fun entry member => ?_
  have named := mk_mem_zipIdx_iff_getElem?.mp member
  simp [extensionOf, named]

variable {candidate : Candidate Score}

omit [LinearOrder Score] in
/-- A candidate extends a live beam. -/
theorem parent_lt_of_mem (member : candidate ∈ search.candidatesOf live) :
    candidate.parent < live.length := by
  rw [candidatesOf_eq] at member
  obtain ⟨entry, entryMem, inside⟩ := mem_flatMap.mp member
  obtain ⟨step, _, rfl⟩ := mem_map.mp inside
  exact (List.getElem?_eq_some_iff.mp (mk_mem_zipIdx_iff_getElem?.mp entryMem)).1

/-- The best candidates are the best extensions. -/
theorem best_extensionsOf (count : ℕ) : best Extension.score count (search.extensionsOf live) =
    (best Candidate.score count (search.candidatesOf live)).map (extensionOf live) := by
  rw [← map_extensionOf]
  exact best_map _ fun _ _ _ _ => Iff.rfl

/-- The candidates of the walk over the frontier. -/
def walkCandidates (search : Search Score) (live : List (Beam Score)) :
    List (Candidate Score) × List (Candidate Score) :=
  examine (Candidate.stops search.stopTokenIds) search.beamWidth
    (best Candidate.score (2 * search.beamWidth) (search.candidatesOf live))

/-- The walk over the extensions is the walk over the candidates. -/
theorem walk_eq : search.walk live = ((search.walkCandidates live).1.map (extensionOf live),
      (search.walkCandidates live).2.map (extensionOf live)) := by
  rw [walk, best_extensionsOf, examine_map]
  rfl

/-- The finalists are the best candidates. -/
theorem finalists_eq : search.finalists live =
    (best Candidate.score search.beamWidth (search.candidatesOf live)).map (extensionOf live) :=
  best_extensionsOf _

/-- A walked candidate extends a live beam. -/
theorem parent_lt_of_mem_walk (member : candidate ∈ (search.walkCandidates live).1 ∨
    candidate ∈ (search.walkCandidates live).2) : candidate.parent < live.length := by
  have walked := examine_sublist (Candidate.stops search.stopTokenIds) search.beamWidth
    (best Candidate.score (2 * search.beamWidth) (search.candidatesOf live))
  obtain survivor | finished := member
  · exact parent_lt_of_mem (best_subset (walked.1.subset survivor))
  · exact parent_lt_of_mem (best_subset (walked.2.subset finished))

omit [LinearOrder Score] in
/-- The candidates have no ties if the extensions have none. -/
theorem noTies_candidates (noTies : ((search.extensionsOf live).map Extension.score).Nodup) :
    ((search.candidatesOf live).map Candidate.score).Nodup := by
  rw [← map_extensionOf, map_map] at noTies
  exact noTies

end Readback

end Search

end AvaServe.BeamSearch
