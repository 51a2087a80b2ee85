import Mathlib
import AvaServe.Foundation.TopRanked

/-!
# Joint token selection

The selection step of beam search works on fixed-shape tensors. Every frontier
row contributes its best candidate tokens; the candidates of all rows are ranked
together by cumulative score; masks and running counts split the ranked
candidates into survivors and finished ones; a scatter compacts each class into
a buffer of fixed size.

`examine` is the sequential walk the tensor code stands for: it looks at the
ranked candidates one after the other until enough of them survive.
`jointSelect_eq` states that the buffers hold the result of that walk, followed
by zeros. `rankedCandidates_eq` states that cutting every row down to its own
candidates loses none of the globally best ones.
-/

namespace AvaServe.BeamSearch

open Foundation List

variable {Score : Type}

/-! ## Tensor operations -/

/-- `values.topk(count, sorted=True)`: the largest values with their positions. -/
def topk [LinearOrder Score] (count : ℕ) (values : List Score) : List (Score × ℕ) :=
  best Prod.fst count values.zipIdx

/-- `mask.long().cumsum(0)`, continued from a count. -/
def cumsum (count : ℕ) : List Bool → List ℕ
  | [] => []
  | flag :: mask => (count + flag.toNat) :: cumsum (count + flag.toNat) mask

/-- `buf.scatter_(0, slot, src)`. -/
def scatter {β : Type} (buffer : List β) (slot : List ℕ) (src : List β) : List β :=
  (slot.zip src).foldl (fun buffer entry => buffer.set entry.1 entry.2) buffer

/-- `_scatter_fixed`: a scatter into a buffer with a slot to spare, which is cut off. -/
def scatterFixed {β : Type} [Zero β] (src : List β) (slot : List ℕ) (size : ℕ) : List β :=
  (scatter (replicate (size + 1) 0) slot src).take size

/-- `rows.shape[1]`. -/
def rowWidth {β : Type} (rows : List (List β)) : ℕ := (rows.headD []).length

/-! ## Selection -/

/-- The fixed-shape result of one expansion step. -/
structure SelectResult (Score : Type) where
  nextTokens : List ℕ
  parentIdx : List ℕ
  newCumLogprobs : List Score
  numSurvivors : ℕ
  finTokens : List ℕ
  finParentIdx : List ℕ
  finCumLogprobs : List Score
  numFinished : ℕ
  deriving DecidableEq, Repr

/-- The best candidates of a step that reaches the length limit. -/
structure FinalSelect (Score : Type) where
  tokens : List ℕ
  parentIdx : List ℕ
  cumLogprobs : List Score
  deriving DecidableEq, Repr

/-- The per-row candidates: scores and tokens of the `numCandidates` best tokens of
each row. -/
def rowsTopkLogprobs [LinearOrder Score] (rows : List (List Score)) (numCandidates : ℕ) :
    List (List Score) × List (List ℕ) :=
  (rows.map fun row => (topk numCandidates row).map Prod.fst,
    rows.map fun row => (topk numCandidates row).map Prod.snd)

/-- Scores, parents and tokens of the `numOut` best candidates. -/
def rankedCandidates [Add Score] [LinearOrder Score] (cumLogprobs : List Score)
    (topLogprobs : List (List Score)) (topTokens : List (List ℕ)) (numOut : ℕ) :
    List Score × List ℕ × List ℕ :=
  let numCandidates := rowWidth topLogprobs
  let scores := zipWith (fun cum row => row.map (cum + ·)) cumLogprobs topLogprobs
  let cand := topk numOut scores.flatten
  (cand.map Prod.fst, cand.map fun entry => entry.2 / numCandidates,
    cand.map fun entry => topTokens.flatten.getD entry.2 0)

/-- Which tokens stop their beam. -/
def isStop (stopTokenIds tokens : List ℕ) : List Bool :=
  if 0 < stopTokenIds.length then tokens.map fun token => decide (token ∈ stopTokenIds)
  else tokens.map fun _ => false

/-- The non-stop candidates whose rank among the non-stop ones is at most the width. -/
def survivorMask (beamWidth count : ℕ) (nonStop : List Bool) : List Bool :=
  zipWith (fun flag rank => flag && decide (rank ≤ beamWidth)) nonStop (cumsum count nonStop)

/-- The stop candidates examined while fewer than `beamWidth` survivors precede them. -/
def finishedMask (beamWidth count : ℕ) (nonStop : List Bool) : List Bool :=
  zipWith (fun flag rank => !flag && decide (rank - flag.toNat < beamWidth)) nonStop
    (cumsum count nonStop)

/-- `torch.where(mask, rank - 1, size)`. -/
def slotOf (size : ℕ) (mask : List Bool) (rank : List ℕ) : List ℕ :=
  zipWith (fun flag rank => if flag then rank - 1 else size) mask rank

/-- `joint_select`. -/
def jointSelect [AddMonoid Score] [LinearOrder Score] (cumLogprobs : List Score)
    (topLogprobs : List (List Score)) (topTokens : List (List ℕ)) (stopTokenIds : List ℕ)
    (beamWidth : ℕ) : SelectResult Score :=
  let numCandidates := rowWidth topLogprobs
  let (candScores, parent, tokens) :=
    rankedCandidates cumLogprobs topLogprobs topTokens numCandidates
  let nonStop := (isStop stopTokenIds tokens).map (!·)
  let survivor := survivorMask beamWidth 0 nonStop
  let finished := finishedMask beamWidth 0 nonStop
  let survSlot := slotOf beamWidth survivor (cumsum 0 nonStop)
  let finSlot := slotOf numCandidates finished (cumsum 0 finished)
  { nextTokens := scatterFixed tokens survSlot beamWidth
    parentIdx := scatterFixed parent survSlot beamWidth
    newCumLogprobs := scatterFixed candScores survSlot beamWidth
    numSurvivors := survivor.count true
    finTokens := scatterFixed tokens finSlot numCandidates
    finParentIdx := scatterFixed parent finSlot numCandidates
    finCumLogprobs := scatterFixed candScores finSlot numCandidates
    numFinished := finished.count true }

/-- `select_final_topk`. -/
def selectFinalTopk [Add Score] [LinearOrder Score] (cumLogprobs : List Score)
    (topLogprobs : List (List Score)) (topTokens : List (List ℕ)) (beamWidth : ℕ) :
    FinalSelect Score :=
  let (candScores, parent, tokens) := rankedCandidates cumLogprobs topLogprobs topTokens beamWidth
  { tokens := tokens, parentIdx := parent, cumLogprobs := candScores }

/-! ## Candidates -/

/-- A one-token extension of a frontier row. -/
structure Candidate (Score : Type) where
  score : Score
  parent : ℕ
  token : ℕ
  deriving DecidableEq, Repr

/-- Whether a candidate ends its beam. -/
def Candidate.stops (stopTokenIds : List ℕ) (candidate : Candidate Score) : Bool :=
  decide (candidate.token ∈ stopTokenIds)

/-- All extensions of one frontier row. -/
def rowExtensions [Add Score] (entry : (Score × List Score) × ℕ) : List (Candidate Score) :=
  entry.1.2.zipIdx.map fun step => ⟨entry.1.1 + step.1, entry.2, step.2⟩

/-- All one-token extensions of the frontier rows, row by row. -/
def extensions [Add Score] (cumLogprobs : List Score) (rows : List (List Score)) :
    List (Candidate Score) :=
  ((cumLogprobs.zip rows).zipIdx.map rowExtensions).flatten

/-- The sequential walk over ranked candidates: stopped ones finish, the others survive,
until `width` of them have survived. The survivors come first in the result. -/
def examine {α : Type} (stop : α → Bool) : ℕ → List α → List α × List α
  | 0, _ => ([], [])
  | _ + 1, [] => ([], [])
  | width + 1, candidate :: rest =>
    if stop candidate then
      let walked := examine stop (width + 1) rest
      (walked.1, candidate :: walked.2)
    else
      let walked := examine stop width rest
      (candidate :: walked.1, walked.2)

/-- A list in a buffer of fixed size, zeros behind it. -/
def padded {β : Type} [Zero β] (size : ℕ) (values : List β) : List β :=
  values ++ replicate (size - values.length) 0

/-! ## Compaction -/

/-- The elements a mask selects. -/
def selected {β : Type} (mask : List Bool) (values : List β) : List β :=
  ((mask.zip values).filter Prod.fst).map Prod.snd

/-- The slots of a compaction: selected elements take consecutive slots, all others the
slot behind the buffer. -/
def compactSlots (size : ℕ) : ℕ → List Bool → List ℕ
  | _, [] => []
  | next, true :: mask => next :: compactSlots size (next + 1) mask
  | next, false :: mask => size :: compactSlots size next mask

section Compaction

variable {β : Type} {size : ℕ}

/-- A mask selects element by element. -/
@[simp] theorem selected_cons (flag : Bool) (mask : List Bool) (value : β) (values : List β) :
    selected (flag :: mask) (value :: values) =
      bif flag then value :: selected mask values else selected mask values := by
  cases flag <;> rfl

/-- A mask selects as many elements as it has flags set. -/
theorem length_selected {mask : List Bool} {values : List β}
    (same : mask.length = values.length) : (selected mask values).length = mask.count true := by
  conv_rhs => rw [← map_fst_zip same.le, count, countP_map]
  rw [selected, length_map, ← countP_eq_length_filter]
  refine countP_congr fun entry _ => ?_
  simp

/-- Selecting commutes with a map. -/
theorem selected_map {γ : Type} (convert : β → γ) (mask : List Bool) (values : List β) :
    selected mask (values.map convert) = (selected mask values).map convert := by
  rw [selected, zip_map_right, filter_map, map_map, selected, map_map]
  rfl

/-- A compaction writes the selected elements in order behind the slots already
filled and leaves zeros behind them. -/
theorem take_scatter_compactSlots [Zero β] {mask : List Bool} {values filled : List β} {dump : β}
    {free : ℕ} (same : mask.length = values.length) (whole : filled.length + free = size)
    (room : mask.count true ≤ free) :
    (scatter (filled ++ (replicate free 0 ++ [dump]))
        (compactSlots size filled.length mask) values).take size =
      filled ++ selected mask values ++ replicate (free - mask.count true) 0 := by
  induction mask generalizing values filled dump free with
  | nil =>
    have long : (filled ++ replicate free (0 : β)).length = size := by simpa using whole
    simp only [compactSlots, scatter, selected, zip_nil_left, foldl_nil,
      filter_nil, map_nil, append_nil, count_nil, Nat.sub_zero]
    rw [← append_assoc, ← long, take_left]
  | cons flag mask ih =>
    cases values with
    | nil => simp at same
    | cons value values =>
      have rest := Nat.succ.inj same
      cases flag with
      | false =>
        have later := @ih values filled value free rest whole (by simpa using room)
        have dumped : (filled ++ (replicate free 0 ++ [dump])).set size value =
            filled ++ (replicate free 0 ++ [value]) := by
          rw [← whole, set_append_right _ _ (by omega)]
          simp
        simpa [scatter, compactSlots, dumped] using later
      | true =>
        obtain ⟨fewer, rfl⟩ : ∃ fewer, free = fewer + 1 := by
          refine ⟨free - 1, ?_⟩
          simp only [count_cons_self] at room
          omega
        have later := @ih values (filled ++ [value]) dump fewer rest
          (by simp only [length_append, length_singleton]; omega)
          (by simpa using room)
        have written : (filled ++ (replicate (fewer + 1) 0 ++ [dump])).set filled.length
            value = filled ++ [value] ++ (replicate fewer 0 ++ [dump]) := by
          simp [replicate_succ]
        simpa [scatter, compactSlots, written] using later

/-- A compaction leaves the selected elements in a padded buffer. -/
theorem scatterFixed_compactSlots [Zero β] {mask : List Bool} {values : List β}
    (same : mask.length = values.length) (room : mask.count true ≤ size) :
    scatterFixed values (compactSlots size 0 mask) size = padded size (selected mask values) := by
  have compacted := @take_scatter_compactSlots β size _ mask values [] 0 size same
    (zero_add _) room
  rw [padded, length_selected same, scatterFixed, replicate_succ']
  exact compacted

end Compaction

/-! ## Masks -/

variable (count : ℕ)

/-- A running count has an entry for every flag. -/
@[simp] theorem length_cumsum (mask : List Bool) : (cumsum count mask).length = mask.length := by
  induction mask generalizing count with
  | nil => rfl
  | cons flag mask ih => simp [cumsum, ih]

/-- Survivors, one candidate after the other. -/
@[simp] theorem survivorMask_cons (beamWidth : ℕ) (flag : Bool) (nonStop : List Bool) :
    survivorMask beamWidth count (flag :: nonStop) =
      (flag && decide (count + flag.toNat ≤ beamWidth)) ::
        survivorMask beamWidth (count + flag.toNat) nonStop :=
  rfl

/-- Finished candidates, one after the other. -/
@[simp] theorem finishedMask_cons (beamWidth : ℕ) (flag : Bool) (nonStop : List Bool) :
    finishedMask beamWidth count (flag :: nonStop) =
      (!flag && decide (count < beamWidth)) ::
        finishedMask beamWidth (count + flag.toNat) nonStop := by
  simp [finishedMask, cumsum]

/-- Both masks are as long as the candidates. -/
@[simp] theorem length_masks (beamWidth : ℕ) (nonStop : List Bool) :
    (survivorMask beamWidth count nonStop).length = nonStop.length ∧
      (finishedMask beamWidth count nonStop).length = nonStop.length := by
  simp [survivorMask, finishedMask]

/-- The running count of a mask gives the slots of a compaction. -/
theorem slotOf_cumsum (size count : ℕ) (mask : List Bool) :
    slotOf size mask (cumsum count mask) = compactSlots size count mask := by
  induction mask generalizing count with
  | nil => rfl
  | cons flag mask ih =>
    have rest := ih (count + flag.toNat)
    cases flag <;> simpa [slotOf, compactSlots, cumsum] using rest

/-- The rank among the non-stop candidates is the slot of a survivor. -/
theorem slotOf_survivorMask (beamWidth count : ℕ) (nonStop : List Bool) :
    slotOf beamWidth (survivorMask beamWidth count nonStop) (cumsum count nonStop) =
      compactSlots beamWidth (min count beamWidth) (survivorMask beamWidth count nonStop) := by
  induction nonStop generalizing count with
  | nil => rfl
  | cons flag nonStop ih =>
    have rest := ih (count + flag.toNat)
    cases flag with
    | false => simpa [slotOf, compactSlots, cumsum] using rest
    | true =>
      by_cases fits : count + 1 ≤ beamWidth
      · have here : min count beamWidth = count := by omega
        simpa [slotOf, compactSlots, cumsum, fits, here] using rest
      · have here : min count beamWidth = beamWidth := by omega
        have next : min (count + 1) beamWidth = beamWidth := by omega
        simp only [Bool.toNat_true, next] at rest
        simpa [slotOf, compactSlots, cumsum, fits, here] using rest

variable {α : Type} (stop : α → Bool)

include stop in
/-- The masks select what the sequential walk finds. -/
theorem selected_masks (beamWidth count : ℕ) (candidates : List α) :
    let nonStop := candidates.map fun candidate => !stop candidate
    selected (survivorMask beamWidth count nonStop) candidates =
        (examine stop (beamWidth - count) candidates).1 ∧
      selected (finishedMask beamWidth count nonStop) candidates =
        (examine stop (beamWidth - count) candidates).2 := by
  induction candidates generalizing count with
  | nil => cases beamWidth - count <;> exact ⟨rfl, rfl⟩
  | cons candidate rest ih =>
    by_cases full : count < beamWidth
    · obtain ⟨width, more⟩ : ∃ width, beamWidth - count = width + 1 :=
        ⟨beamWidth - count - 1, by omega⟩
      by_cases stopped : stop candidate
      · obtain ⟨survivors, finished⟩ := ih count
        rw [more] at survivors finished ⊢
        simp only [examine]
        constructor
        · simpa [stopped] using survivors
        · simpa [stopped, full] using finished
      · obtain ⟨survivors, finished⟩ := ih (count + 1)
        have fewer : beamWidth - (count + 1) = width := by omega
        rw [fewer] at survivors finished
        rw [more]
        simp only [examine]
        have fits : count + 1 ≤ beamWidth := full
        constructor
        · simpa [stopped, fits] using survivors
        · simpa [stopped] using finished
    · have none (later : ℕ) (past : count ≤ later) : beamWidth - later = 0 := by omega
      have beyond : ¬count + 1 ≤ beamWidth := by omega
      rw [none count le_rfl]
      by_cases stopped : stop candidate
      · obtain ⟨survivors, finished⟩ := ih count
        rw [none count le_rfl] at survivors finished
        simp only [examine] at survivors finished ⊢
        constructor
        · simpa [stopped] using survivors
        · simpa [stopped, full] using finished
      · obtain ⟨survivors, finished⟩ := ih (count + 1)
        rw [none (count + 1) (Nat.le_succ _)] at survivors finished
        simp only [examine] at survivors finished ⊢
        constructor
        · simpa [stopped, beyond] using survivors
        · simpa [stopped] using finished

/-- The walk ends when enough candidates survive. -/
theorem length_examine_survivors_le (width : ℕ) (candidates : List α) :
    (examine stop width candidates).1.length ≤ width := by
  fun_induction examine stop width candidates with
  | case1 | case2 => simp
  | case3 width candidate rest stopped walked ih => exact ih
  | case4 width candidate rest live walked ih => simpa using ih

/-- What it finds keeps the order of the ranking. -/
theorem examine_sublist (width : ℕ) (candidates : List α) :
    (examine stop width candidates).1.Sublist candidates ∧
      (examine stop width candidates).2.Sublist candidates := by
  fun_induction examine stop width candidates with
  | case1 | case2 => simp
  | case3 width candidate rest stopped walked ih => exact ⟨ih.1.cons _, ih.2.cons_cons _⟩
  | case4 width candidate rest live walked ih => exact ⟨ih.1.cons_cons _, ih.2.cons _⟩

variable {β : Type}

/-- The walk looks at nothing but the stops. -/
theorem examine_map (convert : α → β) (stop : β → Bool) (width : ℕ) (candidates : List α) :
    examine stop width (candidates.map convert) =
      ((examine (fun candidate => stop (convert candidate)) width candidates).1.map convert,
        (examine (fun candidate => stop (convert candidate)) width candidates).2.map convert) := by
  fun_induction examine (fun candidate => stop (convert candidate)) width candidates with
  | case1 => simp [examine]
  | case2 => rfl
  | case3 width candidate rest stopped walked ih => simp [examine, stopped, walked, ih]
  | case4 width candidate rest live walked ih => simp [examine, live, walked, ih]

include stop in
/-- The survivors' buffer. -/
theorem scatterFixed_survivors [Zero β] (beamWidth : ℕ) (candidates : List α) (field : α → β) :
    let nonStop := candidates.map fun candidate => !stop candidate
    scatterFixed (candidates.map field)
        (slotOf beamWidth (survivorMask beamWidth 0 nonStop) (cumsum 0 nonStop)) beamWidth =
      padded beamWidth ((examine stop beamWidth candidates).1.map field) := by
  intro nonStop
  have found := (selected_masks stop beamWidth 0 candidates).1
  have width : (survivorMask beamWidth 0 nonStop).length = candidates.length := by simp [nonStop]
  have room : (survivorMask beamWidth 0 nonStop).count true ≤ beamWidth := by
    rw [← length_selected width, found]
    exact length_examine_survivors_le ..
  rw [slotOf_survivorMask, zero_min,
    scatterFixed_compactSlots (width.trans (length_map _).symm) room, selected_map, found]
  rfl

include stop in
/-- The buffer of the finished candidates. -/
theorem scatterFixed_finished [Zero β] (beamWidth size : ℕ) (candidates : List α) (field : α → β)
    (room : candidates.length ≤ size) :
    let finished := finishedMask beamWidth 0 (candidates.map fun candidate => !stop candidate)
    scatterFixed (candidates.map field) (slotOf size finished (cumsum 0 finished)) size =
      padded size ((examine stop beamWidth candidates).2.map field) := by
  intro finished
  have width : finished.length = candidates.length := by simp [finished]
  have fits : finished.count true ≤ size := count_le_length.trans (width.le.trans room)
  rw [slotOf_cumsum, scatterFixed_compactSlots (width.trans (length_map _).symm) fits,
    selected_map, (selected_masks stop beamWidth 0 candidates).2]
  rfl

/-- Without stop tokens none stops. -/
theorem isStop_eq (stopTokenIds tokens : List ℕ) :
    isStop stopTokenIds tokens = tokens.map fun token => decide (token ∈ stopTokenIds) := by
  unfold isStop
  split
  · rfl
  next empty =>
    have nothing : stopTokenIds = [] := length_eq_zero_iff.mp (by omega)
    subst nothing
    simp

/-! ## Candidates of the rows -/

/-- A row gives as many candidates as asked for, or all it has. -/
theorem length_topk [LinearOrder Score] (values : List Score) :
    (topk count values).length = min count values.length := by
  rw [topk, length_best, length_zipIdx]

/-- Wide enough rows give as many candidates as asked for. -/
theorem rowWidth_rowsTopkLogprobs [LinearOrder Score] {rows : List (List Score)} {numCandidates : ℕ}
    (some : rows = [] → numCandidates = 0) (wide : ∀ row ∈ rows, numCandidates ≤ row.length) :
    rowWidth (rowsTopkLogprobs rows numCandidates).1 = numCandidates := by
  cases rows with
  | nil => exact (some rfl).symm
  | cons row rows =>
    simp only [rowWidth, rowsTopkLogprobs, map_cons, headD_cons, length_map, length_topk]
    exact min_eq_left (wide row mem_cons_self)

variable [AddCommGroup Score] [LinearOrder Score] [IsOrderedAddMonoid Score]

/-- The candidates of a row that the row's own cut keeps. -/
theorem best_rowExtensions (cum : Score) (row : List Score) (parent : ℕ) :
    best Candidate.score count (rowExtensions ((cum, row), parent)) =
      (topk count row).map fun step => ⟨cum + step.1, parent, step.2⟩ := by
  refine best_map _ fun left _ right _ => ?_
  exact add_le_add_iff_left cum

/-- The candidates that reach the joint ranking, row by row. -/
def rowCandidates (numCandidates : ℕ) (cumLogprobs : List Score) (rows : List (List Score))
    (start : ℕ) : List (List (Candidate Score)) :=
  ((cumLogprobs.zip rows).zipIdx start).map fun entry =>
    best Candidate.score numCandidates (rowExtensions entry)

section Rows

variable {numCandidates start : ℕ} {cumLogprobs : List Score} {rows : List (List Score)}

/-- The candidates of the first row and of the rest. -/
theorem rowCandidates_cons (cum : Score) (row : List Score) :
    rowCandidates numCandidates (cum :: cumLogprobs) (row :: rows) start =
      ((topk numCandidates row).map fun step => ⟨cum + step.1, start, step.2⟩) ::
        rowCandidates numCandidates cumLogprobs rows (start + 1) := by
  rw [rowCandidates, zip_cons_cons, zipIdx_cons, map_cons, best_rowExtensions]
  rfl

section

variable (same : cumLogprobs.length = rows.length)
include same

/-- The flattened tensors hold the candidates' scores and tokens. -/
theorem flatten_rows : (zipWith (fun cum row => row.map (cum + ·)) cumLogprobs
        (rowsTopkLogprobs rows numCandidates).1).flatten =
      (rowCandidates numCandidates cumLogprobs rows start).flatten.map Candidate.score ∧
    (rowsTopkLogprobs rows numCandidates).2.flatten =
      (rowCandidates numCandidates cumLogprobs rows start).flatten.map Candidate.token := by
  induction rows generalizing cumLogprobs start with
  | nil => simp [rowsTopkLogprobs, rowCandidates]
  | cons row rows ih =>
    cases cumLogprobs with
    | nil => simp at same
    | cons cum cumLogprobs =>
      obtain ⟨scores, tokens⟩ := @ih (start + 1) cumLogprobs (Nat.succ.inj same)
      simp only [rowsTopkLogprobs] at scores tokens
      simp only [rowsTopkLogprobs, rowCandidates_cons, map_cons, zipWith_cons_cons,
        flatten_cons, map_append, map_map, scores, tokens]
      exact ⟨rfl, rfl⟩

/-- Dividing a position in the joint candidate list by the row width gives the row. -/
theorem parent_of_mem_zipIdx (wide : ∀ row ∈ rows, numCandidates ≤ row.length)
    {candidate : Candidate Score} {position : ℕ}
    (member : (candidate, position) ∈
      (rowCandidates numCandidates cumLogprobs rows start).flatten.zipIdx
        (start * numCandidates)) :
    position / numCandidates = candidate.parent := by
  induction rows generalizing cumLogprobs start with
  | nil => simp [rowCandidates] at member
  | cons row rows ih =>
    cases cumLogprobs with
    | nil => simp at same
    | cons cum cumLogprobs =>
      have width : (topk numCandidates row).length = numCandidates := by
        rw [length_topk, min_eq_left (wide row mem_cons_self)]
      rw [rowCandidates_cons, flatten_cons, zipIdx_append, mem_append, length_map, width] at member
      obtain here | later := member
      · obtain ⟨low, high, named⟩ := mem_zipIdx here
        rw [length_map, width] at high
        have parent : candidate.parent = start := by rw [named, getElem_map]
        rw [parent]
        exact Nat.div_eq_of_lt_le low (by rw [Nat.succ_mul]; exact high)
      · refine @ih (start + 1) cumLogprobs (Nat.succ.inj same)
          (fun other inside => wide other (mem_cons_of_mem _ inside)) ?_
        rw [Nat.succ_mul]
        exact later

/-- Cutting every row to its own candidates loses none of the globally best extensions. -/
theorem rankedCandidates_eq {numOut : ℕ} (some : rows = [] → numCandidates = 0)
    (wide : ∀ row ∈ rows, numCandidates ≤ row.length) (enough : numOut ≤ numCandidates)
    (noTies : ((extensions cumLogprobs rows).map Candidate.score).Nodup) :
    rankedCandidates cumLogprobs (rowsTopkLogprobs rows numCandidates).1
        (rowsTopkLogprobs rows numCandidates).2 numOut =
      ((best Candidate.score numOut (extensions cumLogprobs rows)).map Candidate.score,
        (best Candidate.score numOut (extensions cumLogprobs rows)).map Candidate.parent,
        (best Candidate.score numOut (extensions cumLogprobs rows)).map Candidate.token) := by
  set pool := (rowCandidates numCandidates cumLogprobs rows 0).flatten with poolEq
  have kept : best Candidate.score numOut (extensions cumLogprobs rows) =
      best Candidate.score numOut pool := by
    have grouped : rowCandidates numCandidates cumLogprobs rows 0 =
        ((cumLogprobs.zip rows).zipIdx.map rowExtensions).map
          (best Candidate.score numCandidates) := by
      rw [map_map]
      rfl
    rw [poolEq, grouped, best_flatten_best noTies enough]
    rfl
  set top := best (fun entry => entry.1.score) numOut pool.zipIdx
  have ranking : best Candidate.score numOut pool = top.map Prod.fst := by
    conv_lhs => rw [← zipIdx_map_fst 0 pool]
    exact best_map _ fun _ _ _ _ => Iff.rfl
  have positions : topk numOut (pool.map Candidate.score) =
      top.map (Prod.map Candidate.score id) := by
    rw [topk, zipIdx_map]
    exact best_map _ fun _ _ _ _ => Iff.rfl
  have indexed (entry : Candidate Score × ℕ) (member : entry ∈ top) : entry ∈ pool.zipIdx :=
    best_subset member
  simp only [rankedCandidates, rowWidth_rowsTopkLogprobs some wide,
    @flatten_rows _ _ _ _ numCandidates 0 _ _ same, ← poolEq, kept, ranking, positions,
    map_map]
  refine Prod.ext rfl (Prod.ext ?_ ?_)
  · refine map_congr_left fun entry member => ?_
    refine @parent_of_mem_zipIdx _ _ _ _ numCandidates 0 _ _ same wide _ _ ?_
    rw [zero_mul]
    exact indexed entry member
  · refine map_congr_left fun entry member => ?_
    have named := mk_mem_zipIdx_iff_getElem?.mp (indexed entry member)
    simp [named]

/-- The joint selection leaves what the walk over the best extensions finds. -/
theorem jointSelect_eq {stopTokenIds : List ℕ} {beamWidth : ℕ}
    (some : rows = [] → 2 * beamWidth = 0)
    (wide : ∀ row ∈ rows, 2 * beamWidth ≤ row.length)
    (noTies : ((extensions cumLogprobs rows).map Candidate.score).Nodup) :
    let walked := examine (Candidate.stops stopTokenIds) beamWidth
      (best Candidate.score (2 * beamWidth) (extensions cumLogprobs rows))
    jointSelect cumLogprobs (rowsTopkLogprobs rows (2 * beamWidth)).1
        (rowsTopkLogprobs rows (2 * beamWidth)).2 stopTokenIds beamWidth =
      { nextTokens := padded beamWidth (walked.1.map Candidate.token)
        parentIdx := padded beamWidth (walked.1.map Candidate.parent)
        newCumLogprobs := padded beamWidth (walked.1.map Candidate.score)
        numSurvivors := walked.1.length
        finTokens := padded (2 * beamWidth) (walked.2.map Candidate.token)
        finParentIdx := padded (2 * beamWidth) (walked.2.map Candidate.parent)
        finCumLogprobs := padded (2 * beamWidth) (walked.2.map Candidate.score)
        numFinished := walked.2.length } := by
  set pool := best Candidate.score (2 * beamWidth) (extensions cumLogprobs rows) with poolEq
  have room : pool.length ≤ 2 * beamWidth := by
    rw [length_best]
    exact min_le_left _ _
  have nonStop : ((isStop stopTokenIds (pool.map Candidate.token)).map (!·)) =
      pool.map fun candidate => !candidate.stops stopTokenIds := by
    rw [isStop_eq, map_map, map_map]
    rfl
  have counted := selected_masks (Candidate.stops stopTokenIds) beamWidth 0 pool
  simp only [jointSelect, rowWidth_rowsTopkLogprobs some wide,
    rankedCandidates_eq same some wide le_rfl noTies, ← poolEq, nonStop]
  simp only [scatterFixed_survivors (Candidate.stops stopTokenIds),
    scatterFixed_finished (Candidate.stops stopTokenIds) _ _ _ _ room]
  congr 1
  · rw [← @length_selected _ _ pool, counted.1]
    · rfl
    · simp
  · rw [← @length_selected _ _ pool, counted.2]
    · rfl
    · simp

/-- The last selection leaves the best extensions. -/
theorem selectFinalTopk_eq {beamWidth : ℕ} (some : rows = [] → 2 * beamWidth = 0)
    (wide : ∀ row ∈ rows, 2 * beamWidth ≤ row.length)
    (noTies : ((extensions cumLogprobs rows).map Candidate.score).Nodup) :
    let finalists := best Candidate.score beamWidth (extensions cumLogprobs rows)
    selectFinalTopk cumLogprobs (rowsTopkLogprobs rows (2 * beamWidth)).1
        (rowsTopkLogprobs rows (2 * beamWidth)).2 beamWidth =
      { tokens := finalists.map Candidate.token
        parentIdx := finalists.map Candidate.parent
        cumLogprobs := finalists.map Candidate.score } := by
  intro finalists
  have enough : beamWidth ≤ 2 * beamWidth := by omega
  simp only [selectFinalTopk, rankedCandidates_eq same some wide enough noTies]
  rfl

end

end Rows

end AvaServe.BeamSearch
