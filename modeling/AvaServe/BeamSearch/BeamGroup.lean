import AvaServe.BeamSearch.JointSelect

/-!
# Beam groups

A beam group is driven by two halves. The launch half selects on the device:
it advances the frontier scores, moves the rows onto the histories of their
parents, relays the next tokens and stages the selection under the tick of its
forward. The deferred half consumes staged selections in order, attaches nodes
to the history and fills the pool of completed beams. Under overlap the launch
half runs ahead of the deferred one, so that selections may be staged after the
one that turns out to end the group.

Indexing a leaf that does not exist and the assertions of the source raise, which
is `none` here.
-/

namespace AvaServe.BeamSearch

variable {Score : Type}

/-! ## History -/

/-- One generated token; the chain of parents is the rest of the sequence. -/
inductive BeamNode where
  | mk (token : ℕ) (parent : Option BeamNode)

/-- The tokens from a node up to its root. -/
def BeamNode.chain : BeamNode → List ℕ
  | .mk token none => [token]
  | .mk token (some parent) => token :: parent.chain

/-- The token sequence in generation order. -/
def materializeTokens (leaf : Option BeamNode) : List ℕ := (leaf.elim [] BeamNode.chain).reverse

/-- A node's tokens end with its own. -/
theorem materializeTokens_mk (token : ℕ) (parent : Option BeamNode) :
    materializeTokens (some (.mk token parent)) = materializeTokens parent ++ [token] := by
  cases parent with
  | none | some parent => simp [materializeTokens, BeamNode.chain]

/-! ## Groups -/

/-- `BeamGroupState`. -/
inductive BeamGroupState where
  | decoding
  | finished
  deriving DecidableEq, Repr

/-- A finished candidate: its leaf, its score and length, and the stop token that ended it. -/
structure CompletedBeam (Score : Type) where
  leaf : Option BeamNode
  cumLogprob : Score
  numTokens : ℕ
  matchedToken : Option ℕ

/-- A selection staged by the launch half. -/
inductive StagedStep (Score : Type) where
  | step (sel : SelectResult Score)
  | final (sel : FinalSelect Score)

/-- `BeamGroup`. -/
structure BeamGroup (Score : Type) where
  beamWidth : ℕ
  maxNewTokens : ℕ
  stopTokenIds : List ℕ
  frontierCumLogprobs : List Score
  leaves : List (Option BeamNode)
  numGenerated : ℕ
  numCommitted : ℕ
  completed : List (CompletedBeam Score)
  state : BeamGroupState
  pendingSteps : List (ℕ × StagedStep Score)
  retired : Bool

namespace BeamGroup

/-- `BeamGroup.__init__`. -/
def new [Zero Score] (beamWidth maxNewTokens : ℕ) (stopTokenIds : List ℕ) : BeamGroup Score where
  beamWidth := beamWidth
  maxNewTokens := maxNewTokens
  stopTokenIds := stopTokenIds
  frontierCumLogprobs := [0]
  leaves := [none]
  numGenerated := 0
  numCommitted := 0
  completed := []
  state := .decoding
  pendingSteps := []
  retired := false

variable (group : BeamGroup Score)

/-- `num_candidates`. -/
def numCandidates : ℕ := 2 * group.beamWidth

/-- `next_step_is_final`. -/
def nextStepIsFinal : Bool := decide (group.maxNewTokens ≤ group.numGenerated + 1)

/-- `advance_frontier`. -/
def advanceFrontier (sel : SelectResult Score) (tick : ℕ) : Option (BeamGroup Score) :=
  if group.state = .decoding then
    some { group with
      frontierCumLogprobs := sel.newCumLogprobs
      numGenerated := group.numGenerated + 1
      pendingSteps := group.pendingSteps ++ [(tick, .step sel)] }
  else none

/-- `advance_final_frontier`. -/
def advanceFinalFrontier (sel : FinalSelect Score) (tick : ℕ) : Option (BeamGroup Score) :=
  if group.state = .decoding then
    some { group with
      numGenerated := group.numGenerated + 1
      pendingSteps := group.pendingSteps ++ [(tick, .final sel)] }
  else none

/-- `BeamNode(token, self.leaves[parent])` for parallel lists of tokens and parents. -/
def attach (tokens parents : List ℕ) : Option (List (Option BeamNode)) :=
  (tokens.zip parents).mapM fun entry =>
    group.leaves[entry.2]?.map fun parent => some (.mk entry.1 parent)

/-- Completed beams of one length from their leaves, scores and stop tokens. -/
def complete (leaves : List (Option BeamNode)) (cums : List Score) (matched : List (Option ℕ))
    (numTokens : ℕ) : List (CompletedBeam Score) :=
  (leaves.zip (cums.zip matched)).map fun entry => ⟨entry.1, entry.2.1, numTokens, entry.2.2⟩

/-- `_commit_step`. -/
def commitStep (sel : SelectResult Score) : Option (BeamGroup Score × Bool) := do
  let newLen := group.numCommitted + 1
  let finTokens := sel.finTokens.take sel.numFinished
  let finLeaves ← group.attach finTokens (sel.finParentIdx.take sel.numFinished)
  let completed := group.completed ++
    complete finLeaves (sel.finCumLogprobs.take sel.numFinished) (finTokens.map some) newLen
  let leaves ← group.attach (sel.nextTokens.take sel.numSurvivors)
    (sel.parentIdx.take sel.numSurvivors)
  if sel.numSurvivors < group.beamWidth then
    some ({ group with
      completed := completed ++ complete leaves (sel.newCumLogprobs.take sel.numSurvivors)
        (leaves.map fun _ => none) newLen
      leaves := []
      numCommitted := newLen
      state := .finished }, true)
  else
    some ({ group with
      completed := completed
      leaves := leaves
      numCommitted := newLen }, false)

/-- `_commit_final`. -/
def commitFinal (sel : FinalSelect Score) : Option (BeamGroup Score × Bool) := do
  let newLen := group.numCommitted + 1
  guard (∀ parent ∈ sel.parentIdx, parent < group.leaves.length)
  let leaves ← group.attach sel.tokens sel.parentIdx
  some ({ group with
    completed := group.completed ++
      complete leaves sel.cumLogprobs (leaves.map fun _ => none) newLen
    leaves := []
    numCommitted := newLen
    state := .finished }, true)

/-- One staged step. -/
def commitOne : StagedStep Score → Option (BeamGroup Score × Bool)
  | .step sel => group.commitStep sel
  | .final sel => group.commitFinal sel

/-- Whether a staged tick lies behind the tick that may be committed. -/
def gated (upToTick : Option ℕ) (tick : ℕ) : Bool :=
  upToTick.elim false fun upTo => decide (upTo < tick)

/-- The loop of `commit_pending` over the steps still staged. -/
def commitLoop (upToTick : Option ℕ) :
    List (ℕ × StagedStep Score) → BeamGroup Score → Option (BeamGroup Score × Bool)
  | [], group => some ({ group with pendingSteps := [] }, false)
  | (tick, sel) :: rest, group =>
    if gated upToTick tick then
      some ({ group with pendingSteps := (tick, sel) :: rest }, false)
    else
      (group.commitOne sel).bind fun committed =>
        if committed.2 then some ({ committed.1 with pendingSteps := [] }, true)
        else commitLoop upToTick rest committed.1

/-- `commit_pending`. -/
def commitPending (upToTick : Option ℕ) : Option (BeamGroup Score × Bool) :=
  match group.state with
  | .finished => some ({ group with pendingSteps := [] }, false)
  | .decoding => commitLoop upToTick group.pendingSteps group

end BeamGroup

/-! ## The coordinator -/

/-- One group with the rows that decode for it. A row is given by the generated tokens
it stands for: those whose keys and values its slots hold, then the relayed one. -/
structure Decoding (Score : Type) where
  group : BeamGroup Score
  rows : List (List ℕ)
  /-- The member rows exist. -/
  spawned : Bool

namespace Decoding

variable [AddCommGroup Score] [LinearOrder Score]

/-- The leader alone, prompt computed. -/
def new (beamWidth maxNewTokens : ℕ) (stopTokenIds : List ℕ) : Decoding Score where
  group := .new beamWidth maxNewTokens stopTokenIds
  rows := [[]]
  spawned := false

/-- `_select_group`: the advanced group, the tokens to relay and the parents to move onto. -/
def selectGroup (group : BeamGroup Score) (topLogprobs : List (List Score))
    (topTokens : List (List ℕ)) (tick : ℕ) :
    Option (BeamGroup Score × List ℕ × Option (List ℕ)) :=
  if group.nextStepIsFinal then
    let fsel := selectFinalTopk group.frontierCumLogprobs topLogprobs topTokens group.beamWidth
    (group.advanceFinalFrontier fsel tick).map fun group => (group, fsel.tokens, none)
  else
    let sel := jointSelect group.frontierCumLogprobs topLogprobs topTokens group.stopTokenIds
      group.beamWidth
    (group.advanceFrontier sel tick).map fun advanced =>
      (advanced, sel.nextTokens.take group.beamWidth, some (sel.parentIdx.take group.beamWidth))

/-- Relay one token to each row. -/
def relay (rows : List (List ℕ)) (tokens : List ℕ) : List (List ℕ) :=
  List.zipWith (fun row token => row ++ [token]) rows tokens

/-- Move the rows onto their parents' slots; a final step moves nothing. -/
def reparent (rows : List (List ℕ)) : Option (List ℕ) → List (List ℕ)
  | none => rows
  | some parents => parents.map fun parent => rows.getD parent []

variable (model : List ℕ → List Score)

variable (decoding : Decoding Score)

/-- `select_leader_prefill`: the first selection, from the leader's row alone. -/
def selectLeaderPrefill (tick : ℕ) : Option (Decoding Score) :=
  let group := decoding.group
  let top := rowsTopkLogprobs (decoding.rows.map model) group.numCandidates
  (selectGroup group top.1 top.2 tick).map fun selection =>
    if group.nextStepIsFinal then
      { group := selection.1
        rows := relay decoding.rows (selection.2.1.take 1)
        spawned := false }
    else
      { group := selection.1
        rows := relay (List.replicate group.beamWidth (decoding.rows.headD [])) selection.2.1
        spawned := true }

/-- `select_and_relay_decode` for the group. -/
def selectAndRelayDecode (tick : ℕ) : Option (Decoding Score) :=
  let group := decoding.group
  if decoding.spawned = false ∨ group.retired = true ∨ group.state ≠ .decoding then some decoding
  else
    let top := rowsTopkLogprobs (decoding.rows.map model) group.numCandidates
    (selectGroup group top.1 top.2 tick).map fun selection =>
      { decoding with
        group := selection.1
        rows := relay (reparent decoding.rows selection.2.2) selection.2.1 }

/-- The launch half of a forward. -/
def launch (tick : ℕ) : Option (Decoding Score) :=
  if decoding.group.numGenerated = 0 ∧ decoding.group.state = .decoding then
    decoding.selectLeaderPrefill model tick
  else decoding.selectAndRelayDecode model tick

/-- The deferred half: a group that finishes frees its rows and leaves the live set. -/
def commit (upToTick : Option ℕ) : Option (Decoding Score) :=
  if decoding.group.retired then some decoding
  else
    (decoding.group.commitPending upToTick).map fun committed =>
      if committed.2 then
        { decoding with
          group := { committed.1 with retired := true, pendingSteps := [] }
          spawned := false }
      else { decoding with group := committed.1 }

/-- One half of a forward: a launch under a tick, or a commit up to a tick. -/
inductive Half where
  | launch (tick : ℕ)
  | commit (upToTick : Option ℕ)
  deriving DecidableEq, Repr

/-- One half of an iteration. -/
def perform : Half → Option (Decoding Score)
  | .launch tick => decoding.launch model tick
  | .commit upToTick => decoding.commit upToTick

/-- A schedule: launches and commits in the order the scheduler runs them. -/
def run (model : List ℕ → List Score) : Decoding Score → List Half → Option (Decoding Score)
  | decoding, [] => some decoding
  | decoding, half :: schedule => (decoding.perform model half).bind fun next =>
    run model next schedule

end Decoding

end AvaServe.BeamSearch
