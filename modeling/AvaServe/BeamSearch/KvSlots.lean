import Mathlib
import AvaServe.BeamSearch.BeamGroup

/-!
# Key-value slots of a beam group

A group of width `members + 1` decodes on one leader row and `members` member rows.
The rows share the prompt slots of the leader. Every decode forward writes one new slot
per row; a selection moves the rows onto the slots of their parents, so that several
rows may name one slot. Slots no row names any more are staged with the tick of the
forward and freed once that tick is committed. The rest is freed, each slot once, when
the group ends. The request of the leader then releases what is left of its own row.

`held` is the set of slots the allocator has handed out for the rows and not got back,
`lent` and `returned` count how often it handed out and got back each slot. Freeing a
slot that is not held raises, which is `none`.
-/

namespace AvaServe.BeamSearch

variable {members : ℕ}

/-- A mapping of the rows: the slots of each row in a window of positions. -/
abbrev Mapping (members : ℕ) : Type := Fin (members + 1) → List ℕ

/-- The mappings before and after a remap, awaiting the set difference. -/
structure StagedOrphans (members : ℕ) where
  tick : ℕ
  oldMapping : Mapping members
  newMapping : Mapping members

/-- `mapping.flatten().unique()`. -/
def slotsOf (mapping : Mapping members) : Finset ℕ :=
  Finset.univ.biUnion fun index => (mapping index).toFinset

/-- Slots referenced before the remap and by nobody after it. -/
def collectOrphanSlots (oldMapping newMapping : Mapping members) : Finset ℕ :=
  slotsOf oldMapping \ slotsOf newMapping

/-- Rewrite the cells of the listed rows of a table. -/
def writeRows {count : ℕ} (table : ℕ → ℕ → ℕ) (rows : Fin count → ℕ)
    (write : Fin count → (ℕ → ℕ) → ℕ → ℕ) : ℕ → ℕ → ℕ :=
  fun row => ((List.finRange count).find? fun index => decide (rows index = row)).elim
    (table row) fun index => write index (table row)

/-- `req_to_token[dst_rows, :prompt_len] = req_to_token[leader_row, :prompt_len]`. -/
def aliasMembersPromptKv (table : ℕ → ℕ → ℕ) (dstRows : Fin members → ℕ)
    (leaderRow promptLen : ℕ) : ℕ → ℕ → ℕ :=
  writeRows table dstRows fun _ cells position =>
    if position < promptLen then table leaderRow position else cells position

/-- `req_to_token[rows, start:stop]`. -/
def readWindow (table : ℕ → ℕ → ℕ) (rows : Fin (members + 1) → ℕ) (start stop : ℕ) :
    Mapping members :=
  fun index => (List.range' start (stop - start)).map (table (rows index))

/-- `req_to_token[rows, start:stop] = mapping`. -/
def writeWindow (table : ℕ → ℕ → ℕ) (rows : Fin (members + 1) → ℕ) (start stop : ℕ)
    (mapping : Mapping members) : ℕ → ℕ → ℕ :=
  writeRows table rows fun index cells position =>
    if start ≤ position ∧ position < stop then (mapping index).getD (position - start) 0
    else cells position

/-- Where the slots of one group are. -/
structure KvState (members : ℕ) where
  promptLen : ℕ
  maxNewTokens : ℕ
  leaderRow : ℕ
  /-- The member rows, once spawned and until freed. -/
  memberRows : Option (Fin members → ℕ)
  reqToToken : ℕ → ℕ → ℕ
  kvAllocatedLen : ℕ
  kvCommittedLen : ℕ
  numGenerated : ℕ
  state : BeamGroupState
  pendingOrphans : List (StagedOrphans members)
  slotsFreed : ℕ
  retired : Bool
  /-- The leader's own request has released its row. -/
  released : Bool
  held : Finset ℕ
  lent : ℕ → ℕ
  returned : ℕ → ℕ

namespace KvState

/-- The leader after its prompt has been computed. -/
def new (members promptLen maxNewTokens leaderRow : ℕ) (reqToToken : ℕ → ℕ → ℕ) :
    KvState members where
  promptLen := promptLen
  maxNewTokens := maxNewTokens
  leaderRow := leaderRow
  memberRows := none
  reqToToken := reqToToken
  kvAllocatedLen := promptLen
  kvCommittedLen := promptLen
  numGenerated := 0
  state := .decoding
  pendingOrphans := []
  slotsFreed := 0
  retired := false
  released := false
  held := ∅
  lent := fun _ => 0
  returned := fun _ => 0

variable (kv : KvState members)

variable (rows : Fin members → ℕ)

/-- The leader's row and the members'. -/
def allRows : Fin (members + 1) → ℕ := Fin.cons kv.leaderRow rows

/-- The slots of the prompt, which belong to the leader. -/
def promptSlots : Finset ℕ := (Finset.range kv.promptLen).image (kv.reqToToken kv.leaderRow)

/-- The decode slots of the leader's row. -/
def leaderSlots (stop : ℕ) : Finset ℕ :=
  ((List.range' kv.promptLen (stop - kv.promptLen)).map (kv.reqToToken kv.leaderRow)).toFinset

/-! ## The allocator -/

/-- `allocator.alloc` for the rows of the group. -/
def lend (slots : Finset ℕ) : KvState members :=
  { kv with
    held := kv.held ∪ slots
    lent := fun slot => kv.lent slot + if slot ∈ slots then 1 else 0 }

/-- `allocator.free`. -/
def free (slots : Finset ℕ) : Option (KvState members) :=
  if slots ⊆ kv.held then
    some { kv with
      held := kv.held \ slots
      returned := fun slot => kv.returned slot + if slot ∈ slots then 1 else 0 }
  else none

/-! ## The launch half -/

/-- `next_step_is_final`. -/
def nextStepIsFinal : Bool := decide (kv.maxNewTokens ≤ kv.numGenerated + 1)

/-- `_spawn_member_rows`. -/
def spawnMemberRows : KvState members :=
  { kv with
    reqToToken := aliasMembersPromptKv kv.reqToToken rows kv.leaderRow kv.promptLen
    memberRows := some rows }

/-- `select_leader_prefill`: a final prefill step spawns no rows. -/
def selectLeaderPrefill : KvState members :=
  if kv.state ≠ .decoding ∨ 0 < kv.numGenerated then kv
  else
    let selected := { kv with numGenerated := kv.numGenerated + 1 }
    if kv.nextStepIsFinal then selected else selected.spawnMemberRows rows

/-- `alloc_for_decode` over the given rows: one new slot for each, written at the allocated
length. -/
def allocForDecode {count : ℕ} (kv : KvState members) (rows : Fin count → ℕ)
    (fresh : Fin count → ℕ) : KvState members :=
  { kv with
    kvAllocatedLen := kv.kvAllocatedLen + 1
    kvCommittedLen := kv.kvCommittedLen + 1
    reqToToken := writeRows kv.reqToToken rows fun index cells =>
      Function.update cells kv.kvAllocatedLen (fresh index) }.lend (Finset.univ.image fresh)

/-- `prepare_for_decode`: the batch holds the member rows if there are any. A finished
request is in no batch. -/
def prepareForDecode (fresh : Fin (members + 1) → ℕ) : KvState members :=
  if kv.released then kv
  else match kv.memberRows with
    | none => kv.allocForDecode (fun _ : Fin 1 => kv.leaderRow) fun _ => fresh 0
    | some rows => kv.allocForDecode (kv.allRows rows) fresh

/-- `_apply_survivors`: move the rows onto their parents and stage what is left behind. -/
def applySurvivors
    (parentIdx : Fin (members + 1) → Fin (members + 1)) (tick : ℕ) : KvState members :=
  let oldMapping := readWindow kv.reqToToken (kv.allRows rows) kv.promptLen kv.kvCommittedLen
  let newMapping : Mapping members := fun index => oldMapping (parentIdx index)
  { kv with
    reqToToken := writeWindow kv.reqToToken (kv.allRows rows) kv.promptLen kv.kvCommittedLen
      newMapping
    pendingOrphans := kv.pendingOrphans ++ [⟨tick, oldMapping, newMapping⟩] }

/-- `select_and_relay_decode`: a final step moves no row. -/
def selectAndRelayDecode (tick : ℕ)
    (parentIdx : Fin (members + 1) → Fin (members + 1)) : KvState members :=
  match kv.memberRows with
  | none => kv
  | some rows =>
    if kv.retired = true ∨ kv.state ≠ .decoding then kv
    else
      let selected := { kv with numGenerated := kv.numGenerated + 1 }
      if kv.nextStepIsFinal then selected else selected.applySurvivors rows parentIdx tick

/-! ## The deferred half -/

/-- Free the orphans of the staged entries and count them. -/
def freeStaged (kv : KvState members) : List (StagedOrphans members) → Option (KvState members)
  | [] => some kv
  | entry :: staged =>
    let orphans := collectOrphanSlots entry.oldMapping entry.newMapping
    (kv.free orphans).bind fun freed =>
      freeStaged { freed with slotsFreed := freed.slotsFreed + orphans.card } staged

/-- `_reclaim_orphans`; no tick drains everything. -/
def reclaimOrphans (upToTick : Option ℕ) : Option (KvState members) :=
  let due (entry : StagedOrphans members) : Bool :=
    upToTick.elim true fun upTo => decide (entry.tick ≤ upTo)
  { kv with pendingOrphans := kv.pendingOrphans.filter fun entry => !due entry }.freeStaged
    (kv.pendingOrphans.filter due)

/-- `free_member_rows`: free the decode region once and rewind the leader. -/
def freeMemberRows : Option (KvState members) :=
  match kv.memberRows with
  | none => some kv
  | some rows =>
    if kv.promptLen < kv.kvAllocatedLen then
      (kv.free (slotsOf (readWindow kv.reqToToken (kv.allRows rows) kv.promptLen
        kv.kvAllocatedLen))).map fun freed =>
          { freed with
            kvCommittedLen := kv.promptLen
            kvAllocatedLen := kv.promptLen
            memberRows := none }
    else some { kv with memberRows := none }

/-- `retire_group`. -/
def retireGroup : Option (KvState members) :=
  if kv.retired then some kv
  else (kv.reclaimOrphans none).map fun reclaimed => { reclaimed with retired := true }

/-- The leader's own release frees its row up to the committed length; the decode part of
that is what concerns the group. -/
def releaseLeader : Option (KvState members) :=
  (kv.free (kv.leaderSlots kv.kvCommittedLen)).map fun freed => { freed with released := true }

/-- `_finish_group` and `_abort_group`, then the release of the leader's request. -/
def endGroup : Option (KvState members) := do
  let reclaimed ← { kv with state := .finished }.reclaimOrphans none
  let freed ← reclaimed.freeMemberRows
  let retired ← freed.retireGroup
  retired.releaseLeader

/-- `commit_prefill`; `finishes` is what `commit_pending` returns. -/
def commitPrefill (tick : ℕ) (toFinish finishes : Bool) : Option (KvState members) :=
  if kv.retired then some kv
  else if toFinish then kv.endGroup
  else (kv.reclaimOrphans (some tick)).bind fun reclaimed =>
    if finishes then reclaimed.endGroup else some reclaimed

/-- `commit_decode`; `finishes` is what `commit_pending` returns. -/
def commitDecode (tick : ℕ) (toFinish finishes : Bool) : Option (KvState members) :=
  if kv.retired then some kv
  else (kv.reclaimOrphans (some tick)).bind fun reclaimed =>
    if toFinish then reclaimed.endGroup
    else if finishes then reclaimed.endGroup
    else some reclaimed

/-- The abort of a group when the pool is full: the rows are freed, the leader releases its
own, and retiring the group drains the staged orphans. -/
def retractDecode : Option (KvState members) :=
  if kv.released then some kv
  else do
    let freed ← kv.freeMemberRows
    let released ← freed.releaseLeader
    { released with state := .finished }.retireGroup

/-! ## Runs -/

/-- What happens to a group's slots. -/
inductive KvEvent (members : ℕ) where
  | selectLeaderPrefill (rows : Fin members → ℕ)
  | prepareForDecode (fresh : Fin (members + 1) → ℕ)
  | selectAndRelayDecode (tick : ℕ) (parentIdx : Fin (members + 1) → Fin (members + 1))
  | commitPrefill (tick : ℕ) (toFinish finishes : Bool)
  | commitDecode (tick : ℕ) (toFinish finishes : Bool)
  | retractDecode

/-- One event. -/
def perform : KvEvent members → Option (KvState members)
  | .selectLeaderPrefill rows => some (kv.selectLeaderPrefill rows)
  | .prepareForDecode fresh => some (kv.prepareForDecode fresh)
  | .selectAndRelayDecode tick parentIdx => some (kv.selectAndRelayDecode tick parentIdx)
  | .commitPrefill tick toFinish finishes => kv.commitPrefill tick toFinish finishes
  | .commitDecode tick toFinish finishes => kv.commitDecode tick toFinish finishes
  | .retractDecode => kv.retractDecode

/-- What the pools and the scheduler guarantee: spawned rows are new and distinct, the
slots handed out are distinct and not in use, and a request decodes after its prefill. -/
def Allowed : KvEvent members → Prop
  | .selectLeaderPrefill rows => Function.Injective (kv.allRows rows)
  | .prepareForDecode fresh =>
    Function.Injective fresh ∧ (∀ index, fresh index ∉ kv.held ∪ kv.promptSlots) ∧
      0 < kv.numGenerated
  | _ => True

/-- An event that is allowed. -/
def Step (event : KvEvent members) (next : KvState members) : Prop :=
  kv.Allowed event ∧ kv.perform event = some next

/-! ## The quantities of the conservation law -/

/-- The decode slots named by the rows of the group. -/
def named : Finset ℕ :=
  match kv.memberRows with
  | none => kv.leaderSlots kv.kvAllocatedLen
  | some rows => slotsOf (readWindow kv.reqToToken (kv.allRows rows) kv.promptLen kv.kvAllocatedLen)

/-- The orphans of a staged entry. -/
def orphansOf (entry : StagedOrphans members) : Finset ℕ :=
  collectOrphanSlots entry.oldMapping entry.newMapping

/-- The number of slots staged as orphans and not freed yet. -/
def numStaged : ℕ := (kv.pendingOrphans.map fun entry => (orphansOf entry).card).sum

end KvState

end AvaServe.BeamSearch
