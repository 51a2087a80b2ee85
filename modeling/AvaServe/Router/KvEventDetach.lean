import AvaServe.Router.KvEventIndex

/-!
# Detaching a worker from the KV-event index

What the tree and the cursors hold of a worker is always accounted for: the worker
is recorded as attached, or a lifecycle call that is under way will record or clear
it. This needs two things of a run: when `remove_worker` clears a rank the pump is
not between its liveness test and the end of an event of that rank, and when
`add_worker` replaces an entry it covers the ranks of the old one.
-/

namespace AvaServe.Router

open Foundation Function List

/-- The worker whose event the pump handles past its liveness test. -/
def PumpPhase.holds : PumpPhase → Option KvWorkerId
  | .idle => none
  | .received _ => none
  | .passed message => some message.event.worker
  | .applying _ worker _ _ => some worker

variable {call : Call} {worker : KvWorkerId}

namespace Call

/-- The URL a call is for. -/
def url : Call → String
  | .addMark url _ | .addRecord url _ | .addSubscribe url _ => url
  | .removeMark url _ | .removeDrain url _ | .removeJoin url _ _ => url
  | .removeLock url _ | .removeClear url _ => url

/-- A call of `add_worker`. -/
def isAdd : Call → Bool
  | .addMark _ _ | .addRecord _ _ | .addSubscribe _ _ => true
  | _ => false

/-- A call of `add_worker` that has yet to record its entry. -/
def records : Call → Bool
  | .addMark _ _ | .addRecord _ _ => true
  | _ => false

/-- The call will record the worker, or clear it. -/
def owes (call : Call) (worker : KvWorkerId) : Prop :=
  match call with
  | .addMark _ _ | .addSubscribe _ _ => False
  | .addRecord url ranks | .removeMark url ranks | .removeDrain url ranks
  | .removeJoin url ranks _ | .removeLock url ranks | .removeClear url ranks =>
    worker.url = url ∧ worker.dpRank ∈ ranks

/-- The call will record the worker, or mark it dead. -/
def marks (call : Call) (worker : KvWorkerId) : Prop :=
  match call with
  | .addRecord url ranks | .removeMark url ranks => worker.url = url ∧ worker.dpRank ∈ ranks
  | _ => False

/-- A call owes what it marked. -/
theorem owes_of_marks (marked : call.marks worker) : call.owes worker := by
  cases call <;> first | exact marked | exact marked.elim

end Call

namespace TreeState

/-- Some node lists the worker. -/
def Lists (tree : TreeState) (worker : KvWorkerId) : Prop :=
  ∃ id ∈ tree.nodes, worker ∈ (tree.node id).workers

variable {tree : TreeState}

/-- With nothing at the root, listing a worker is holding some hash for it. -/
theorem lists_iff (root : (tree.node rootId).workers = ∅) (worker : KvWorkerId) :
    tree.Lists worker ↔ ∃ h, tree.Holds worker h := by
  constructor
  · rintro ⟨id, inside, lists⟩
    refine ⟨_, id, inside, ?_, rfl, lists⟩
    rintro rfl
    rw [root] at lists
    cases lists
  · rintro ⟨h, id, inside, -, -, lists⟩
    exact ⟨id, inside, lists⟩

/-- The events of a worker list no other worker anew. -/
theorem lists_of_apply (wf : WellFormed tree) (root : (tree.node rootId).workers = ∅)
    (order : Order) (now : ℕ) (worker : KvWorkerId) (event : KvCacheEvent) {w : KvWorkerId}
    (lists : (tree.apply (event.call order now worker)).Lists w) : tree.Lists w ∨ w = worker := by
  rw [lists_iff ((apply_rootWorkers wf order now worker event).trans root)] at lists
  obtain ⟨h, holds⟩ := lists
  rw [lists_iff root]
  cases event with
  | blockStored parentBlockHash blockHashes =>
    rw [KvCacheEvent.call, apply, (insert_spec wf order now worker _ _).2] at holds
    exact holds.imp (fun old => ⟨h, old⟩) And.left
  | blockRemoved blockHashes =>
    rw [KvCacheEvent.call, apply, holds_remove_iff wf] at holds
    exact .inl ⟨h, holds.1⟩
  | allBlocksCleared =>
    rw [KvCacheEvent.call, apply, holds_clearWorker_iff wf] at holds
    exact .inl ⟨h, holds.1⟩

/-- Clearing a worker leaves exactly the other workers listed. -/
theorem lists_clearWorker (wf : WellFormed tree) (root : (tree.node rootId).workers = ∅)
    (order : Order) (worker : KvWorkerId) {w : KvWorkerId}
    (lists : (tree.clearWorker order worker).Lists w) : tree.Lists w ∧ w ≠ worker := by
  have rootAfter := (apply_rootWorkers wf order 0 worker .allBlocksCleared).trans root
  obtain ⟨h, holds⟩ := (lists_iff rootAfter w).mp lists
  rw [KvCacheEvent.call, apply, holds_clearWorker_iff wf] at holds
  exact ⟨(lists_iff root w).mpr ⟨h, holds.1⟩, holds.2⟩

end TreeState

namespace IndexState

/-- The tree lists the worker or there is a cursor for it. -/
def Traced (state : IndexState) (worker : KvWorkerId) : Prop :=
  state.tree.Lists worker ∨ state.cursors worker ≠ none

/-- The workers of a url. -/
theorem mem_map_mk {url : String} {ranks : List UInt32} :
    worker ∈ ranks.map (KvWorkerId.mk url) ↔ worker.url = url ∧ worker.dpRank ∈ ranks := by
  rw [mem_map]
  constructor
  · rintro ⟨rank, inside, rfl⟩
    exact ⟨rfl, inside⟩
  · rintro ⟨rfl, inside⟩
    exact ⟨worker.dpRank, inside, rfl⟩

/-- The worker belongs to a recorded entry. -/
def Recorded (state : IndexState) (worker : KvWorkerId) : Prop :=
  ∃ ranks, state.workers worker.url = some ranks ∧ worker.dpRank ∈ ranks

/-- The worker is recorded, or a call under way stands for it. -/
def Backed (state : IndexState) (stands : Call → KvWorkerId → Prop) (worker : KvWorkerId) :
    Prop :=
  state.Recorded worker ∨ ∃ c call, state.calls c = some call ∧ stands call worker

/-- Dropping a cursor gives none to any worker. -/
theorem update_none {Cursor : Type} {cursors : KvWorkerId → Option Cursor} {other : KvWorkerId}
    (absent : cursors other = none) (worker : KvWorkerId) :
    update cursors worker none other = none := by
  rw [update_apply]
  split
  · rfl
  · exact absent

section Backed

variable {state next : IndexState} {stands : Call → KvWorkerId → Prop} {worker : KvWorkerId} {c : ℕ}

/-- A call in flight backs the worker. -/
theorem Backed.of_call (here : state.calls c = some call) (stand : stands call worker) :
    state.Backed stands worker :=
  .inr ⟨c, call, here, stand⟩

variable {later : Option Call}

/-- Where a call of the next state was, when only the call `c` has moved. -/
theorem call_cases {d : ℕ} (calls : next.calls = update state.calls c later)
    (here : next.calls d = some call) :
    d = c ∧ later = some call ∨ d ≠ c ∧ state.calls d = some call := by
  rw [calls] at here
  by_cases same : d = c
  · subst same
    exact .inl ⟨rfl, by rwa [update_self] at here⟩
  · exact .inr ⟨same, by rwa [update_of_ne same] at here⟩

/-- A call can be put back. -/
theorem calls_undo {old : Option Call} (here : state.calls c = old)
    (calls : next.calls = update state.calls c later) : state.calls = update next.calls c old := by
  rw [calls, update_idem, ← here, update_eq_self]

/-- When one call moves, only what it stood for and the entries need a new backing. -/
theorem Backed.move {old : Option Call} (backed : state.Backed stands worker)
    (here : state.calls c = old) (calls : next.calls = update state.calls c later)
    (entry : state.Recorded worker → next.Backed stands worker)
    (own : ∀ call, old = some call → stands call worker → next.Backed stands worker) :
    next.Backed stands worker := by
  rcases backed with recorded | ⟨other, call, found, stand⟩
  · exact entry recorded
  · rcases call_cases (calls_undo here calls) found with ⟨-, isOld⟩ | ⟨-, found⟩
    · exact own call isOld stand
    · exact .of_call found stand

/-- A call that stood for nothing is not missed. -/
theorem Backed.drop {old : Call} (backed : state.Backed stands worker)
    (here : state.calls c = some old) (calls : next.calls = update state.calls c later)
    (workers : next.workers = state.workers) (nothing : ¬stands old worker) :
    next.Backed stands worker := by
  refine backed.move here calls (fun recorded => .inl ?_) ?_
  · rwa [Recorded, workers]
  · rintro _ ⟨⟩ stand
    exact absurd stand nothing

/-- Backing reads calls and workers. -/
theorem Backed.frame (backed : state.Backed stands worker) (calls : next.calls = state.calls)
    (workers : next.workers = state.workers) : next.Backed stands worker := by
  unfold Backed Recorded
  rwa [calls, workers]

end Backed

/-- The call that was set. -/
theorem setCall_calls_self (state : IndexState) (c : ℕ) (call : Option Call) :
    (state.setCall c call).calls c = call :=
  update_self ..

variable {state next : IndexState} {c : ℕ} {url : String} {ranks : List UInt32}
  {action : IndexAction} {worker : KvWorkerId} {call : Call}

/-- Everything known of a worker is accounted for. -/
structure Accounted (state : IndexState) : Prop where
  wellFormed : state.tree.WellFormed
  root : (state.tree.node rootId).workers = ∅
  live : ∀ worker ∈ state.live, state.Backed Call.marks worker
  traced : ∀ worker, state.Traced worker ∨ state.pump.holds = some worker →
    state.Backed Call.owes worker

/-- A new index is accounted for. -/
theorem accounted_new (now : ℕ) (maintainTree : Bool) :
    Accounted (IndexState.new now maintainTree) where
  wellFormed := TreeState.wellFormed_new now
  root := rfl
  live := nofun
  traced := by
    rintro worker ((⟨id, -, lists⟩ | cursor) | holds)
    · cases lists
    · exact absurd rfl cursor
    · cases holds

/-- When `remove_worker` clears a rank, the pump is not past its liveness test with an
event of that rank. -/
def ClearsAtRest (state : IndexState) (action : IndexAction) : Prop :=
  ∀ c url rank ranks, action = .lifecycle c →
    state.calls c = some (.removeClear url (rank :: ranks)) →
    state.pump.holds ≠ some ⟨url, rank⟩

/-- When `add_worker` replaces an entry, it covers the ranks of the old one. -/
def CoversRanks (state : IndexState) (action : IndexAction) : Prop :=
  ∀ c url ranks old, action = .lifecycle c → state.calls c = some (.addRecord url ranks) →
    state.workers url = some old → old ⊆ ranks

/-- A step that leaves the tree, the cursors and the pump alone and backs what was
backed. -/
theorem Accounted.transfer (accounted : Accounted state) (tree : next.tree = state.tree)
    (cursors : next.cursors = state.cursors) (pump : next.pump = state.pump)
    (live : ∀ worker ∈ next.live, next.Backed Call.marks worker)
    (owed : ∀ worker, state.Backed Call.owes worker → next.Backed Call.owes worker) :
    Accounted next where
  wellFormed := tree ▸ accounted.wellFormed
  root := by rw [tree, accounted.root]
  live := live
  traced := fun worker known => by
    rw [Traced, tree, cursors, pump] at known
    exact owed worker (accounted.traced worker known)

/-- A step that leaves the lifecycle calls, the entries and the live set alone. -/
theorem Accounted.frame (accounted : Accounted state) (calls : next.calls = state.calls)
    (workers : next.workers = state.workers) (live : next.live = state.live)
    (wellFormed : next.tree.WellFormed) (root : (next.tree.node rootId).workers = ∅)
    (traced : ∀ worker, next.Traced worker ∨ next.pump.holds = some worker → (state.Traced worker ∨
      state.pump.holds = some worker) ∨ worker ∈ state.live) : Accounted next where
  wellFormed := wellFormed
  root := root
  live := fun worker member => (accounted.live worker (live ▸ member)).frame calls workers
  traced := fun worker known => by
    rcases traced worker known with old | marked
    · exact (accounted.traced worker old).frame calls workers
    · rcases accounted.live worker marked with recorded | ⟨c, call, here, stand⟩
      · exact Backed.frame (.inl recorded) calls workers
      · exact Backed.frame (.of_call here (Call.owes_of_marks stand)) calls workers

/-- Subscriptions change handles and tasks only. -/
theorem exists_subscribe_eq (state : IndexState) (ids : List KvWorkerId) :
    ∃ handles running nextTask, ids.foldl subscribe state =
      { state with handles := handles, running := running, nextTask := nextTask } := by
  induction ids generalizing state with
  | nil => exact ⟨_, _, _, rfl⟩
  | cons id ids ih =>
    obtain ⟨handles, running, nextTask, same⟩ := ih (state.subscribe id)
    rw [foldl_cons, same]
    unfold subscribe
    split <;> exact ⟨_, _, _, rfl⟩

/-- So does the end of an add, and its call. -/
theorem exists_addSubscribe_eq (state : IndexState) (c : ℕ) (url : String) (ranks : List UInt32) :
    ∃ handles running nextTask, state.addSubscribe c url ranks = { state with
        handles := handles
        running := running
        nextTask := nextTask
        calls := update state.calls c none } := by
  obtain ⟨handles, running, nextTask, same⟩ :=
    exists_subscribe_eq state (ranks.map (KvWorkerId.mk url))
  exact ⟨handles, running, nextTask, by rw [addSubscribe, same]; rfl⟩

/-- The start of an add sets the block size and its call. -/
theorem exists_beginAdd_eq (state : IndexState) (c : ℕ) (url : String)
    (cfg : Option EventConfig) :
    ∃ blockSize calls,
      state.beginAdd c url cfg = { state with blockSize := blockSize, calls := calls } ∧
      (calls = state.calls ∨
        ∃ ranks, calls = update state.calls c (some (.addMark url ranks))) := by
  unfold beginAdd
  split
  next => exact ⟨_, _, rfl, .inl rfl⟩
  next =>
    split
    next => exact ⟨_, _, rfl, .inl rfl⟩
    next =>
      dsimp only
      split
      next => exact ⟨_, _, rfl, .inl rfl⟩
      next => exact ⟨_, _, rfl, .inr ⟨_, rfl⟩⟩

section

variable (accounted : Accounted state)
include accounted

/-- It keeps the account. -/
theorem Accounted.beginAdd (free : state.calls c = none)
    (url : String) (cfg : Option EventConfig) : Accounted (state.beginAdd c url cfg) := by
  obtain ⟨blockSize, calls, same, rfl | ⟨ranks, rfl⟩⟩ := exists_beginAdd_eq state c url cfg
  · rw [same]
    exact accounted.frame rfl rfl rfl accounted.wellFormed accounted.root fun _ => .inl
  · rw [same]
    exact accounted.transfer rfl rfl rfl
      (fun worker member => (accounted.live worker member).move free rfl .inl nofun)
      fun worker backed => backed.move free rfl .inl nofun

/-- So does marking. -/
theorem Accounted.addMark
    (call : state.calls c = some (.addMark url ranks)) : Accounted (state.addMark c url ranks) := by
  refine accounted.transfer rfl rfl rfl (fun worker member => ?_)
    fun worker backed => backed.drop call rfl rfl id
  rcases Finset.mem_union.mp member with old | new
  · exact (accounted.live worker old).drop call rfl rfl id
  · exact .of_call (setCall_calls_self ..) (mem_map_mk.mp (mem_toFinset.mp new))

/-- So does recording. -/
theorem Accounted.addRecord (call : state.calls c = some (.addRecord url ranks))
    (covers : ∀ old, state.workers url = some old → old ⊆ ranks) :
    Accounted (state.addRecord c url ranks) := by
  have here : (state.addRecord c url ranks).workers url = some ranks := update_self ..
  have moves : ∀ {stands : Call → KvWorkerId → Prop} {worker : KvWorkerId},
      (stands (.addRecord url ranks) worker → worker.url = url ∧ worker.dpRank ∈ ranks) →
        state.Backed stands worker → (state.addRecord c url ranks).Backed stands worker := by
    intro stands worker names backed
    refine backed.move call rfl ?_ ?_
    · rintro ⟨old, entry, inside⟩
      by_cases same : worker.url = url
      · rw [same] at entry
        exact .inl ⟨ranks, by rw [same, here], covers old entry inside⟩
      · refine .inl ⟨old, ?_, inside⟩
        rw [← entry]
        exact update_of_ne same _ _
    · rintro _ ⟨⟩ stand
      obtain ⟨same, inside⟩ := names stand
      exact .inl ⟨ranks, by rw [same, here], inside⟩
  exact accounted.transfer rfl rfl rfl
    (fun worker member => moves id (accounted.live worker member))
    fun worker => moves id

/-- So does subscribing. -/
theorem Accounted.addSubscribe (call : state.calls c = some (.addSubscribe url ranks)) :
    Accounted (state.addSubscribe c url ranks) := by
  obtain ⟨_, _, _, same⟩ := exists_addSubscribe_eq state c url ranks
  rw [same]
  exact accounted.transfer rfl rfl rfl
    (fun worker member => (accounted.live worker member).drop call rfl rfl id)
    fun worker backed => backed.drop call rfl rfl id

/-- So does the start of a removal. -/
theorem Accounted.beginRemove (free : state.calls c = none)
    (url : String) : Accounted (state.beginRemove c url) := by
  unfold IndexState.beginRemove
  split
  next => exact accounted
  next ranks entry =>
    set next := { state with workers := update state.workers url none }.setCall c
      (some (.removeMark url ranks)) with isNext
    have here : next.calls c = some (.removeMark url ranks) := setCall_calls_self ..
    have moves : ∀ {stands : Call → KvWorkerId → Prop} {worker : KvWorkerId},
        (worker.url = url ∧ worker.dpRank ∈ ranks → stands (.removeMark url ranks) worker) →
        state.Backed stands worker → next.Backed stands worker := by
      intro stands worker stand backed
      refine backed.move free rfl ?_ nofun
      rintro ⟨old, recorded, inside⟩
      by_cases same : worker.url = url
      · rw [same, entry, Option.some.injEq] at recorded
        subst recorded
        exact .of_call here (stand ⟨same, inside⟩)
      · refine .inl ⟨old, ?_, inside⟩
        rw [← recorded]
        exact update_of_ne same _ _
    exact accounted.transfer rfl rfl rfl
      (fun worker member => moves id (accounted.live worker member)) fun worker => moves id

/-- So does unmarking. -/
theorem Accounted.removeMark (call : state.calls c = some (.removeMark url ranks)) :
    Accounted (state.removeMark c url ranks) := by
  have here : (state.removeMark c url ranks).calls c = some (.removeDrain url ranks) :=
    setCall_calls_self ..
  refine accounted.transfer rfl rfl rfl (fun worker member => ?_) fun worker backed => ?_
  · obtain ⟨member, survives⟩ := Finset.mem_sdiff.mp member
    exact (accounted.live worker member).drop call rfl rfl fun stand =>
      survives (mem_toFinset.mpr (mem_map_mk.mpr stand))
  · refine backed.move call rfl .inl ?_
    rintro _ ⟨⟩ stand
    exact .of_call here stand

/-- The steps of `remove_worker` that only move on, with the same ids to clear. -/
theorem Accounted.removeMoves {old later : Call} (call : state.calls c = some old)
    (calls : next.calls = update state.calls c (some later))
    (same : ∀ worker, old.owes worker → later.owes worker) (unmarked : ∀ worker, ¬old.marks worker)
    (tree : next.tree = state.tree) (cursors : next.cursors = state.cursors)
    (pump : next.pump = state.pump) (live : next.live = state.live)
    (workers : next.workers = state.workers) : Accounted next := by
  refine accounted.transfer tree cursors pump (fun worker member => ?_) fun worker backed => ?_
  · exact (accounted.live worker (live ▸ member)).drop call calls workers (unmarked worker)
  · refine backed.move call calls (fun recorded => .inl ?_) ?_
    · rwa [Recorded, workers]
    · rintro _ ⟨⟩ stand
      exact .of_call (c := c) (by rw [calls, update_self]) (same worker stand)

/-- So does clearing a rank. -/
theorem Accounted.removeClear {rank : UInt32}
    (call : state.calls c = some (.removeClear url (rank :: ranks))) (order : Order)
    (rest : state.pump.holds ≠ some ⟨url, rank⟩) :
    Accounted (state.removeClear c order url rank ranks) where
  wellFormed := (TreeState.clearWorker_spec accounted.wellFormed order ⟨url, rank⟩).1
  root := (TreeState.apply_rootWorkers accounted.wellFormed order 0
      ⟨url, rank⟩ .allBlocksCleared).trans
    accounted.root
  live := fun worker member => (accounted.live worker member).drop call rfl rfl id
  traced := fun worker known => by
    have before : (state.Traced worker ∨ state.pump.holds = some worker) ∧
      worker ≠ ⟨url, rank⟩ := by
      rcases known with (lists | cursor) | holds
      · obtain ⟨lists, different⟩ :=
          TreeState.lists_clearWorker accounted.wellFormed accounted.root order _ lists
        exact ⟨.inl (.inl lists), different⟩
      · by_cases same : worker = ⟨url, rank⟩
        · subst same
          exact absurd (update_self ..) cursor
        · refine ⟨.inl (.inr fun none => cursor ?_), same⟩
          exact (update_of_ne same _ _).trans none
      · refine ⟨.inr holds, ?_⟩
        rintro rfl
        exact rest holds
    refine (accounted.traced worker before.1).move call rfl .inl ?_
    rintro _ ⟨⟩ stand
    refine .of_call (setCall_calls_self ..) ⟨stand.1, ?_⟩
    refine (mem_cons.mp stand.2).resolve_left fun same => before.2 ?_
    rw [← stand.1, ← same]

/-- So does the end of the clearing. -/
theorem Accounted.removeUnlock (call : state.calls c = some (.removeClear url [])) :
    Accounted ({ state with cursorsHolder := none }.setCall c none) := by
  exact accounted.transfer rfl rfl rfl
    (fun worker member => (accounted.live worker member).drop call rfl rfl id)
    fun worker backed => backed.drop call rfl rfl fun owed => not_mem_nil owed.2

/-- So does the pump's cursor. -/
theorem Accounted.pumpCursor {message : Message}
    (phase : state.pump = .passed message) : Accounted (state.pumpCursor message) := by
  unfold IndexState.pumpCursor
  split
  next worker event =>
    refine accounted.frame rfl rfl rfl accounted.wellFormed accounted.root ?_
    rintro w ((lists | cursor) | holds)
    · exact .inl (.inl (.inl lists))
    · exact .inl (.inl (.inr fun none => cursor (update_none none worker)))
    · cases holds
  next worker seq events event =>
    refine accounted.frame rfl rfl rfl accounted.wellFormed accounted.root ?_
    rintro w (known | holds)
    · exact .inl (.inl known)
    · split at holds
      · cases holds
      · rw [PumpPhase.holds, Option.some.injEq] at holds
        subst holds
        exact .inl (.inr (by rw [phase, PumpPhase.holds, event, WorkerEvent.worker]))

/-- Every step of a run that clears at rest and covers the old ranks keeps everything
accounted for. -/
theorem Accounted.step (step : Step state action next)
    (rest : ClearsAtRest state action) (covers : CoversRanks state action) : Accounted next := by
  cases step with
  | beginAdd free url cfg => exact accounted.beginAdd free url cfg
  | addMark call => exact accounted.addMark call
  | addRecord call => exact accounted.addRecord call fun old => covers _ _ _ old rfl call
  | addSubscribe call => exact accounted.addSubscribe call
  | beginRemove free url => exact accounted.beginRemove free url
  | removeMark call => exact accounted.removeMark call
  | removeDrain call | removeJoin call | removeLock call =>
    exact accounted.removeMoves call rfl (fun _ owed => owed) (fun _ => id) rfl rfl rfl rfl rfl
  | removeClear call order => exact accounted.removeClear call order (rest _ _ _ _ rfl call)
  | removeUnlock call => exact accounted.removeUnlock call
  | send | exit =>
    exact accounted.frame rfl rfl rfl accounted.wellFormed accounted.root fun _ => .inl
  | receive =>
    refine accounted.frame rfl rfl rfl accounted.wellFormed accounted.root ?_
    rintro worker (known | holds)
    · exact .inl (.inl known)
    · cases holds
  | @pumpCheck message phase =>
    refine accounted.frame rfl rfl rfl accounted.wellFormed accounted.root ?_
    rintro worker (known | holds)
    · exact .inl (.inl known)
    · simp only [pumpCheck] at holds
      split at holds
      next alive =>
        rw [PumpPhase.holds, Option.some.injEq] at holds
        exact .inr (holds ▸ alive)
      next => cases holds
  | pumpCursor phase => exact accounted.pumpCursor phase
  | @pumpApply task worker seq event events phase order now =>
    refine accounted.frame rfl rfl rfl (TreeState.apply_wellFormed accounted.wellFormed _)
      ((TreeState.apply_rootWorkers accounted.wellFormed order now worker event).trans
        accounted.root) ?_
    rintro w ((lists | cursor) | holds)
    · rcases TreeState.lists_of_apply accounted.wellFormed accounted.root order now worker event
        lists with old | rfl
      · exact .inl (.inl (.inl old))
      · exact .inl (.inr (by rw [phase]; rfl))
    · exact .inl (.inl (.inr cursor))
    · exact .inl (.inr (by rw [phase]; exact holds))
  | @pumpAdvance task worker seq phase =>
    refine accounted.frame rfl rfl rfl accounted.wellFormed accounted.root ?_
    rintro w ((lists | cursor) | holds)
    · exact .inl (.inl (.inl lists))
    · by_cases same : w = worker
      · subst same
        exact .inl (.inr (by rw [phase]; rfl))
      · refine .inl (.inl (.inr fun none => cursor ?_))
        exact (update_of_ne same _ _).trans none
    · cases holds

end

/-- Where the calls of the next state come from: they were there, moved on from an
earlier phase, or have just started. -/
theorem Step.call_origin (step : Step state action next) (here : next.calls c = some call) :
    (∃ old, state.calls c = some old ∧ old.url = call.url ∧
        (call.records = true → old.records = true)) ∨
      (∃ cfg, action = .beginAdd c call.url cfg) ∨
      (action = .beginRemove c call.url ∧ call.records = false) := by
  have moved : ∀ {d : ℕ} {old later : Call}, state.calls d = some old →
      next.calls = update state.calls d (some later) → old.url = later.url →
      (later.records = true → old.records = true) → ∃ old, state.calls c = some old ∧
        old.url = call.url ∧ (call.records = true → old.records = true) := by
    intro d old later found calls url kind
    rcases call_cases calls here with ⟨rfl, ⟨⟩⟩ | ⟨-, here⟩
    · exact ⟨old, found, url, kind⟩
    · exact ⟨call, here, rfl, id⟩
  have ended : ∀ {d : ℕ}, next.calls = update state.calls d none → state.calls c = some call := by
    intro d calls
    rcases call_cases calls here with ⟨-, ⟨⟩⟩ | ⟨-, here⟩
    exact here
  cases step with
  | @beginAdd d free url cfg =>
    obtain ⟨_, _, same, rfl | ⟨ranks, rfl⟩⟩ := exists_beginAdd_eq state d url cfg
    · rw [same] at here
      exact .inl ⟨call, here, rfl, id⟩
    · rcases call_cases (by rw [same]) here with ⟨rfl, ⟨⟩⟩ | ⟨-, here⟩
      · exact .inr (.inl ⟨cfg, rfl⟩)
      · exact .inl ⟨call, here, rfl, id⟩
  | @beginRemove d free url =>
    unfold IndexState.beginRemove at here
    split at here
    next => exact .inl ⟨call, here, rfl, id⟩
    next ranks entry =>
      rcases call_cases rfl here with ⟨rfl, ⟨⟩⟩ | ⟨-, here⟩
      · exact .inr (.inr ⟨rfl, rfl⟩)
      · exact .inl ⟨call, here, rfl, id⟩
  | addMark old | addRecord old | removeMark old | removeDrain old | removeJoin old
  | removeLock old | removeClear old =>
    exact .inl (moved old rfl rfl (by simp [Call.records]))
  | @addSubscribe d url ranks old =>
    obtain ⟨_, _, _, same⟩ := exists_addSubscribe_eq state d url ranks
    exact .inl ⟨call, ended (by rw [same]), rfl, id⟩
  | removeUnlock old => exact .inl ⟨call, ended rfl, rfl, id⟩
  | send | exit | receive | pumpCheck | pumpApply | pumpAdvance => exact .inl ⟨call, here, rfl, id⟩
  | @pumpCursor message =>
    have same : (state.pumpCursor message).calls = state.calls := by
      unfold IndexState.pumpCursor
      split <;> rfl
    exact .inl ⟨call, same ▸ here, rfl, id⟩

/-- An entry is recorded by an `add_worker` of its URL only. -/
theorem Step.workers_origin (step : Step state action next) (absent : state.workers url = none) :
    next.workers url = none ∨ ∃ c ranks, state.calls c = some (.addRecord url ranks) := by
  cases step with
  | @beginAdd c free _ cfg =>
    obtain ⟨_, _, same, -⟩ := exists_beginAdd_eq state c _ cfg
    rw [same]
    exact .inl absent
  | @addRecord c other ranks call =>
    by_cases same : url = other
    · subst same
      exact .inr ⟨c, ranks, call⟩
    · exact .inl ((update_of_ne same _ _).trans absent)
  | @addSubscribe c other ranks =>
    obtain ⟨_, _, _, same⟩ := exists_addSubscribe_eq state c other ranks
    rw [same]
    exact .inl absent
  | @beginRemove c free other =>
    unfold IndexState.beginRemove
    split
    next => exact .inl absent
    next =>
      by_cases same : url = other
      · subst same
        exact .inl (update_self ..)
      · exact .inl ((update_of_ne same _ _).trans absent)
  | addMark | removeMark | removeDrain | removeJoin | removeLock | removeClear | removeUnlock
  | send | exit | receive | pumpCheck | pumpApply | pumpAdvance => exact .inl absent
  | @pumpCursor message =>
    unfold IndexState.pumpCursor
    split <;> exact .inl absent

/-- A URL without an entry and without an `add_worker` that is yet to record one. -/
structure Detached (state : IndexState) (url : String) : Prop where
  entry : state.workers url = none
  calls : ∀ c call, state.calls c = some call → call.url = url → call.records = false

/-- A detached url stays so without an add. -/
theorem Detached.step (detached : Detached state url) (step : Step state action next)
    (noAdd : ∀ c cfg, action ≠ .beginAdd c url cfg) : Detached next url where
  entry := by
    rcases step.workers_origin detached.entry with none | ⟨c, ranks, call⟩
    · exact none
    · exact absurd (detached.calls c _ call rfl) (by simp [Call.records])
  calls := by
    rintro c call here rfl
    rcases step.call_origin here with ⟨old, found, same, kind⟩ | ⟨cfg, started⟩ | ⟨-, kind⟩
    · rw [← Bool.not_eq_true]
      exact fun records => by simpa [kind records] using detached.calls c old found same
    · exact absurd started (noAdd c cfg)
    · exact kind

/-- A call owes workers of its url. -/
theorem Call.owes_url (owed : call.owes worker) : worker.url = call.url := by
  cases call <;> first | exact owed.1 | exact owed.elim

/-- A detached URL is without a trace once none of its removals is under way. -/
theorem Detached.untraced (detached : Detached state url) (accounted : Accounted state)
    (returned : ∀ c call, state.calls c = some call → call.url = url → call.isAdd = true)
    (rank : UInt32) : ¬state.Traced ⟨url, rank⟩ := by
  intro traced
  rcases accounted.traced _ (.inl traced) with ⟨ranks, entry, -⟩ | ⟨c, call, here, owed⟩
  · rw [detached.entry] at entry
    cases entry
  · have own := (Call.owes_url owed).symm
    have added := returned c call here own
    have recorded := detached.calls c call here own
    cases call with
    | addMark | addSubscribe => exact owed
    | addRecord => cases recorded
    | removeMark | removeDrain | removeJoin | removeLock | removeClear => cases added

/-- A removal detaches the url. -/
theorem detached_beginRemove (c : ℕ)
    (noAdd : ∀ c call, state.calls c = some call → call.url = url → call.records = false) :
    Detached (state.beginRemove c url) url := by
  unfold IndexState.beginRemove
  split
  next entry => exact ⟨entry, noAdd⟩
  next ranks entry =>
    refine ⟨update_self .., fun d call here same => ?_⟩
    rcases call_cases rfl here with ⟨-, ⟨⟩⟩ | ⟨-, here⟩
    · rfl
    · exact noAdd d call here same

end IndexState

end AvaServe.Router
