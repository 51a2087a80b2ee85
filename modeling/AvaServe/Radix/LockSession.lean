import AvaServe.Radix.Accounting

/-!
# Sessions of inserts, matches, locks and evictions

The users of a radix cache hold locks on nodes of its tree. A session is the cache
together with the nodes at which a lock is outstanding. Every call that the users may
make returns, and after any sequence of them the lock counts, the two sizes and the set
of evictable leaves are those of the tree, so that an eviction frees what it promises.
-/

namespace AvaServe.Radix

open Foundation RadixCache List

/-- A cache and the nodes at which locks are outstanding. -/
structure LockSession where
  cache : RadixCache
  holders : List ℕ

/-- A call of a user of the cache; `leaves` is the order in which the set of evictable
leaves is listed. -/
inductive SessionCall
  | insert (clock : Clock) (params : InsertParams)
  | matchPrefix (clock : Clock) (key : RadixKey)
  | incLockRef (node : ℕ)
  | decLockRef (node : ℕ)
  | evict (numTokens : ℤ) (leaves : List ℕ)

namespace LockSession

/-- What the users keep to: an insert has an index for every position, locks are taken
at nodes of the tree, and a lock is released once. -/
def Permitted (session : LockSession) : SessionCall → Prop
  | .insert _ params => params.Valued session.cache.isEagle session.cache.pageSize
  | .matchPrefix _ _ => True
  | .incLockRef node => node ∈ session.cache.nodes
  | .decLockRef node => node ∈ session.holders
  | .evict _ leaves => leaves.Nodup ∧ leaves.toFinset = session.cache.evictableLeaves

/-- The session after a call; `none` when the call raises. -/
def exec (session : LockSession) : SessionCall → Option LockSession
  | .insert clock params =>
    (session.cache.insert clock params).toOption.map fun r => ⟨r.1, session.holders⟩
  | .matchPrefix clock key =>
    (session.cache.matchPrefix clock key).toOption.map fun r => ⟨r.1, session.holders⟩
  | .incLockRef node => (session.cache.incLockRef node).map fun r => ⟨r.1, node :: session.holders⟩
  | .decLockRef node =>
    (session.cache.decLockRef node).map fun r => ⟨r.1, session.holders.erase node⟩
  | .evict numTokens leaves =>
    (session.cache.evict numTokens leaves).map fun r => ⟨r.1, session.holders⟩

/-- A call that is permitted. -/
def Step (session : LockSession) (call : SessionCall) (next : LockSession) : Prop :=
  session.Permitted call ∧ session.exec call = some next

/-- The tree is well formed, the numbers are those of the tree, and a disabled cache
stays empty. -/
structure Sound (session : LockSession) (full : ℕ → List KeyUnit) (vals : ℕ → List ℕ) : Prop where
  wellFormed : WellFormed session.cache full vals
  accounts : Accounts session.cache
  locks : LocksMatch session.cache session.holders
  disabled : session.cache.disable = true → session.cache.nodes = {session.cache.rootNode}

end LockSession

namespace RadixCache

variable {cache after : RadixCache} {full : ℕ → List KeyUnit} {vals : ℕ → List ℕ}
variable {holders : List ℕ}

variable (wf : WellFormed cache full vals) (accounts : Accounts cache)
  (locks : LocksMatch cache holders)

section

include wf accounts locks

/-- A lookup keeps the numbers in order. -/
theorem extended_accounts {full' : ℕ → List KeyUnit} {vals' : ℕ → List ℕ}
    (step : Extended cache full vals after full' vals') :
    Accounts after ∧ LocksMatch after holders :=
  move_induction (motive := fun cache => Accounts cache ∧ LocksMatch cache holders) step.moves wf
    (fun _ stamped held => ⟨held.1.stamped stamped, held.2.stamped stamped⟩)
    (fun point clock wf held => ⟨held.1.split wf point clock, held.2.split wf point clock⟩)
    ⟨accounts, locks⟩

/-- An eviction returns and frees unlocked nodes only, as many tokens as asked for or
all that are unlocked. -/
theorem evict_spec (enabled : cache.disable = false) (numTokens : ℤ)
    {leaves : List ℕ} (nodup : leaves.Nodup) (listed : leaves.toFinset = cache.evictableLeaves) :
    ∃ after freed, cache.evict numTokens leaves =
        some (after, ⟨freed, (freed.map fun id => (cache.node id).indices.length).sum⟩) ∧
      EvictedFrom cache after freed ∧ WellFormed after full vals ∧ Accounts after ∧
      LocksMatch after holders ∧
      min numTokens cache.evictableSize ≤
        (freed.map fun id => (cache.node id).indices.length).sum := by
  have heaped : ((BinaryHeap.heapify cache.entryLt (leaves.map cache.heapEntry)).map
      Prod.snd).Perm cache.evictableLeaves.toList := by
    refine ((BinaryHeap.heapify_perm cache.entryLt _).map Prod.snd).trans ?_
    rw [← listed]
    simpa [Function.comp_def, heapEntry] using (toFinset_toList nodup).symm
  obtain ⟨after, freed, ran, evicted, wf', accounts', locks', reached⟩ :=
    evictLoop_spec numTokens ⟨[], 0⟩ wf accounts locks heaped cache.card_nodes_le
  refine ⟨after, freed, ?_, evicted, wf', accounts', locks', ?_⟩
  · rw [evict, enabled]
    simpa using ran
  · have lengths : (freed.map fun id => ((cache.node id).key.len : ℤ)).sum =
        ((freed.map fun id => (cache.node id).indices.length).sum : ℕ) := by
      rw [Nat.cast_list_sum, map_map]
      refine congrArg sum (map_congr_left fun id inside => ?_)
      simp [wf.length_eq id (evicted.free id inside).1]
    obtain enough | spent := reached
    · exact (min_le_left _ _).trans (by simpa using enough)
    · have size := evicted.size
      exact (min_le_right _ _).trans (by omega)

/-- An insert returns and keeps the numbers in order. -/
theorem insert_accounts (enabled : cache.disable = false) (clock : Clock)
    {params : InsertParams} (valued : params.Valued cache.isEagle cache.pageSize) :
    ∃ after result full' vals', cache.insert clock params = .ok (after, result) ∧
      after.disable = false ∧ WellFormed after full' vals' ∧ Accounts after ∧
      LocksMatch after holders := by
  obtain ⟨middle, cursor, full', vals', placed, outcome⟩ :=
    insert_spec wf enabled clock params (length_insertArgs_snd valued)
  obtain ⟨accounts', locks'⟩ := extended_accounts wf accounts locks placed.extended
  have wf' := placed.extended.wellFormed
  have enabled' : middle.disable = false := by
    rw [frame_of_moves placed.extended.moves]
    exact enabled
  obtain ⟨-, returned⟩ | ⟨point, returned⟩ := outcome
  · exact ⟨middle, _, full', vals', returned, enabled', wf', accounts', locks'⟩
  · have inserted := point.inserted clock (params.priority.getD 0) params.chunked
    refine ⟨_, _, _, _, returned, ?_, inserted.wellFormed point wf',
      accounts'.insert inserted point wf', locks'.insert inserted point wf'⟩
    rw [inserted.frame]
    exact enabled'

end

end RadixCache

namespace LockSession

variable {session : LockSession} {full : ℕ → List KeyUnit} {vals : ℕ → List ℕ} (cache : RadixCache)
  (clock : Clock)

/-- A reset cache is sound. -/
theorem sound_reset (positive : 0 < cache.pageSize) :
    Sound ⟨cache.reset clock, []⟩ (fun _ => []) fun _ => [] := by
  have wf := cache.wellFormed_reset clock positive
  have only {id : ℕ} (member : id ∈ (cache.reset clock).nodes) :
      id = (cache.reset clock).rootNode := by
    rwa [nodes_reset, Finset.mem_singleton] at member
  have none : (cache.reset clock).nodes.erase (cache.reset clock).rootNode = ∅ := by
    rw [nodes_reset]
    exact Finset.erase_singleton _
  refine ⟨wf, ⟨fun id member => ?_, ?_, ?_, fun id => ?_⟩, ⟨?_, fun id member notRoot => ?_⟩,
    fun _ => nodes_reset cache clock⟩
  · rw [only member, wf.root_lock]
    exact one_pos.le
  · rw [unlockedSize, none]
    rfl
  · rw [lockedSize, none]
    rfl
  · exact iff_of_false (Finset.notMem_empty _) fun leaf => leaf.2.1 (only leaf.1)
  · exact forall_mem_nil _
  · exact absurd (only member) notRoot

/-- In a disabled cache locks do not count. -/
theorem Sound.of_disabled (sound : Sound session full vals)
    (disabled : session.cache.disable = true) {holders : List ℕ}
    (member : ∀ holder ∈ holders, holder ∈ session.cache.nodes) :
    Sound ⟨session.cache, holders⟩ full vals := by
  refine ⟨sound.wellFormed, sound.accounts, ⟨member, fun id inside notRoot => ?_⟩, sound.disabled⟩
  rw [sound.disabled disabled, Finset.mem_singleton] at inside
  exact absurd inside notRoot

attribute [simp] LockSession.exec

/-- Every permitted call returns and leaves a sound session. -/
theorem Sound.exec (sound : Sound session full vals) {call : SessionCall}
    (permitted : session.Permitted call) :
    ∃ next full' vals', session.exec call = some next ∧ Sound next full' vals' := by
  obtain ⟨wf, accounts, locks, empty⟩ := id sound
  cases disabled : session.cache.disable with
  | true =>
    cases call with
    | insert clock params =>
      refine ⟨session, full, vals, ?_, sound⟩
      simp [RadixCache.insert, disabled, pure, Except.pure, Except.toOption]
    | matchPrefix clock key =>
      refine ⟨session, full, vals, ?_, sound⟩
      simp [matchPrefix, disabled, pure, Except.pure, Except.toOption]
    | incLockRef node =>
      refine ⟨⟨session.cache, node :: session.holders⟩, full, vals,
        by simp [incLockRef, disabled], sound.of_disabled disabled ?_⟩
      exact forall_mem_cons.mpr ⟨permitted, locks.member⟩
    | decLockRef node =>
      refine ⟨⟨session.cache, session.holders.erase node⟩, full, vals,
        by simp [decLockRef, disabled], sound.of_disabled disabled ?_⟩
      exact fun holder held => locks.member holder (mem_of_mem_erase held)
    | evict numTokens leaves => exact ⟨session, full, vals, by simp [evict, disabled], sound⟩
  | false =>
    have still {after : RadixCache} {holders : List ℕ} {full' : ℕ → List KeyUnit}
        {vals' : ℕ → List ℕ} (enabled : after.disable = false)
        (wf' : WellFormed after full' vals') (accounts' : Accounts after)
        (locks' : LocksMatch after holders) : Sound ⟨after, holders⟩ full' vals' :=
      ⟨wf', accounts', locks', fun disabled => by rw [enabled] at disabled; cases disabled⟩
    cases call with
    | insert clock params =>
      obtain ⟨after, result, full', vals', ran, enabled, wf', accounts', locks'⟩ :=
        insert_accounts wf accounts locks disabled clock permitted
      exact ⟨⟨after, session.holders⟩, full', vals',
        by simp [ran, Except.toOption], still enabled wf' accounts' locks'⟩
    | matchPrefix clock key =>
      obtain ⟨after, result, full', vals', ran, -, matched⟩ :=
        matchPrefix_spec wf disabled clock key
      obtain ⟨accounts', locks'⟩ := extended_accounts wf accounts locks matched.extended
      refine ⟨⟨after, session.holders⟩, full', vals', by simp [ran, Except.toOption],
        still ?_ matched.extended.wellFormed accounts' locks'⟩
      rw [frame_of_moves matched.extended.moves]
      exact disabled
    | incLockRef node =>
      obtain ⟨nodes, after, delta, ran, walked, wf', accounts', locks'⟩ :=
        incLockRef_spec wf accounts locks disabled permitted
      refine ⟨⟨after, node :: session.holders⟩, full, vals,
        by simp [ran], still ?_ wf' accounts' locks'⟩
      rw [walked.frame]
      exact disabled
    | decLockRef node =>
      obtain ⟨nodes, after, delta, ran, walked, wf', accounts', locks'⟩ :=
        decLockRef_spec wf accounts locks disabled permitted
      refine ⟨⟨after, session.holders.erase node⟩, full, vals,
        by simp [ran], still ?_ wf' accounts' locks'⟩
      rw [walked.frame]
      exact disabled
    | evict numTokens leaves =>
      obtain ⟨after, freed, ran, evicted, wf', accounts', locks', -⟩ :=
        evict_spec wf accounts locks disabled numTokens permitted.1 permitted.2
      refine ⟨⟨after, session.holders⟩, full, vals, by simp [ran], still ?_ wf' accounts' locks'⟩
      rw [evicted.frame]
      exact disabled

/-- Every run is sound. -/
theorem exists_sound (positive : 0 < cache.pageSize) {calls : List SessionCall}
    (run : Path Step ⟨cache.reset clock, []⟩ calls session) :
    ∃ full vals, Sound session full vals := by
  refine Path.invariant (fun session => ∃ full vals, Sound session full vals) ?_ run
    ⟨_, _, sound_reset cache clock positive⟩
  rintro session call next ⟨permitted, ran⟩ ⟨full, vals, sound⟩
  obtain ⟨next', full', vals', ran', sound'⟩ := sound.exec permitted
  rw [ran] at ran'
  cases ran'
  exact ⟨full', vals', sound'⟩

/-- After any run of permitted calls from an empty cache, lock counts, sizes and the
set of evictable leaves are those of the tree, every permitted call returns, and an
eviction frees at least what was asked for or all that is unlocked, no node twice and
no locked node. -/
theorem accounting (cache : RadixCache) (clock : Clock) (positive : 0 < cache.pageSize)
    {calls : List SessionCall} (run : Path Step ⟨cache.reset clock, []⟩ calls session) :
    (∀ id ∈ session.cache.nodes, id ≠ session.cache.rootNode →
      (session.cache.node id).lockRef = session.cache.locksBelow session.holders id) ∧
    session.cache.evictableSize = session.cache.unlockedSize ∧
    session.cache.protectedSize = session.cache.lockedSize ∧
    (∀ id, id ∈ session.cache.evictableLeaves ↔ session.cache.EvictableLeaf id) ∧
    (∀ call, session.Permitted call → ∃ next, session.exec call = some next) ∧
    ∀ (numTokens : ℤ) (leaves : List ℕ), session.Permitted (.evict numTokens leaves) →
      ∃ after evicted, session.cache.evict numTokens leaves = some (after, evicted) ∧
        min numTokens session.cache.evictableSize ≤ evicted.numEvicted ∧ evicted.nodes.Nodup ∧
        evicted.numEvicted =
          (evicted.nodes.map fun id => (session.cache.node id).indices.length).sum ∧
        after.nodes = session.cache.nodes \ evicted.nodes.toFinset ∧
        ∀ id ∈ evicted.nodes, id ∈ session.cache.nodes ∧ (session.cache.node id).lockRef = 0 := by
  obtain ⟨full, vals, sound⟩ := exists_sound cache clock positive run
  obtain ⟨wf, accounts, locks, empty⟩ := id sound
  refine ⟨locks.count, accounts.evictable, accounts.locked, accounts.leaves,
    fun call permitted => ?_, fun numTokens leaves listed => ?_⟩
  · obtain ⟨next, -, -, ran, -⟩ := sound.exec permitted
    exact ⟨next, ran⟩
  · cases disabled : session.cache.disable with
    | true =>
      refine ⟨session.cache, ⟨[], 0⟩, by simp [evict, disabled], ?_, nodup_nil, rfl, by simp,
        forall_mem_nil _⟩
      rw [accounts.evictable, unlockedSize, empty disabled, Finset.erase_singleton]
      exact min_le_right _ _
    | false =>
      obtain ⟨after, freed, ran, evicted, -, -, -, reached⟩ :=
        evict_spec wf accounts locks disabled numTokens listed.1 listed.2
      exact ⟨after, _, ran, reached, evicted.nodup, rfl, evicted.nodes, fun id inside =>
        ⟨(evicted.free id inside).1, (evicted.free id inside).2.2⟩⟩

/-- The accounts after a node was locked and then split by a match. -/
theorem accounting_split : ∃ session : LockSession,
      Path Step ⟨(init false 1 false false .lru stoppedClock).reset stoppedClock, []⟩
        [.insert stoppedClock ⟨plainTokens [1, 2, 3], some [10, 11, 12], none, false⟩,
          .incLockRef 2, .matchPrefix stoppedClock (plainTokens [1, 2, 7])] session ∧
      ∀ id ∈ session.cache.nodes, id ≠ session.cache.rootNode →
        (session.cache.node id).lockRef = session.cache.locksBelow session.holders id := by
  refine Exists.imp (fun session run => ⟨run, (accounting _ stoppedClock (by decide) run).1⟩) ?_
  refine ⟨_, .cons ⟨?_, rfl⟩ (.cons ⟨?_, rfl⟩ (.cons ⟨trivial, rfl⟩ (.nil _)))⟩
  · change InsertParams.Valued false 1 _
    decide
  · exact mem_nodes_iff.mpr ⟨by decide, .single ⟨.plain (.token 1), rfl⟩⟩

end LockSession

end AvaServe.Radix
