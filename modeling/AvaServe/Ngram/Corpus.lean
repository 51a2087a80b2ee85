import AvaServe.Ngram.SuffixMatching
import AvaServe.Foundation.Path

/-!
# The corpus and its threads

Requests and a worker that inserts share one trie under a lock. Sequences to insert are
counted under the lock and queued one by one; the worker takes one and inserts it.
-/

namespace AvaServe.Ngram

open List Function AvaServe.Foundation

/-- The class `Ngram`. A state id without an entry has the state a new entry starts with. -/
structure Corpus where
  trie : Trie
  matchState : ℤ → MatchState
  insertQueue : List (List ℤ)
  pendingCount : ℕ
  /-- What each call of `asyncInsert` has counted and not yet enqueued. -/
  callers : List (List (List ℤ))
  /-- What the worker has dequeued and not yet inserted. -/
  inHand : Option (List ℤ)
  /-- The tokens each request was last matched with; not read. -/
  stream : ℤ → List ℤ
  /-- The calls that changed the trie; not read. -/
  log : List TrieCall

namespace Corpus

section

variable (corpus : Corpus)

/-- The locked part of `asyncInsert`. -/
def asyncInsert (tokens : List (List ℤ)) : Corpus :=
  { corpus with
    pendingCount := corpus.pendingCount + tokens.length
    callers := corpus.callers ++ [tokens] }

/-- One round of the loop of a call of `asyncInsert`. -/
def enqueue (caller : ℕ) (tokens : List ℤ) (rest : List (List ℤ)) : Corpus :=
  { corpus with
    callers := corpus.callers.set caller rest
    insertQueue := corpus.insertQueue ++ [tokens] }

/-- The worker takes the first queued sequence. -/
def dequeue (tokens : List ℤ) (rest : List (List ℤ)) : Corpus :=
  { corpus with inHand := some tokens, insertQueue := rest }

/-- The locked part of `insertWorker`, after the insert. -/
def insert (tokens : List ℤ) (after : Trie) : Corpus :=
  { corpus with
    trie := after
    inHand := none
    pendingCount := corpus.pendingCount - 1
    log := corpus.log ++ [.insert tokens] }

/-- The entry of `match_state_` for a request. -/
def setState (stateId : ℤ) (state : MatchState) (stream : List ℤ) : Corpus :=
  { corpus with
    matchState := update corpus.matchState stateId state
    stream := update corpus.stream stateId stream }

/-- The match of `batchMatch` for one request. It is given the last `max_trie_depth` tokens
of the request and the number of all of them. -/
def batchMatch (stateId : ℤ) (appended : List ℤ) : List (ℕ × ℕ) × Corpus :=
  let stream := corpus.stream stateId ++ appended
  let matched := corpus.trie.matchContext (stream.rtake corpus.trie.maxTrieDepth)
    (corpus.matchState stateId) stream.length
  (matched.1, corpus.setState stateId matched.2 stream)

/-- `eraseMatchState`. -/
def eraseMatchState (stateId : ℤ) : Corpus := corpus.setState stateId {} []

/-- The rest of `reset`, after that of the trie. -/
def reset (after : Trie) : Corpus :=
  { corpus with
    trie := after
    matchState := fun _ => {}
    stream := fun _ => []
    log := corpus.log ++ [.reset] }

end

/-- What the threads do, one critical section at a time, with the sequences handed over. -/
inductive Move (corpus : Corpus) : List (List ℤ) → Corpus → Prop
  | asyncInsert (tokens : List (List ℤ)) : Move corpus tokens (corpus.asyncInsert tokens)
  | enqueue {caller : ℕ} {tokens : List ℤ} {rest : List (List ℤ)}
    (next : corpus.callers[caller]? = some (tokens :: rest)) :
    Move corpus [] (corpus.enqueue caller tokens rest)
  | dequeue {tokens : List ℤ} {rest : List (List ℤ)} (idle : corpus.inHand = none)
    (queued : corpus.insertQueue = tokens :: rest) : Move corpus [] (corpus.dequeue tokens rest)
  | insert {tokens : List ℤ} {after : Trie} (held : corpus.inHand = some tokens)
    (inserted : corpus.trie.insert tokens = .ok after) :
    Move corpus [] (corpus.insert tokens after)
  -- `batchMatch` throws for an empty tail
  | batchMatch (stateId : ℤ) {appended : List ℤ}
    (tail : corpus.stream stateId ++ appended ≠ []) :
    Move corpus [] (corpus.batchMatch stateId appended).2
  | eraseMatchState (stateId : ℤ) : Move corpus [] (corpus.eraseMatchState stateId)
  | reset {after : Trie} (done : corpus.trie.reset = .ok after) :
    Move corpus [] (corpus.reset after)

/-- A move after which no version has wrapped around. -/
def Step (corpus : Corpus) (handed : List (List ℤ)) (next : Corpus) : Prop :=
  Move corpus handed next ∧ next.trie.evicted < 2 ^ 64

/-- A corpus over a new trie. -/
def init (trie : Trie) : Corpus :=
  ⟨trie, fun _ => {}, [], 0, [], none, fun _ => [], []⟩

variable {corpus next : Corpus} {capacity depth : ℕ} {created : Trie} {handed : List (List ℤ)}

/-! ### Matches -/

/-- The trie is what its calls give, and the cache of every request is for its stream. -/
structure Valid (capacity depth : ℕ) (corpus : Corpus) : Prop where
  ran : Trie.run capacity depth corpus.log = .ok corpus.trie
  small : corpus.trie.evicted < 2 ^ 64
  known : ∀ stateId, Trie.Known corpus.trie.Holds corpus.trie (corpus.stream stateId)
    (corpus.matchState stateId)

/-- An empty cache is for an empty stream. -/
theorem known_nil (trie : Trie) : Trie.Known trie.Holds trie [] {} :=
  fun current => ⟨rfl, current, (Nat.zero_min _).symm, fun i ref found => by cases found⟩

variable (valid : Valid capacity depth corpus)
include valid

/-- A call of the trie is one more call of the log. -/
theorem Valid.call {call : TrieCall} {after : Trie} (called : corpus.trie.call call = .ok after) :
    Trie.run capacity depth (corpus.log ++ [call]) = .ok after := by
  have grown : Trie.run capacity depth (corpus.log ++ [call]) =
      Trie.run capacity depth corpus.log >>= (·.call call) := by simp [Trie.run]
  rw [grown, valid.ran]
  exact called

/-- A new cache for a stream keeps the corpus valid. -/
theorem Valid.setState (stateId : ℤ) {state : MatchState} {stream : List ℤ}
    (known : Trie.Known corpus.trie.Holds corpus.trie stream state) :
    Valid capacity depth (corpus.setState stateId state stream) := by
  refine ⟨valid.ran, valid.small, fun other => ?_⟩
  by_cases same : other = stateId
  · simpa [Corpus.setState, same] using known
  · simpa [Corpus.setState, same] using valid.known other

variable (deep : depth < capacity)
include deep

/-- The trie of a valid corpus is sound. -/
theorem Valid.sound : corpus.trie.Sound capacity depth (Trie.inserted corpus.log) := by
  obtain ⟨trie, made, sound⟩ := Trie.sound_run deep corpus.log
  exact Except.ok.inj (made.symm.trans valid.ran) ▸ sound

/-- An insert ages the references of every request. -/
theorem Valid.insert {tokens : List ℤ} {after : Trie}
    (inserted : corpus.trie.insert tokens = .ok after) (stateId : ℤ) :
    Trie.Known after.Holds after (corpus.stream stateId) (corpus.matchState stateId) := by
  intro current
  have sound := valid.sound deep
  obtain ⟨word, formed, tallied⟩ := sound.formed
  obtain ⟨trie, called, sound'⟩ := sound.call deep (.insert tokens)
  obtain rfl := Except.ok.inj (called.symm.trans inserted)
  have ages : Trie.Ages corpus.trie trie := by
    refine formed.insertWindows_ages tallied (fun window member => ?_) inserted
    rw [sound.depth_eq] at member
    rw [sound.capacity_eq]
    exact (Trie.length_le_of_mem_windows member).trans_lt deep
  obtain ⟨processed, before⟩ := valid.known stateId (current.trans ages.epoch)
  refine ⟨processed, current, ?_, fun i ref found => ages.holds _ _ (before.anchored i ref found)⟩
  rw [before.length, sound.depth_eq, sound'.depth_eq]

/-- Every step keeps the corpus valid. -/
theorem Valid.step (step : Step corpus handed next) : Valid capacity depth next := by
  obtain ⟨move, small⟩ := step
  cases move with
  | asyncInsert | enqueue | dequeue => exact ⟨valid.ran, small, valid.known⟩
  | insert held inserted => exact ⟨valid.call inserted, small, valid.insert deep inserted⟩
  | @batchMatch stateId appended =>
    exact valid.setState stateId fun _ =>
      (Trie.kept_holds valid.small).matchContext (valid.known stateId) appended rfl
  | eraseMatchState stateId => exact valid.setState stateId (known_nil _)
  | reset done => exact ⟨valid.call done, small, fun _ => known_nil _⟩

omit valid

/-- Every run keeps the corpus valid. -/
theorem valid_of_run (fresh : Trie.new capacity depth = .ok created)
    {handed : List (List (List ℤ))} (run : Path Step (init created) handed corpus) :
    Valid capacity depth corpus := by
  have ran : Trie.run capacity depth [] = .ok created := by
    rw [Trie.run, fresh]
    rfl
  obtain ⟨trie, made, sound⟩ := Trie.sound_run deep []
  obtain rfl := Except.ok.inj (made.symm.trans ran)
  have empty : trie.evicted = 0 :=
    sound.roomy ∅ (fun piece _ occurs => by cases occurs) (by simpa using deep)
  refine Path.invariant (Valid capacity depth) (fun _ _ _ step valid => valid.step deep step) run
    ⟨ran, ?_, fun _ => known_nil trie⟩
  change trie.evicted < 2 ^ 64
  omega

/-- For every interleaving of inserts by the worker, with the squeezes and the reuse of nodes
they cause, matches of growing requests, erasures and resets: every node that a match returns
with a length is the node which that many of the last tokens of its request lead to in the
trie as it now is. -/
theorem matched_suffixes_current (fresh : Trie.new capacity depth = .ok created)
    {handed : List (List (List ℤ))} (run : Path Step (init created) handed corpus) (stateId : ℤ)
    (appended : List ℤ) {node length : ℕ}
    (listed : (node, length) ∈ (corpus.batchMatch stateId appended).1) :
    let stream := corpus.stream stateId ++ appended
    0 < length ∧ length ≤ stream.length ∧
      corpus.trie.find corpus.trie.root (stream.rtake length) = some node ∧
      (corpus.trie.node node).child ≠ ∅ := by
  have valid := valid_of_run deep fresh run
  obtain ⟨-, follows⟩ :=
    (Trie.kept_holds valid.small).matchContext (valid.known stateId) appended rfl
  exact follows.expandable valid.small listed

omit deep

/-- A corpus into whose trie a sequence was inserted. -/
def inserted (after : Trie) (tokens : List ℤ) : Corpus :=
  { init after with callers := [[]], log := [.insert tokens] }

/-- A run that inserts one sequence and then matches a request. -/
theorem run_one_insert : ∃ created after, Trie.new 8 2 = .ok created ∧
    Path Step (init created) [[[1, 2]], [], [], [], []]
      ((inserted after [1, 2]).batchMatch 0 [2]).2 ∧
    Trie.matchContext after ([2].rtake after.maxTrieDepth) {} 1 = ([], after.freshState [2]) ∧
    after.getExpandableAnchors (after.freshState [2, 1]) = [(6, 1)] ∧
    (6, 1) ∈ (((inserted after [1, 2]).batchMatch 0 [2]).2.batchMatch 0 [1]).1 := by
  obtain ⟨created, after, fresh, made, unused, used, facts⟩ : ∃ created after,
      Trie.new 8 2 = .ok created ∧ created.insert [1, 2] = .ok after ∧ created.evicted = 0 ∧
      after.evicted = 0 ∧
      Trie.matchContext after ([2].rtake after.maxTrieDepth) {} 1 = ([], after.freshState [2]) ∧
      after.getExpandableAnchors (after.freshState [2, 1]) = [(6, 1)] ∧
      (6, 1) ∈ (((inserted after [1, 2]).batchMatch 0 [2]).2.batchMatch 0 [1]).1 :=
    ⟨_, _, rfl, rfl, by decide +kernel⟩
  refine ⟨created, after, fresh, .cons ⟨.asyncInsert [[1, 2]], ?_⟩
    (.cons ⟨@Move.enqueue _ 0 _ _ rfl, ?_⟩ (.cons ⟨.dequeue rfl rfl, ?_⟩
      (.cons ⟨.insert rfl made, ?_⟩ (.cons ⟨.batchMatch 0 (cons_ne_nil _ _), ?_⟩ (.nil _))))),
    facts⟩
  all_goals simp [asyncInsert, enqueue, dequeue, insert, init, batchMatch, setState, unused, used]

/-- The last token of the request leads to the node that spells it. -/
theorem matched_suffixes_current_one : ∃ corpus : Corpus, corpus.stream 0 = [2] ∧
    corpus.trie.find corpus.trie.root ((corpus.stream 0 ++ [1]).rtake 1) = some 6 := by
  obtain ⟨created, after, fresh, run, -, -, listed⟩ := run_one_insert
  exact ⟨_, rfl, (matched_suffixes_current (by decide) fresh run 0 [1] listed).2.2.1⟩

/-! ### Advancing -/

/-- The cache of a request is what building it anew gives. -/
def Fresh (corpus : Corpus) (stateId : ℤ) : Prop :=
  corpus.matchState stateId = corpus.trie.freshState (corpus.stream stateId)

/-- A match of a request with a new cache returns and leaves what building anew gives. -/
theorem Fresh.batchMatch {stateId : ℤ} (fresh : Fresh corpus stateId) (appended : List ℤ) :
    (corpus.batchMatch stateId appended).1 = corpus.trie.getExpandableAnchors
        (corpus.trie.freshState (corpus.stream stateId ++ appended)) ∧
      Fresh (corpus.batchMatch stateId appended).2 stateId := by
  have kept := Trie.kept_finds corpus.trie
  have known : Trie.Known corpus.trie.Finds corpus.trie (corpus.stream stateId)
      (corpus.matchState stateId) := by
    rw [fresh]
    exact fun _ => ⟨rfl, kept.rebuild _⟩
  obtain ⟨processed, follows⟩ := kept.matchContext known appended rfl
  have same := follows.eq_of_found (kept.rebuild (corpus.stream stateId ++ appended)) processed
  refine ⟨congrArg corpus.trie.getExpandableAnchors same, ?_⟩
  simpa [Fresh, Corpus.batchMatch, setState] using same

/-- While the trie does not change, a match of a request whose cache was built anew returns
what building it anew would give, whatever the chunks the request grew by and whichever
other requests were matched meanwhile. -/
theorem advanced_eq_rebuilt {stateId : ℤ} (fresh : Fresh corpus stateId)
    (requests : List (ℤ × List ℤ)) (appended : List ℤ) :
    let reached := requests.foldl (fun corpus request =>
      (corpus.batchMatch request.1 request.2).2) corpus
    (reached.batchMatch stateId appended).1 = reached.trie.getExpandableAnchors
      (reached.trie.freshState (reached.stream stateId ++ appended)) := by
  induction requests generalizing corpus with
  | nil => exact (fresh.batchMatch appended).1
  | cons request rest ih =>
    refine ih ?_
    by_cases same : stateId = request.1
    · exact same ▸ (fresh.batchMatch request.2).2
    · simpa [Fresh, Corpus.batchMatch, setState, same] using fresh

/-- The request of a reached corpus grows by a token, after another request was matched. -/
theorem advanced_eq_rebuilt_two : ∃ created corpus, Trie.new 8 2 = .ok created ∧
    Path Step (init created) [[[1, 2]], [], [], [], []] corpus ∧ Fresh corpus 0 ∧
      ((corpus.batchMatch 7 [1, 2]).2.batchMatch 0 [1]).1 = [(6, 1)] := by
  obtain ⟨created, after, made, run, matched, listed, -⟩ := run_one_insert
  have fresh : Fresh ((inserted after [1, 2]).batchMatch 0 [2]).2 0 :=
    congrArg Prod.snd matched
  exact ⟨created, _, made, run, fresh,
    (advanced_eq_rebuilt fresh [(7, [1, 2])] [1]).trans listed⟩

/-! ### Inserts -/

/-- The sequences that some calls inserted. -/
def applied (log : List TrieCall) : List (List ℤ) :=
  log.flatMap fun
    | .insert tokens => [tokens]
    | .reset => []

/-- The sequences that are to be inserted: held by the worker, queued, or not yet queued. -/
def pending (corpus : Corpus) : List (List ℤ) :=
  corpus.inHand.toList ++ corpus.insertQueue ++ corpus.callers.flatten

/-- Where the sequences handed over so far are. -/
structure Tracked (past : List (List (List ℤ))) (corpus : Corpus) : Prop where
  counted : corpus.pendingCount = corpus.pending.length
  perm : (applied corpus.log ++ corpus.pending).Perm past.flatten

variable {past : List (List (List ℤ))}

/-- Enqueueing moves a sequence within the pending ones. -/
theorem pending_enqueue {caller : ℕ} {tokens : List ℤ} {rest : List (List ℤ)}
    (found : corpus.callers[caller]? = some (tokens :: rest)) :
    (corpus.enqueue caller tokens rest).pending.Perm corpus.pending := by
  obtain ⟨inside, isHead⟩ := List.getElem?_eq_some_iff.mp found
  obtain ⟨front, back, split, -, callers⟩ := @exists_of_set _ caller rest _ inside
  rw [isHead] at split
  rw [pending, pending, enqueue, callers, split]
  simp only [flatten_append, flatten_cons, append_assoc, cons_append, nil_append]
  exact (perm_middle.symm.append_left _).append_left _

/-- A move that hands nothing over and inserts nothing. -/
theorem Tracked.keep (tracked : Tracked past corpus) (moved : next.pending.Perm corpus.pending)
    (counted : next.pendingCount = corpus.pendingCount)
    (log : applied next.log = applied corpus.log) : Tracked (past ++ [[]]) next := by
  refine ⟨by rw [counted, tracked.counted, moved.length_eq], ?_⟩
  rw [flatten_concat, append_nil, log]
  exact (moved.append_left _).trans tracked.perm

/-- Every move accounts for the sequences handed over. -/
theorem Tracked.move (tracked : Tracked past corpus) (move : Move corpus handed next) :
    Tracked (past ++ [handed]) next := by
  cases move with
  | asyncInsert =>
    have pending : (corpus.asyncInsert handed).pending = corpus.pending ++ handed := by
      simp [pending, asyncInsert]
    refine ⟨by rw [pending, length_append, ← tracked.counted]; rfl, ?_⟩
    rw [flatten_concat, pending, ← append_assoc]
    exact tracked.perm.append_right handed
  | enqueue found => exact tracked.keep (pending_enqueue found) rfl rfl
  | dequeue idle queued =>
    exact tracked.keep (by simp [pending, dequeue, idle, queued]) rfl rfl
  | @insert tokens after held inserted =>
    have pending : corpus.pending = tokens :: (corpus.insert tokens after).pending := by
      rw [pending, pending, held]
      rfl
    obtain ⟨counted, perm⟩ := tracked
    rw [pending] at counted perm
    refine ⟨by rw [insert, counted]; rfl, ?_⟩
    rw [flatten_concat, append_nil, insert, applied, flatMap_append, append_assoc]
    exact perm
  | batchMatch | eraseMatchState => exact tracked.keep (.refl _) rfl rfl
  | reset => exact tracked.keep (.refl _) rfl (by simp [Corpus.reset, applied])

/-- The moves that are left until nothing is pending. -/
def work (corpus : Corpus) : ℕ :=
  3 * corpus.callers.flatten.length + 2 * corpus.insertQueue.length + corpus.inHand.toList.length

/-- A caller or the worker can move as long as a sequence is pending. -/
theorem Tracked.progress (tracked : Tracked past corpus) (valid : Valid capacity depth corpus)
    (deep : depth < capacity) (busy : corpus.pendingCount ≠ 0) :
    ∃ next, Move corpus [] next ∧ next.work < corpus.work := by
  cases held : corpus.inHand with
  | some tokens =>
    obtain ⟨after, inserted, -⟩ := (valid.sound deep).call deep (.insert tokens)
    exact ⟨_, .insert held inserted, by simp [work, insert, held]⟩
  | none =>
    cases queued : corpus.insertQueue with
    | cons tokens rest =>
      refine ⟨_, .dequeue held queued, ?_⟩
      simp only [work, dequeue, held, queued, length_cons, Option.toList, length_nil]
      omega
    | nil =>
      obtain ⟨caller, member, nonempty⟩ : ∃ caller ∈ corpus.callers, caller ≠ [] := by
        simpa [-length_flatten, tracked.counted, pending, held, queued] using busy
      obtain ⟨i, found⟩ := getElem?_of_mem member
      obtain ⟨tokens, rest, rfl⟩ := exists_cons_of_ne_nil nonempty
      refine ⟨_, .enqueue found, ?_⟩
      have moved := (pending_enqueue found).length_eq
      simp only [pending, work, enqueue, length_append, length_singleton] at moved ⊢
      omega

/-- For every interleaving: while `synchronize` has to wait, a caller or the worker can do some
of the work left; when it finds nothing pending, every sequence handed over has been inserted
once, and the trie is what these inserts and the resets among them give. -/
theorem synchronized_inserts (deep : depth < capacity)
    (fresh : Trie.new capacity depth = .ok created) {handed : List (List (List ℤ))}
    (run : Path Step (init created) handed corpus) :
    (corpus.pendingCount ≠ 0 → ∃ next, Move corpus [] next ∧ next.work < corpus.work) ∧
      (corpus.pendingCount = 0 → (applied corpus.log).Perm handed.flatten ∧
        Trie.run capacity depth corpus.log = .ok corpus.trie) := by
  have valid := valid_of_run deep fresh run
  have tracked : Tracked ([] ++ handed) corpus :=
    Path.recorded Tracked (fun _ _ _ _ step tracked => tracked.move step.1) run ⟨rfl, .refl _⟩
  refine ⟨tracked.progress valid deep, fun idle => ⟨?_, valid.ran⟩⟩
  have perm := tracked.perm
  rwa [length_eq_zero_iff.mp (tracked.counted.symm.trans idle), append_nil] at perm

/-- One sequence is handed over. -/
theorem synchronized_inserts_one : ∃ corpus : Corpus, (applied corpus.log).Perm [[1, 2]] := by
  obtain ⟨created, after, fresh, run, -⟩ := run_one_insert
  exact ⟨_, ((synchronized_inserts (by decide) fresh run).2 rfl).1⟩

end Corpus

end AvaServe.Ngram
