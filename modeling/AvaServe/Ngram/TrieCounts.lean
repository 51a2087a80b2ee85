import AvaServe.Ngram.TrieMutations

/-!
# What the n-gram trie holds

Every node spells a piece of an inserted sequence. As long as no node was squeezed out,
the nodes are all pieces up to the depth of the trie, and the frequency of a node counts
the window starts its piece occurs at. A call never fails.
-/

namespace AvaServe.Ngram

open Foundation List Function Nat

namespace Trie

variable {trie : Trie} {word : ℕ → List ℤ} {occ : List ℤ → ℕ}

/-- The number of window starts of some sequences at which a piece occurs. -/
def occurrences (depth : ℕ) (sequences : List (List ℤ)) (piece : List ℤ) : ℕ :=
  (sequences.flatMap (windows depth)).countP fun window => decide (piece <+: window)

/-- The nodes spell pieces with an occurrence, and all of them with their number of
occurrences when nothing was squeezed out. -/
structure Tallied (trie : Trie) (word : ℕ → List ℤ) (occ : List ℤ → ℕ) : Prop where
  seen : ∀ id ∈ trie.dom, id ≠ trie.root → 0 < occ (word id)
  complete : trie.evicted = 0 → ∀ piece, piece ≠ [] → 0 < occ piece →
    ∃ id ∈ trie.dom, word id = piece
  counted : trie.evicted = 0 → ∀ id ∈ trie.dom, id ≠ trie.root →
    (trie.node id).freq = Int32.ofNat (occ (word id))

variable (formed : trie.Formed word) (tallied : trie.Tallied word occ)

include formed tallied in
/-- The tally reads nonempty pieces. -/
theorem Tallied.congr {other : List ℤ → ℕ} (same : ∀ piece ≠ [], other piece = occ piece) :
    trie.Tallied word other := by
  have nonempty : ∀ id ∈ trie.dom, id ≠ trie.root → word id ≠ [] :=
    fun id member notRoot empty => notRoot ((formed.word_eq_nil_iff member).mp empty)
  exact
    { seen := fun id member notRoot => by
        rw [same _ (nonempty id member notRoot)]
        exact tallied.seen id member notRoot
      complete := fun none piece notNil positive => by
        rw [same piece notNil] at positive
        exact tallied.complete none piece notNil positive
      counted := fun none id member notRoot => by
        rw [same _ (nonempty id member notRoot)]
        exact tallied.counted none id member notRoot }

/-! ### The walk -/

/-- What a walk keeps of the trie it started from. -/
structure Extends (trie : Trie) (word : ℕ → List ℤ) (after : Trie) (word' : ℕ → List ℤ) : Prop where
  root : after.root = trie.root
  capacity : after.capacity = trie.capacity
  maxTrieDepth : after.maxTrieDepth = trie.maxTrieDepth
  evicted : after.evicted = trie.evicted
  dom : trie.dom ⊆ after.dom
  word_eq : ∀ id ∈ trie.dom, word' id = word id
  parent_eq : ∀ id ∈ trie.dom, (after.node id).parent = (trie.node id).parent

/-- Nothing changes. -/
theorem Extends.refl (trie : Trie) (word : ℕ → List ℤ) : Extends trie word trie word :=
  ⟨rfl, rfl, rfl, rfl, Finset.Subset.refl _, fun _ _ => rfl, fun _ _ => rfl⟩

/-- Extensions one after the other. -/
theorem Extends.trans {middle after : Trie} {word' word'' : ℕ → List ℤ}
    (first : Extends trie word middle word') (second : Extends middle word' after word'') :
    Extends trie word after word'' where
  root := second.root.trans first.root
  capacity := second.capacity.trans first.capacity
  maxTrieDepth := second.maxTrieDepth.trans first.maxTrieDepth
  evicted := second.evicted.trans first.evicted
  dom := first.dom.trans second.dom
  word_eq := fun id member => (second.word_eq id (first.dom member)).trans (first.word_eq id member)
  parent_eq := fun id member =>
    (second.parent_eq id (first.dom member)).trans (first.parent_eq id member)

/-- One more occurrence of a piece. -/
def bump (piece : List ℤ) (occ : List ℤ → ℕ) : List ℤ → ℕ := update occ piece (occ piece + 1)

/-- A bump only adds. -/
theorem le_bump (piece other : List ℤ) (occ : List ℤ → ℕ) : occ other ≤ bump piece occ other := by
  unfold bump
  by_cases same : other = piece
  · subst same
    rw [update_self]
    exact le_succ _
  · rw [update_of_ne same]

/-- What one round of the inner loop leaves behind. -/
structure Advanced (trie : Trie) (word : ℕ → List ℤ) (cursor : ℕ) (token : ℤ) (next : ℕ)
    (after : Trie) (word' : ℕ → List ℤ) : Prop where
  formed : after.Formed word'
  extended : Extends trie word after word'
  listed : next ∈ after.globalLru
  spells : word' next = word cursor ++ [token]
  parent : (after.node next).parent = some cursor
  pool : trie.pool.length ≤ after.pool.length + 1

variable {cursor : ℕ} (member : cursor ∈ trie.dom)

section

include formed tallied

include member in
/-- A new child is attached. -/
theorem Formed.advance_attach {id : ℕ} {token : ℤ} {rest : List ℕ}
    (vacant : (trie.node cursor).child.lookup token = none) (top : trie.pool = id :: rest) :
    trie.advance cursor token = .ok (id, trie.attach id rest cursor token) ∧
      Advanced trie word cursor token id (trie.attach id rest cursor token)
        (update word id (word cursor ++ [token])) ∧
      (trie.attach id rest cursor token).Tallied
        (update word id (word cursor ++ [token])) (bump (word cursor ++ [token]) occ) := by
  have unused : id ∉ trie.dom := formed.not_mem_dom_of_pool (by rw [top]; exact mem_cons_self)
  have old : ∀ {other}, other ∈ trie.dom → other ≠ id :=
    fun inside same => unused (same ▸ inside)
  have differs : cursor ≠ id := old member
  have fresh : ∀ other ∈ trie.dom, word other ≠ word cursor ++ [token] := by
    intro other inside same
    have found := formed.find_word inside
    rw [same, Formed.find_append, formed.find_word member, Option.bind_some, find, vacant] at found
    cases found
  refine ⟨?_, ⟨formed.attach top member vacant, ?_, ?_, ?_, ?_, ?_⟩, ?_⟩
  · rw [advance, vacant, getNode_eq top]
    rfl
  · refine ⟨rfl, rfl, rfl, rfl, ?_, fun other inside => ?_, fun other inside => ?_⟩
    · rw [dom_attach]
      exact Finset.subset_insert _ _
    · exact update_of_ne (old inside) _ _
    · rw [parent_attach differs, if_neg (old inside)]
  · exact mem_append_right _ (mem_singleton_self id)
  · exact update_self ..
  · rw [parent_attach differs, if_pos rfl]
  · rw [top]
    exact le_refl _
  · exact
      { seen other inside notRoot := by
          rw [dom_attach, Finset.mem_insert] at inside
          obtain rfl | inside := inside
          · rw [update_self, bump, update_self]
            exact succ_pos _
          · rw [update_of_ne (old inside)]
            exact (tallied.seen other inside notRoot).trans_le (le_bump ..)
        complete none piece notNil positive := by
          rw [dom_attach]
          by_cases same : piece = word cursor ++ [token]
          · exact ⟨id, Finset.mem_insert_self _ _, by rw [update_self, same]⟩
          · rw [bump, update_of_ne same] at positive
            obtain ⟨other, inside, spelled⟩ := tallied.complete none piece notNil positive
            exact ⟨other, Finset.mem_insert_of_mem inside,
              by rw [update_of_ne (old inside), spelled]⟩
        counted none other inside notRoot := by
          rw [dom_attach, Finset.mem_insert] at inside
          rw [freq_attach differs]
          obtain rfl | inside := inside
          · rw [if_pos rfl, update_self, bump, update_self]
            have zero : occ (word cursor ++ [token]) = 0 := by
              by_contra positive
              obtain ⟨other, inside, spelled⟩ := tallied.complete none _
                (append_ne_nil_of_right_ne_nil _ (cons_ne_nil _ _))
                (pos_of_ne_zero positive)
              exact fresh other inside spelled
            rw [zero]
            rfl
          · rw [if_neg (old inside), update_of_ne (old inside), bump,
              update_of_ne (fresh other inside)]
            exact tallied.counted none other inside notRoot }

include member in
/-- An old child is touched. -/
theorem Formed.advance_touch {id : ℕ} {token : ℤ}
    (found : (trie.node cursor).child.lookup token = some id) :
    trie.advance cursor token = .ok (id, trie.touch cursor id) ∧
      Advanced trie word cursor token id (trie.touch cursor id) word ∧
      (trie.touch cursor id).Tallied word (bump (word cursor ++ [token]) occ) := by
  obtain ⟨inside, parent, label, notRoot, lower⟩ := formed.linked.of_child member found
  have differs : cursor ≠ id := by
    rintro rfl
    exact lt_irrefl _ lower
  have spells : word id = word cursor ++ [token] := by
    rw [formed.word_eq id inside cursor parent]
    exact congrArg (fun last => word cursor ++ [last]) label
  refine ⟨?_, ⟨formed.touch member found, ?_, ?_, spells, ?_, le_succ _⟩, ?_⟩
  · rw [advance, found]
    rfl
  · exact ⟨rfl, rfl, rfl, rfl, Finset.Subset.refl _, fun _ _ => rfl,
      fun other _ => (pointers_touch differs other).1⟩
  · exact (mem_dom.mp inside).resolve_left notRoot
  · rw [(pointers_touch differs id).1]
    exact parent
  · exact
      { seen := fun other otherMem otherNot =>
          (tallied.seen other otherMem otherNot).trans_le (le_bump ..)
        complete none piece notNil positive := by
          by_cases same : piece = word cursor ++ [token]
          · exact ⟨id, inside, by rw [spells, same]⟩
          · rw [bump, update_of_ne same] at positive
            exact tallied.complete none piece notNil positive
        counted none other otherMem otherNot := by
          have before := tallied.counted none other otherMem otherNot
          rw [freq_touch differs, bump]
          by_cases same : other = id
          · subst same
            rw [if_pos rfl, before, spells, update_self]
            exact (Int32.ofNat_add _ 1).symm
          · rw [if_neg same, update_of_ne, before]
            intro equal
            exact same (formed.word_injective otherMem inside (equal.trans spells.symm)) }

include member in
/-- A step counts the piece it reaches. -/
theorem Formed.advance (room : 0 < trie.pool.length) (token : ℤ) :
    ∃ next after word', trie.advance cursor token = .ok (next, after) ∧
      Advanced trie word cursor token next after word' ∧
      after.Tallied word' (bump (word cursor ++ [token]) occ) := by
  cases found : (trie.node cursor).child.lookup token with
  | some id => exact ⟨_, _, _, formed.advance_touch tallied member found⟩
  | none =>
    obtain ⟨id, rest, top⟩ := exists_cons_of_length_pos room
    exact ⟨_, _, _, formed.advance_attach tallied member found top⟩

end

/-- The occurrences after a walk from a node that spells `base`. -/
def tally (base : List ℤ) : List ℤ → (List ℤ → ℕ) → List ℤ → ℕ
  | [], occ => occ
  | token :: rest, occ => tally (base ++ [token]) rest (bump (base ++ [token]) occ)

/-- A walk counts the pieces it passes. -/
theorem tally_eq (base tokens : List ℤ) (occ : List ℤ → ℕ) (piece : List ℤ) :
    tally base tokens occ piece =
      occ piece + if base <+: piece ∧ piece ≠ base ∧ piece <+: base ++ tokens then 1 else 0 := by
  induction tokens generalizing base occ with
  | nil =>
    rw [tally, append_nil, if_neg, add_zero]
    rintro ⟨left, differs, right⟩
    exact differs (right.eq_of_length (right.length_le.antisymm left.length_le))
  | cons token rest ih =>
    rw [tally, ih, append_assoc, singleton_append]
    by_cases same : piece = base ++ [token]
    · subst same
      rw [bump, update_self, if_neg fun both => both.2.1 rfl, if_pos]
      refine ⟨prefix_append _ _, ?_, ?_⟩
      · intro equal
        have lengths := congrArg length equal
        simp at lengths
      · rw [prefix_append_right_inj]
        exact cons_prefix_cons.mpr ⟨rfl, nil_prefix⟩
    · rw [bump, update_of_ne same]
      have iff : (base ++ [token] <+: piece ∧ piece ≠ base ++ [token] ∧
            piece <+: base ++ token :: rest) ↔
          base <+: piece ∧ piece ≠ base ∧ piece <+: base ++ token :: rest := by
        constructor
        · rintro ⟨left, -, right⟩
          refine ⟨(prefix_append _ _).trans left, ?_, right⟩
          rintro rfl
          have lengths := left.length_le
          simp at lengths
        · rintro ⟨⟨tail, rfl⟩, differs, right⟩
          refine ⟨?_, same, right⟩
          rw [prefix_append_right_inj] at right ⊢
          cases tail with
          | nil => exact absurd (append_nil base) differs
          | cons first more =>
            obtain ⟨rfl, -⟩ := cons_prefix_cons.mp right
            exact cons_prefix_cons.mpr ⟨rfl, nil_prefix⟩
      simp [iff]

section

include formed tallied

include member in
/-- The inner loop of `insert` returns, and the nodes it passed hang together. -/
theorem Formed.walk {tokens : List ℤ} (room : tokens.length ≤ trie.pool.length) :
    ∃ after path word', trie.walk cursor tokens = .ok (after, path) ∧ after.Formed word' ∧
      Extends trie word after word' ∧ after.Tallied word' (tally (word cursor) tokens occ) ∧
      path ⊆ after.globalLru ∧
      (path.Pairwise fun a b => (word' a).length < (word' b).length) ∧
      (∀ id ∈ path, (word cursor).length < (word' id).length) ∧
      ∀ id ∈ path, ∃ above ∈ cursor :: path, (after.node id).parent = some above := by
  induction tokens generalizing trie word occ cursor with
  | nil =>
    exact ⟨trie, [], word, rfl, formed, .refl trie word, tallied, nil_subset _,
      Pairwise.nil, forall_mem_nil _,
      forall_mem_nil _⟩
  | cons token rest ih =>
    rw [length_cons] at room
    obtain ⟨next, middle, word₁, advanced, step, tallied⟩ :=
      formed.advance tallied member (by omega) token
    have nextMem : next ∈ middle.dom := mem_dom.mpr (.inr step.listed)
    have pool := step.pool
    obtain ⟨after, path, word₂, walked, formed, extended, tallied, inside, deeper, below,
      chained⟩ := ih step.formed tallied nextMem (by omega)
    have nextAfter : next ∈ after.globalLru := by
      refine (mem_dom.mp (extended.dom nextMem)).resolve_left fun isRoot => ?_
      rw [extended.root] at isRoot
      exact step.formed.root_not_mem (isRoot ▸ step.listed)
    have nextWord : word₂ next = word cursor ++ [token] :=
      (extended.word_eq next nextMem).trans step.spells
    have longer : (word cursor).length < (word₂ next).length := by
      rw [nextWord, length_append]
      exact lt_succ_self _
    refine ⟨after, next :: path, word₂, ?_, formed, step.extended.trans extended, ?_,
      cons_subset.mpr ⟨nextAfter, inside⟩, pairwise_cons.mpr ⟨fun id listed => ?_,
        deeper⟩, fun id listed => ?_, fun id listed => ?_⟩
    · rw [Trie.walk, advanced]
      change (middle.walk next rest).bind _ = _
      rw [walked]
      rfl
    · rw [step.spells] at tallied
      exact tallied
    · have less := below id listed
      rw [← extended.word_eq next nextMem] at less
      exact less
    · obtain rfl | listed := mem_cons.mp listed
      · exact longer
      · have less := below id listed
        rw [← extended.word_eq next nextMem] at less
        exact longer.trans less
    · obtain rfl | listed := mem_cons.mp listed
      · exact ⟨cursor, mem_cons_self, (extended.parent_eq id nextMem).trans step.parent⟩
      · obtain ⟨above, near, parent⟩ := chained id listed
        exact ⟨above, mem_cons_of_mem cursor near, parent⟩

/-! ### Squeezing and windows -/

/-- Squeezing frees nodes. -/
theorem Formed.squeezeLoop {count : ℕ} (enough : count ≤ trie.globalLru.length) :
    ∃ after, trie.squeezeLoop count = .ok after ∧ after.Formed word ∧ after.Tallied word occ ∧
      after.root = trie.root ∧ after.capacity = trie.capacity ∧
      after.maxTrieDepth = trie.maxTrieDepth ∧
      after.pool.length = trie.pool.length + count := by
  induction count generalizing trie with
  | zero => exact ⟨trie, rfl, formed, tallied, rfl, rfl, rfl, rfl⟩
  | succ count ih =>
    obtain ⟨front, last, split⟩ : ∃ front last, trie.globalLru = front ++ [last] := by
      obtain empty | found := eq_nil_or_concat' trie.globalLru
      · rw [empty] at enough
        cases enough
      · exact found
    obtain ⟨above, -, released, formed', dom⟩ := formed.release split
    have tallied' : ({ trie with globalLru := front }.released last above).Tallied word occ :=
      { seen := fun id member notRoot => by
          rw [dom] at member
          exact tallied.seen id (Finset.mem_of_mem_erase member) notRoot
        complete := fun none => absurd none (succ_ne_zero _)
        counted := fun none => absurd none (succ_ne_zero _) }
    have length : count ≤ front.length := by
      rw [split, length_append, length_singleton] at enough
      omega
    obtain ⟨after, squeezed, formed, tallied, root, capacity, depth, pool⟩ :=
      ih formed' tallied' length
    refine ⟨after, ?_, formed, tallied, root, capacity, depth, ?_⟩
    · rw [Trie.squeezeLoop, split, getLast?_append_of_ne_nil _ (cons_ne_nil _ _),
        dropLast_concat, getLast?_singleton]
      dsimp only
      rw [released]
      exact squeezed
    · rw [pool]
      change (last :: trie.pool).length + count = _
      rw [length_cons]
      omega

/-- Room for a window is made without an exception. -/
theorem Formed.makeRoom {needed : ℕ} (fits : needed < trie.capacity) :
    ∃ after, trie.makeRoom needed = .ok after ∧ after.Formed word ∧ after.Tallied word occ ∧
      after.capacity = trie.capacity ∧ after.maxTrieDepth = trie.maxTrieDepth ∧
      needed ≤ after.pool.length ∧ (needed ≤ trie.pool.length → after = trie) := by
  have total := formed.length_eq
  unfold Trie.makeRoom
  by_cases short : trie.pool.length < needed
  · have enough : needed - trie.pool.length ≤ trie.globalLru.length := by omega
    obtain ⟨after, squeezed, formed, tallied, -, capacity, depth, pool⟩ :=
      formed.squeezeLoop tallied enough
    refine ⟨after, ?_, formed, tallied, capacity, depth, by omega, by omega⟩
    rw [if_pos short, squeeze, if_pos (by omega), squeezed]
  · exact ⟨trie, by rw [if_neg short]; rfl, formed, tallied, rfl, rfl, not_lt.mp short,
      fun _ => rfl⟩

end

/-- The occurrences after a window. -/
def observe (occ : List ℤ → ℕ) (window piece : List ℤ) : ℕ :=
  occ piece + if piece <+: window then 1 else 0

/-- A promotion keeps the tally. -/
theorem Tallied.promote (tallied : trie.Tallied word occ) {path : List ℕ}
    (inside : path ⊆ trie.globalLru) : (trie.promote path).Tallied word occ where
  seen := by
    rw [dom_promote inside]
    exact tallied.seen
  complete := by
    rw [dom_promote inside]
    exact tallied.complete
  counted := by
    rw [dom_promote inside]
    exact tallied.counted

include formed tallied in
/-- A window is observed. -/
theorem Formed.insertWindow {window : List ℤ} (fits : window.length < trie.capacity) :
    ∃ after word', trie.insertWindow window = .ok after ∧ after.Formed word' ∧
      after.Tallied word' (observe occ window) ∧ after.capacity = trie.capacity ∧
      after.maxTrieDepth = trie.maxTrieDepth ∧
      (window.length ≤ trie.pool.length → after.evicted = trie.evicted) := by
  obtain ⟨ready, made, formed, tallied, capacity, depth, room, unchanged⟩ :=
    formed.makeRoom tallied fits
  have rootWord := formed.word_root
  obtain ⟨walked, path, word', found, formed, extended, tallied, inside, deeper, -, chained⟩ :=
    formed.walk tallied ready.root_mem_dom room
  rw [← extended.root] at chained
  have moved := formed.promote inside deeper chained
  refine ⟨_, word', ?_, moved, (tallied.promote inside).congr moved fun piece notNil => ?_,
    extended.capacity.trans capacity, extended.maxTrieDepth.trans depth, fun enough => ?_⟩
  · rw [Trie.insertWindow, made]
    change (ready.walk ready.root window).bind _ = _
    rw [found]
    rfl
  · rw [tally_eq, rootWord, nil_append, observe]
    simp [notNil]
  · rw [← unchanged enough]
    exact extended.evicted

/-! ### Sequences -/

variable {depth : ℕ}

/-- Windows are no longer than the depth. -/
theorem length_le_of_mem_windows {tokens window : List ℤ} (member : window ∈ windows depth tokens) :
    window.length ≤ depth := by
  obtain ⟨i, -, rfl⟩ := mem_map.mp member
  rw [length_take]
  omega

/-- The pieces at the window starts are the pieces of the sequence that are short enough. -/
theorem exists_window_iff {tokens piece : List ℤ} (notNil : piece ≠ []) :
    (∃ window ∈ windows depth tokens, piece <+: window) ↔
      piece <:+: tokens ∧ piece.length ≤ depth := by
  constructor
  · rintro ⟨window, member, start⟩
    refine ⟨?_, start.length_le.trans (length_le_of_mem_windows member)⟩
    obtain ⟨i, -, rfl⟩ := mem_map.mp member
    exact (start.trans <| take_prefix _ _).isInfix.trans (drop_suffix i tokens).isInfix
  · rintro ⟨⟨before, after, rfl⟩, short⟩
    have positive := length_pos_iff.mpr notNil
    refine ⟨_, mem_map.mpr ⟨before.length, ?_, rfl⟩, ?_⟩
    · rw [mem_range, length_append, length_append]
      omega
    · rw [append_assoc, drop_left, prefix_take_iff]
      refine ⟨prefix_append _ _, ?_⟩
      rw [length_append, length_append]
      omega

variable {sequences : List (List ℤ)}

/-- A piece that occurs is an infix. -/
theorem occurrences_pos_iff {piece : List ℤ} (notNil : piece ≠ []) :
    0 < occurrences depth sequences piece ↔
      ∃ tokens ∈ sequences, piece <:+: tokens ∧ piece.length ≤ depth := by
  rw [occurrences, countP_pos_iff]
  constructor
  · rintro ⟨window, member, start⟩
    obtain ⟨tokens, inside, member⟩ := mem_flatMap.mp member
    exact ⟨tokens, inside, (exists_window_iff notNil).mp ⟨window, member, of_decide_eq_true start⟩⟩
  · rintro ⟨tokens, inside, piece⟩
    obtain ⟨window, member, start⟩ := (exists_window_iff notNil).mpr piece
    exact ⟨window, mem_flatMap.mpr ⟨tokens, inside, member⟩, decide_eq_true start⟩

/-- One sequence more. -/
theorem occurrences_append (depth : ℕ) (sequences : List (List ℤ)) (tokens piece : List ℤ) :
    occurrences depth (sequences ++ [tokens]) piece = occurrences depth sequences piece +
        (windows depth tokens).countP fun window => decide (piece <+: window) := by
  rw [occurrences, flatMap_append, countP_append, flatMap_singleton]
  rfl

section

include formed tallied

/-- Distinct nodes spell distinct pieces. -/
theorem Formed.length_le
    (pieces : Finset (List ℤ)) (within : ∀ piece ≠ [], 0 < occ piece → piece ∈ pieces) :
    trie.globalLru.length ≤ pieces.card := by
  have member : ∀ id ∈ trie.globalLru, id ∈ trie.dom ∧ id ≠ trie.root := fun id listed =>
    ⟨mem_dom.mpr (.inr listed), fun isRoot => formed.root_not_mem (isRoot ▸ listed)⟩
  have nodup : (trie.globalLru.map word).Nodup :=
    formed.lru_nodup.map_on fun one oneMem other otherMem same =>
      formed.word_injective (member one oneMem).1 (member other otherMem).1 same
  have inside : trie.globalLru.map word ⊆ pieces.toList := by
    intro piece listed
    obtain ⟨id, idMem, rfl⟩ := mem_map.mp listed
    obtain ⟨inDom, notRoot⟩ := member id idMem
    exact Finset.mem_toList.mpr (within _
      (fun empty => notRoot ((formed.word_eq_nil_iff inDom).mp empty))
      (tallied.seen id inDom notRoot))
  calc trie.globalLru.length = (trie.globalLru.map word).length := (length_map _).symm
    _ ≤ pieces.toList.length := (nodup.subperm inside).length_le
    _ = pieces.card := Finset.length_toList pieces

/-- The outer loop of `insert` returns. Nothing is squeezed out while the pieces seen so
far and one window fit the pool beside the root. -/
theorem Formed.insertWindows
    {pending : List (List ℤ)} (fits : ∀ window ∈ pending, window.length < trie.capacity) :
    ∃ after word', pending.foldlM Trie.insertWindow trie = .ok after ∧ after.Formed word' ∧
      after.Tallied word' (fun piece =>
        occ piece + pending.countP fun window => decide (piece <+: window)) ∧
      after.capacity = trie.capacity ∧ after.maxTrieDepth = trie.maxTrieDepth ∧
      ∀ pieces : Finset (List ℤ),
        (∀ piece ≠ [], 0 < occ piece + pending.countP (fun window => decide (piece <+: window)) →
          piece ∈ pieces) →
        (∀ window ∈ pending, pieces.card + window.length < trie.capacity) →
        after.evicted = trie.evicted := by
  induction pending generalizing trie word occ with
  | nil => exact ⟨trie, word, rfl, formed, tallied, rfl, rfl, fun _ _ _ => rfl⟩
  | cons window rest ih =>
    obtain ⟨middle, word₁, inserted, formed₁, tallied₁, capacity, depth, evicted⟩ :=
      formed.insertWindow tallied (fits window mem_cons_self)
    obtain ⟨after, word₂, folded, formed₂, tallied₂, capacity', depth', evicted'⟩ :=
      ih formed₁ tallied₁ fun other member => by
        rw [capacity]
        exact fits other (mem_cons_of_mem _ member)
    have total : ∀ piece, observe occ window piece +
        rest.countP (fun window => decide (piece <+: window)) =
        occ piece + (window :: rest).countP fun window => decide (piece <+: window) := by
      intro piece
      rw [countP_cons, observe]
      simp only [decide_eq_true_eq]
      omega
    refine ⟨after, word₂, ?_, formed₂, tallied₂.congr formed₂ fun piece _ => (total piece).symm,
      capacity'.trans capacity, depth'.trans depth, fun pieces within roomy => ?_⟩
    · rw [foldlM_cons, inserted]
      exact folded
    · rw [evicted' pieces
        (fun piece notNil positive => within piece notNil (total piece ▸ positive))
        fun other member => by
          rw [capacity]
          exact roomy other (mem_cons_of_mem _ member)]
      have few := formed.length_le tallied pieces fun piece notNil positive =>
        within piece notNil (positive.trans_le (le_add_right _ _))
      have room := roomy window mem_cons_self
      have whole := formed.length_eq
      omega

end

/-! ### Calls -/

/-- A trie that holds some sequences. -/
structure Sound (capacity depth : ℕ) (sequences : List (List ℤ)) (trie : Trie) : Prop where
  capacity_eq : trie.capacity = capacity
  depth_eq : trie.maxTrieDepth = depth
  formed : ∃ word, trie.Formed word ∧ trie.Tallied word (occurrences depth sequences)
  roomy : ∀ pieces : Finset (List ℤ),
    (∀ piece ≠ [], 0 < occurrences depth sequences piece → piece ∈ pieces) →
    pieces.card + depth < capacity → trie.evicted = 0

/-- All nodes but the root are free after a reset. -/
theorem sound_fill {capacity depth : ℕ} (positive : 0 < capacity)
    (capacity_eq : trie.capacity = capacity) (depth_eq : trie.maxTrieDepth = depth)
    (empty : trie.globalLru = []) (evicted : trie.evicted = 0) :
    ∃ after, trie.fill = .ok after ∧ Sound capacity depth [] after := by
  obtain ⟨root, rest, top⟩ : ∃ root rest, (range capacity).reverse = root :: rest :=
    exists_cons_of_length_pos (by rw [length_reverse, length_range]; exact positive)
  set cleared : Trie :=
    { ({ trie with pool := (range trie.capacity).reverse } : Trie).taken root rest with
      root := root } with clearedEq
  have filled : trie.fill = .ok cleared := by
    rw [fill, getNode_eq (by rw [capacity_eq]; exact top)]
    rfl
  have node : cleared.node root = { version := (trie.node root).version } :=
    (node_taken _ root rest root).trans (if_pos rfl)
  have dom : ∀ id, id ∈ cleared.dom ↔ id = root := by
    intro id
    rw [mem_dom]
    change id = root ∨ id ∈ trie.globalLru ↔ _
    rw [empty]
    simp
  have only : ∀ id ∈ cleared.dom, cleared.node id = { version := (trie.node root).version } := by
    intro id member
    rw [(dom id).mp member]
    exact node
  refine ⟨cleared, filled, capacity_eq, depth_eq, ⟨fun _ => [], ?_, ?_⟩, fun _ _ _ => evicted⟩
  · exact
      { linked :=
          { root_mem := (dom root).mpr rfl
            root_parent := by
              change (cleared.node root).parent = _
              rw [node]
            parent_mem := fun id member notRoot => absurd ((dom id).mp member) notRoot
            child_iff id member key below := by
              change (cleared.node id).child.lookup key = _ ↔
                below ∈ cleared.dom ∧ (cleared.node below).parent = _ ∧ _
              rw [only id member]
              constructor
              · intro found
                cases (Finmap.lookup_empty key).symm.trans found
              · rintro ⟨inside, parent, -⟩
                rw [only below inside] at parent
                cases parent }
        word_root := rfl
        word_eq id member above parent := by
          rw [only id member] at parent
          cases parent
        partition := by
          change (rest ++ root :: trie.globalLru).Perm (range trie.capacity)
          rw [empty, capacity_eq]
          refine (perm_append_singleton root rest).trans ?_
          rw [← top]
          exact reverse_perm _
        indexed id member := by
          have clear := only id member
          exact
            { nodup := by rw [clear]; exact nodup_nil
              mem_lru below := by
                rw [clear]
                refine ⟨fun listed => absurd listed not_mem_nil, ?_⟩
                rintro ⟨key, found⟩
                cases (Finmap.lookup_empty key).symm.trans found
              perm := by rw [clear]
              sorted := by rw [clear]; exact Pairwise.nil }
        parentFirst := by
          change trie.globalLru.Pairwise _
          rw [empty]
          exact Pairwise.nil }
  · exact
      { seen := fun id member notRoot => absurd ((dom id).mp member) notRoot
        complete := fun _ piece _ positive => by cases positive
        counted := fun _ id member notRoot => absurd ((dom id).mp member) notRoot }

variable {capacity : ℕ}

/-- A call keeps the trie sound. -/
theorem Sound.call (sound : Sound capacity depth sequences trie) (deep : depth < capacity)
    (next : TrieCall) :
    ∃ after, trie.call next = .ok after ∧ Sound capacity depth (record sequences next) after := by
  cases next with
  | reset =>
    exact @sound_fill
      { trie with trieEpoch := trie.trieEpoch + 1, globalLru := [], evicted := 0 } capacity depth
      (zero_lt_of_lt deep) sound.capacity_eq sound.depth_eq rfl rfl
  | insert tokens =>
    obtain ⟨word, formed, tallied⟩ := sound.formed
    have fits : ∀ window ∈ windows depth tokens, window.length < trie.capacity := by
      intro window member
      rw [sound.capacity_eq]
      exact (length_le_of_mem_windows member).trans_lt deep
    obtain ⟨after, word', inserted, formed', tallied', capacity_eq, depth_eq, evicted⟩ :=
      formed.insertWindows tallied fits
    refine ⟨after, ?_, capacity_eq.trans sound.capacity_eq, depth_eq.trans sound.depth_eq,
      ⟨word', formed', tallied'.congr formed' fun piece _ => occurrences_append ..⟩, ?_⟩
    · rw [Trie.call, Trie.insert, sound.depth_eq]
      exact inserted
    · intro pieces within roomy
      have total := occurrences_append depth sequences tokens
      rw [evicted pieces (fun piece notNil positive => within piece notNil (by
        rw [record, total]; exact positive)) fun window member => by
          have short := length_le_of_mem_windows member
          rw [sound.capacity_eq]
          omega]
      exact sound.roomy pieces (fun piece notNil positive => within piece notNil (by
        rw [record, total]; omega)) roomy

/-- So do calls. -/
theorem Sound.calls (sound : Sound capacity depth sequences trie) (deep : depth < capacity)
    (calls : List TrieCall) : ∃ after, calls.foldlM Trie.call trie = .ok after ∧
      Sound capacity depth (calls.foldl record sequences) after := by
  induction calls generalizing trie sequences with
  | nil => exact ⟨trie, rfl, sound⟩
  | cons next rest ih =>
    obtain ⟨middle, called, sound⟩ := sound.call deep next
    obtain ⟨after, folded, sound⟩ := ih sound
    refine ⟨after, ?_, sound⟩
    rw [foldlM_cons, called]
    exact folded

/-- Every run returns a sound trie. -/
theorem sound_run {maxTrieDepth : ℕ} (deep : maxTrieDepth < capacity) (calls : List TrieCall) :
    ∃ trie, run capacity maxTrieDepth calls = .ok trie ∧
      Sound capacity maxTrieDepth (inserted calls) trie := by
  obtain ⟨fresh, created, sound⟩ : ∃ fresh, new capacity maxTrieDepth = .ok fresh ∧
      Sound capacity maxTrieDepth [] fresh :=
    sound_fill (zero_lt_of_lt deep) rfl rfl rfl rfl
  obtain ⟨trie, folded, sound⟩ := sound.calls deep calls
  refine ⟨trie, ?_, sound⟩
  rw [run, created]
  exact folded

/-- For every capacity greater than the depth and all calls: no call fails; the free nodes,
the root and the nodes of the list of all nodes are the nodes of the pool, each once; the
parent of a listed node is the root or stands before it; the three indexes of a node hold
the same children; every listed node spells a piece of an inserted sequence that is no
longer than the depth; and if nothing was squeezed out, the paths are exactly these pieces,
and the frequency of a node is the number of window starts its path occurs at, as long as
that is below `2 ^ 31`. -/
theorem trie_structure_and_counts {capacity maxTrieDepth : ℕ} (deep : maxTrieDepth < capacity)
    (calls : List TrieCall) : ∃ trie, run capacity maxTrieDepth calls = .ok trie ∧
      (trie.pool ++ trie.root :: trie.globalLru).Perm (range capacity) ∧
      (∀ id ∈ trie.globalLru, ∃ above, (trie.node id).parent = some above ∧ (above = trie.root ∨
          ∃ front back, trie.globalLru = front ++ id :: back ∧ above ∈ front)) ∧
      (∀ id ∈ trie.root :: trie.globalLru, (trie.node id).lru.Nodup ∧
        (trie.node id).sortedChildren.Perm (trie.node id).lru ∧
        ∀ below, below ∈ (trie.node id).lru ↔
          ∃ token, (trie.node id).child.lookup token = some below) ∧
      (∀ id ∈ trie.globalLru, ∃ path, trie.find trie.root path = some id) ∧
      (∀ path ≠ [], ∀ id, trie.find trie.root path = some id → path.length ≤ maxTrieDepth ∧
        ∃ tokens ∈ inserted calls, path <:+: tokens) ∧
      (trie.evicted = 0 → ∀ path ≠ [], ((∃ id, trie.find trie.root path = some id) ↔
          ∃ tokens ∈ inserted calls, path <:+: tokens ∧ path.length ≤ maxTrieDepth) ∧
        ∀ id, trie.find trie.root path = some id →
          occurrences maxTrieDepth (inserted calls) path < 2 ^ 31 →
            (trie.node id).freq.toInt = occurrences maxTrieDepth (inserted calls) path) := by
  obtain ⟨trie, ran, sound⟩ := sound_run deep calls
  obtain ⟨word, formed, tallied⟩ := sound.formed
  have seen : ∀ path ≠ [], ∀ id, trie.find trie.root path = some id →
      id ∈ trie.dom ∧ id ≠ trie.root ∧ word id = path := by
    intro path notNil id found
    obtain ⟨inside, rfl⟩ := formed.find_iff.mp found
    exact ⟨inside, fun isRoot => notNil ((formed.word_eq_nil_iff inside).mpr isRoot), rfl⟩
  refine ⟨trie, ran, sound.capacity_eq ▸ formed.partition, fun id => formed.parent_before, ?_, ?_,
    ?_, ?_⟩
  · intro id member
    have indexed := formed.indexed id (mem_toFinset.mpr member)
    exact ⟨indexed.nodup, indexed.perm, indexed.mem_lru⟩
  · intro id member
    exact ⟨word id, formed.find_word (mem_dom.mpr (Or.inr member))⟩
  · intro path notNil id found
    obtain ⟨inside, notRoot, rfl⟩ := seen path notNil id found
    obtain ⟨tokens, member, piece, short⟩ :=
      (occurrences_pos_iff notNil).mp (tallied.seen id inside notRoot)
    exact ⟨short, tokens, member, piece⟩
  · intro none path notNil
    rw [← occurrences_pos_iff notNil]
    refine ⟨⟨?_, ?_⟩, ?_⟩
    · rintro ⟨id, found⟩
      obtain ⟨inside, notRoot, rfl⟩ := seen path notNil id found
      exact tallied.seen id inside notRoot
    · intro positive
      obtain ⟨id, inside, spelled⟩ := tallied.complete none path notNil positive
      exact ⟨id, formed.find_iff.mpr ⟨inside, spelled⟩⟩
    · intro id found small
      obtain ⟨inside, notRoot, rfl⟩ := seen path notNil id found
      rw [tallied.counted none id inside notRoot, Int32.toInt_ofNat_of_lt small]

/-- A token that two windows start with, after a reset. -/
theorem trie_structure_and_counts_twice :
    ∃ trie, run 4 2 [.insert [7], .reset, .insert [5, 5]] = .ok trie ∧
      ∃ id, trie.find trie.root [5] = some id ∧ (trie.node id).freq.toInt = 2 := by
  obtain ⟨trie, ran, -, -, -, -, -, counts⟩ := trie_structure_and_counts
    (show 2 < 4 by decide) [.insert [7], .reset, .insert [5, 5]]
  have kept : (run 4 2 [.insert [7], .reset, .insert [5, 5]]).map (·.evicted) = .ok 0 := by
    decide +kernel
  rw [ran] at kept
  obtain ⟨present, counted⟩ := counts (Except.ok.inj kept) [5] (cons_ne_nil _ _)
  obtain ⟨id, found⟩ := present.mpr ⟨[5, 5], by decide, by decide, by decide⟩
  exact ⟨trie, ran, id, found, counted id found (by decide)⟩

/-! ### A counter that is too small -/

/-- Every window of a repeated token starts with it. -/
theorem occurrences_replicate (count : ℕ) : occurrences 2 [replicate count 0] [0] = count := by
  have all : ∀ window ∈ windows 2 (replicate count 0), decide ([0] <+: window) = true := by
    intro window member
    obtain ⟨i, inside, rfl⟩ := mem_map.mp member
    rw [mem_range, length_replicate] at inside
    rw [length_replicate, drop_replicate, take_replicate]
    obtain ⟨rest, more⟩ := Nat.exists_eq_add_of_lt
      (show 0 < min (min (count - i) 2) (count - i) by omega)
    rw [more, replicate_succ]
    simp
  rw [occurrences, flatMap_singleton, countP_eq_length.mpr all, windows,
    length_map, length_range, length_replicate]

/-- One token inserted again and again stays in a trie of five nodes. -/
theorem run_replicate {count : ℕ} (positive : 0 < count) :
    ∃ trie id, run 5 2 [.insert (replicate count 0)] = .ok trie ∧ trie.evicted = 0 ∧
      trie.find trie.root [0] = some id := by
  obtain ⟨trie, ran, sound⟩ := sound_run (show 2 < 5 by decide) [.insert (replicate count 0)]
  have evicted : trie.evicted = 0 := by
    refine sound.roomy {[0], [0, 0]} (fun piece notNil seen => ?_) (by decide)
    obtain ⟨tokens, member, inner, short⟩ := (occurrences_pos_iff notNil).mp seen
    obtain rfl := mem_singleton.mp member
    have zeros : piece = replicate piece.length 0 :=
      eq_replicate_iff.mpr ⟨rfl, fun _ inside => eq_of_mem_replicate (inner.subset inside)⟩
    have some := length_pos_iff.mpr notNil
    obtain one | two : piece.length = 1 ∨ piece.length = 2 := by omega
    · rw [zeros, one]
      decide
    · rw [zeros, two]
      decide
  obtain ⟨word, formed, tallied⟩ := sound.formed
  obtain ⟨id, inside, spelled⟩ := tallied.complete evicted [0] (cons_ne_nil _ _) (by
    rw [show inserted [.insert (replicate count 0)] = [replicate count 0] from rfl,
      occurrences_replicate]
    exact positive)
  exact ⟨trie, id, ran, evicted, formed.find_iff.mpr ⟨inside, spelled⟩⟩

/-- After `2 ^ 31` windows that start with the same token nothing was squeezed out, but the
frequency of its node is not the number of these windows. -/
theorem freq_overflows :
    ∃ trie id, run 5 2 [.insert (replicate (2 ^ 31) 0)] = .ok trie ∧ trie.evicted = 0 ∧
      trie.find trie.root [0] = some id ∧
      (trie.node id).freq.toInt ≠ occurrences 2 [replicate (2 ^ 31) 0] [0] := by
  obtain ⟨trie, id, ran, evicted, found⟩ := run_replicate (show 0 < 2 ^ 31 by decide)
  refine ⟨trie, id, ran, evicted, found, ?_⟩
  rw [occurrences_replicate]
  have bound := (trie.node id).freq.toInt_lt
  push_cast
  omega

end Trie

end AvaServe.Ngram
