import Mathlib
import AvaServe.Foundation.Path
import AvaServe.Foundation.ScatterWrites

/-!
# Rounds of matched messages

Several ranks exchange messages in rounds. In a round a rank issues sends, which read
its memory, and receives, which write its buffer, and waits for all of them. The `k`-th
send from one rank to another is paired with the `k`-th receive of the other from the
first, and the pair moves at any time after both were issued. After its last round a
rank copies parts of its buffer into its memory.

When every round has as many sends from one rank to another as the other has receives
from it, no run gets stuck, every message carries what the memory held at the start, and
the receives of a rank are complete before it copies.
-/

namespace AvaServe.Foundation

open List Function

/-- The plan of an exchange. `sends a b j` are the sends of `a` to `b` in round `j` with
the addresses they read, `recvs b a j` the receives of `b` from `a` with the addresses
they write. -/
structure Exchange (Rank Addr Label : Type*) where
  rounds : ℕ
  sends : Rank → Rank → ℕ → List (Label × Addr)
  recvs : Rank → Rank → ℕ → List (Label × Addr)
  copies : Rank → List (Addr × Addr)

namespace Exchange

variable {Rank Addr Label Value : Type*}

/-- The sends of the first rounds. -/
def sendsUpTo (plan : Exchange Rank Addr Label) (a b : Rank) (count : ℕ) : List (Label × Addr) :=
  (range count).flatMap (plan.sends a b)

/-- The receives of the first rounds. -/
def recvsUpTo (plan : Exchange Rank Addr Label) (b a : Rank) (count : ℕ) : List (Label × Addr) :=
  (range count).flatMap (plan.recvs b a)

/-- In every round the sends from one rank to another are the receives of the other from
the first, in the same order. -/
def Matched (plan : Exchange Rank Addr Label) : Prop :=
  ∀ a b round, (plan.sends a b round).map Prod.fst = (plan.recvs b a round).map Prod.fst

/-- No address of a buffer is written twice. -/
def WritesOnce (plan : Exchange Rank Addr Label) : Prop :=
  ∀ b a (k : ℕ) a' (k' : ℕ) (first second : Label × Addr),
      (plan.recvsUpTo b a plan.rounds)[k]? = some first →
    (plan.recvsUpTo b a' plan.rounds)[k']? = some second → first.2 = second.2 → a = a' ∧ k = k'

variable {plan : Exchange Rank Addr Label}

/-- What stands in the first part of a list stands in the list. -/
theorem getElem?_of_starts {α : Type*} {few many : List α} (starts : few <+: many) {k : ℕ} {x : α}
    (found : few[k]? = some x) : many[k]? = some x := by
  obtain ⟨more, rfl⟩ := starts
  rw [getElem?_append_left (List.getElem?_eq_some_iff.mp found).1]
  exact found

/-- Fewer rounds are a beginning of more. -/
theorem flatMap_range_starts {α : Type*} (f : ℕ → List α) {few many : ℕ} (le : few ≤ many) :
    (range few).flatMap f <+: (range many).flatMap f := by
  obtain ⟨more, rfl⟩ := Nat.exists_eq_add_of_le le
  rw [range_add, flatMap_append]
  exact prefix_append _ _

/-- So are their sends. -/
theorem sendsUpTo_add (plan : Exchange Rank Addr Label) (a b : Rank) {few many : ℕ}
    (le : few ≤ many) : plan.sendsUpTo a b few <+: plan.sendsUpTo a b many :=
  flatMap_range_starts _ le

/-- So are their receives. -/
theorem recvsUpTo_add (plan : Exchange Rank Addr Label) (b a : Rank) {few many : ℕ}
    (le : few ≤ many) : plan.recvsUpTo b a few <+: plan.recvsUpTo b a many :=
  flatMap_range_starts _ le

/-- The labels agree up to a round. -/
theorem Matched.upTo (matched : plan.Matched) (a b : Rank) (count : ℕ) :
    (plan.sendsUpTo a b count).map Prod.fst = (plan.recvsUpTo b a count).map Prod.fst := by
  unfold sendsUpTo recvsUpTo
  rw [map_flatMap, map_flatMap]
  exact congrArg ((range count).flatMap) (funext fun round => matched a b round)

/-- So do the numbers of messages. -/
theorem Matched.length_eq (matched : plan.Matched) (a b : Rank) (count : ℕ) :
    (plan.sendsUpTo a b count).length = (plan.recvsUpTo b a count).length := by
  have lengths := congrArg length (matched.upTo a b count)
  rwa [length_map, length_map] at lengths

/-- Where a run stands. `moved a b` counts the messages that moved from `a` to `b`. -/
structure State (Rank Addr Value : Type*) where
  round : Rank → ℕ
  moved : Rank → Rank → ℕ
  copied : Rank → ℕ
  memory : Rank → Addr → Value
  buffer : Rank → Addr → Value

/-- All ranks at the start of their first round. -/
def start (memory buffer : Rank → Addr → Value) : State Rank Addr Value :=
  { round := fun _ => 0
    moved := fun _ _ => 0
    copied := fun _ => 0
    memory := memory
    buffer := buffer }

section Run

variable [DecidableEq Rank] [DecidableEq Addr]

/-- What happens in a run. -/
inductive Event (Rank : Type*)
  | transfer (a b : Rank)
  | advance (a : Rank)
  | copy (a : Rank)

/-- A message moves when both sides have issued it; a rank goes on when everything it
issued has moved; a rank past its last round copies. -/
inductive Step (plan : Exchange Rank Addr Label) :
    State Rank Addr Value → Event Rank → State Rank Addr Value → Prop
  | transfer (state : State Rank Addr Value) (a b : Rank) (send recv : Label × Addr)
      (sent : (plan.sendsUpTo a b (min (state.round a + 1) plan.rounds))[state.moved a b]? =
        some send)
      (posted : (plan.recvsUpTo b a (min (state.round b + 1) plan.rounds))[state.moved a b]? =
        some recv) :
      Step plan state (.transfer a b)
        { state with
          moved := update state.moved a
            (update (state.moved a) b (state.moved a b + 1))
          buffer := update state.buffer b
            (update (state.buffer b) recv.2 (state.memory a send.2)) }
  | advance (state : State Rank Addr Value) (a : Rank) (more : state.round a < plan.rounds)
      (sent : ∀ b, (plan.sendsUpTo a b (state.round a + 1)).length ≤ state.moved a b)
      (received : ∀ b, (plan.recvsUpTo a b (state.round a + 1)).length ≤ state.moved b a) :
      Step plan state (.advance a)
        { state with round := update state.round a (state.round a + 1) }
  | copy (state : State Rank Addr Value) (a : Rank) (pair : Addr × Addr)
      (past : state.round a = plan.rounds)
      (next : (plan.copies a)[state.copied a]? = some pair) :
      Step plan state (.copy a)
        { state with
          copied := update state.copied a (state.copied a + 1)
          memory := update state.memory a
            (update (state.memory a) pair.2 (state.buffer a pair.1)) }

/-- Every rank has done all its rounds and copies. -/
def Finished (plan : Exchange Rank Addr Label) (state : State Rank Addr Value) : Prop :=
  ∀ a, state.round a = plan.rounds ∧ state.copied a = (plan.copies a).length

/-- Copying parts of a buffer into a memory, one by one. -/
def runCopies (copies : List (Addr × Addr)) (buffer memory : Addr → Value) : Addr → Value :=
  copies.foldl (fun memory pair => update memory pair.2 (buffer pair.1)) memory

/-! ### What every run keeps -/

/-- A run that started with `memory` and `buffer`. -/
structure Steady (plan : Exchange Rank Addr Label) (memory buffer : Rank → Addr → Value)
    (state : State Rank Addr Value) : Prop where
  round_le : ∀ a, state.round a ≤ plan.rounds
  sent_le : ∀ a b,
    state.moved a b ≤ (plan.sendsUpTo a b (min (state.round a + 1) plan.rounds)).length
  posted_le : ∀ a b,
    state.moved a b ≤ (plan.recvsUpTo b a (min (state.round b + 1) plan.rounds)).length
  le_sent : ∀ a b, (plan.sendsUpTo a b (state.round a)).length ≤ state.moved a b
  le_posted : ∀ a b, (plan.recvsUpTo b a (state.round b)).length ≤ state.moved a b
  copying : ∀ a, 0 < state.copied a → state.round a = plan.rounds
  copied_le : ∀ a, state.copied a ≤ (plan.copies a).length
  memory_eq : ∀ a, state.memory a =
    runCopies ((plan.copies a).take (state.copied a)) (state.buffer a) (memory a)
  received : ∀ a b k (send recv : Label × Addr), k < state.moved a b →
    (plan.sendsUpTo a b plan.rounds)[k]? = some send →
    (plan.recvsUpTo b a plan.rounds)[k]? = some recv →
    state.buffer b recv.2 = memory a send.2
  untouched : ∀ b addr, (∀ a k (recv : Label × Addr), k < state.moved a b →
    (plan.recvsUpTo b a plan.rounds)[k]? = some recv → recv.2 ≠ addr) →
    state.buffer b addr = buffer b addr

omit [DecidableEq Rank] in
/-- The start is steady. -/
theorem steady_start (plan : Exchange Rank Addr Label) (memory buffer : Rank → Addr → Value) :
    Steady plan memory buffer (start memory buffer) where
  round_le := fun _ => Nat.zero_le _
  sent_le := fun _ _ => Nat.zero_le _
  posted_le := fun _ _ => Nat.zero_le _
  le_sent := fun _ _ => le_refl 0
  le_posted := fun _ _ => le_refl 0
  copying := fun _ positive => absurd positive (lt_irrefl 0)
  copied_le := fun _ => Nat.zero_le _
  memory_eq := fun _ => rfl
  received := fun _ _ _ _ _ less => absurd less (Nat.not_lt_zero _)
  untouched := fun _ _ _ => rfl

variable {copies : List (Addr × Addr)} {events : List (Event Rank)} {pair : Addr × Addr}
  {event : Event Rank}

section Steady

variable {memory buffer : Rank → Addr → Value} {state next : State Rank Addr Value}

variable (steady : Steady plan memory buffer state) {a b : Rank}

section

include steady

omit [DecidableEq Rank] in
/-- A message that can move leaves a rank that has not copied yet. -/
theorem Steady.memory_of_sent
    (less : state.moved a b < (plan.sendsUpTo a b (min (state.round a + 1) plan.rounds)).length) :
    state.memory a = memory a := by
  have running : state.round a ≠ plan.rounds := by
    intro done
    have all := steady.le_sent a b
    rw [done, min_eq_right (Nat.le_succ _)] at less
    rw [done] at all
    omega
  have fresh : state.copied a = 0 := by
    by_contra some
    exact running (steady.copying a (pos_of_ne_zero some))
  rw [steady.memory_eq a, fresh]
  rfl

omit [DecidableEq Rank] in
/-- A message that can move goes to a rank that has not copied yet. -/
theorem Steady.fresh_of_posted
    (less : state.moved a b < (plan.recvsUpTo b a (min (state.round b + 1) plan.rounds)).length) :
    state.copied b = 0 := by
  by_contra some
  have done := steady.copying b (pos_of_ne_zero some)
  have all := steady.le_posted a b
  rw [done, min_eq_right (Nat.le_succ _)] at less
  rw [done] at all
  omega

end

/-- One message more on one channel. -/
theorem moved_update (moved : Rank → Rank → ℕ) (a b c d : Rank) :
    update moved a (update (moved a) b (moved a b + 1)) c d =
      if c = a ∧ d = b then moved c d + 1 else moved c d := by
  by_cases same : c = a
  · subst same
    rw [update_self]
    by_cases sameB : d = b
    · subst sameB
      rw [update_self, if_pos ⟨rfl, rfl⟩]
    · rw [update_of_ne sameB, if_neg fun both => sameB both.2]
  · rw [update_of_ne same, if_neg fun both => same both.1]

section

include steady

/-- A transfer keeps it steady. -/
theorem Steady.transfer (once : plan.WritesOnce) {send recv : Label × Addr}
    (sent : (plan.sendsUpTo a b (min (state.round a + 1) plan.rounds))[state.moved a b]? =
      some send)
    (posted : (plan.recvsUpTo b a (min (state.round b + 1) plan.rounds))[state.moved a b]? =
      some recv) : Steady plan memory buffer
      { state with
        moved := update state.moved a
          (update (state.moved a) b (state.moved a b + 1))
        buffer := update state.buffer b
          (update (state.buffer b) recv.2 (state.memory a send.2)) } := by
  obtain ⟨sentLess, -⟩ := List.getElem?_eq_some_iff.mp sent
  obtain ⟨postedLess, -⟩ := List.getElem?_eq_some_iff.mp posted
  have kept := steady.memory_of_sent sentLess
  have freshB := steady.fresh_of_posted postedLess
  have sentAll : (plan.sendsUpTo a b plan.rounds)[state.moved a b]? = some send :=
    getElem?_of_starts (sendsUpTo_add plan a b (min_le_right _ _)) sent
  have postedAll : (plan.recvsUpTo b a plan.rounds)[state.moved a b]? = some recv :=
    getElem?_of_starts (recvsUpTo_add plan b a (min_le_right _ _)) posted
  have grown : ∀ c d, state.moved c d ≤ update state.moved a
      (update (state.moved a) b (state.moved a b + 1)) c d := by
    intro c d
    rw [moved_update]
    split <;> omega
  exact
    { steady with
      sent_le c d := by
        dsimp only
        rw [moved_update]
        split
        next same =>
          rw [same.1, same.2]
          exact sentLess
        · exact steady.sent_le c d
      posted_le c d := by
        dsimp only
        rw [moved_update]
        split
        next same =>
          rw [same.1, same.2]
          exact postedLess
        · exact steady.posted_le c d
      le_sent := fun c d => (steady.le_sent c d).trans (grown c d)
      le_posted := fun c d => (steady.le_posted c d).trans (grown c d)
      memory_eq c := by
        dsimp only
        by_cases same : c = b
        · subst same
          rw [steady.memory_eq c, freshB]
          rfl
        · rw [update_of_ne same]
          exact steady.memory_eq c
      received c d k other target less otherSent otherPosted := by
        dsimp only at less ⊢
        rw [moved_update] at less
        by_cases latest : (c = a ∧ d = b) ∧ k = state.moved a b
        · obtain ⟨⟨rfl, rfl⟩, rfl⟩ := latest
          obtain rfl := Option.some.inj (sentAll.symm.trans otherSent)
          obtain rfl := Option.some.inj (postedAll.symm.trans otherPosted)
          rw [update_self, update_self, kept]
        · have earlier : k < state.moved c d := by
            split at less
            next same =>
              have notLatest : k ≠ state.moved a b := fun equal => latest ⟨same, equal⟩
              rw [same.1, same.2] at less ⊢
              omega
            · exact less
          have before := steady.received c d k other target earlier otherSent otherPosted
          by_cases same : d = b
          · subst same
            rw [update_self, update_of_ne, before]
            intro equal
            obtain ⟨rfl, rfl⟩ := once d c k a _ target recv otherPosted postedAll equal
            exact latest ⟨⟨rfl, rfl⟩, rfl⟩
          · rw [update_of_ne same, before]
      untouched d addr clear := by
        dsimp only at clear ⊢
        have before := steady.untouched d addr fun c k target less =>
          clear c k target (less.trans_le (grown c d))
        by_cases same : d = b
        · subst same
          rw [update_self, update_of_ne, before]
          refine Ne.symm (clear a (state.moved a d) recv ?_ postedAll)
          rw [moved_update, if_pos ⟨rfl, rfl⟩]
          exact Nat.lt_succ_self _
        · rw [update_of_ne same, before] }

/-- So does the next round. -/
theorem Steady.advance (more : state.round a < plan.rounds)
    (sent : ∀ b, (plan.sendsUpTo a b (state.round a + 1)).length ≤ state.moved a b)
    (received : ∀ b, (plan.recvsUpTo a b (state.round a + 1)).length ≤ state.moved b a) :
    Steady plan memory buffer
      { state with round := update state.round a (state.round a + 1) } := by
  have grown : ∀ c, state.round c ≤ update state.round a (state.round a + 1) c :=
    (forall_update_iff _ fun c round => state.round c ≤ round).mpr
      ⟨Nat.le_succ _, fun _ _ => le_rfl⟩
  have window : ∀ c, min (state.round c + 1) plan.rounds ≤
      min (update state.round a (state.round a + 1) c + 1) plan.rounds :=
    fun c => min_le_min_right _ (Nat.succ_le_succ (grown c))
  exact
    { steady with
      round_le := (forall_update_iff _ fun _ round => round ≤ plan.rounds).mpr
        ⟨more, fun c _ => steady.round_le c⟩
      sent_le := fun c d => (steady.sent_le c d).trans (sendsUpTo_add plan c d (window c)).length_le
      posted_le := fun c d =>
        (steady.posted_le c d).trans (recvsUpTo_add plan d c (window d)).length_le
      le_sent := (forall_update_iff _ fun c round =>
        ∀ d, (plan.sendsUpTo c d round).length ≤ state.moved c d).mpr
          ⟨sent, fun c _ => steady.le_sent c⟩
      le_posted c := (forall_update_iff _ fun d round =>
        (plan.recvsUpTo d c round).length ≤ state.moved c d).mpr
          ⟨received c, fun d _ => steady.le_posted c d⟩
      copying c positive := by
        dsimp only
        have done := steady.copying c positive
        rw [update_of_ne, done]
        rintro rfl
        omega }

end

/-- One copy more. -/
theorem runCopies_take_succ {count : ℕ} (next : copies[count]? = some pair)
    (buffer memory : Addr → Value) : runCopies (copies.take (count + 1)) buffer memory =
      update (runCopies (copies.take count) buffer memory) pair.2 (buffer pair.1) := by
  obtain ⟨less, rfl⟩ := List.getElem?_eq_some_iff.mp next
  unfold runCopies
  rw [take_add_one, getElem?_eq_getElem less, foldl_append]
  rfl

section

variable (steady : Steady plan memory buffer state)
include steady

/-- So does a copy. -/
theorem Steady.copy (past : state.round a = plan.rounds)
    (next : (plan.copies a)[state.copied a]? = some pair) : Steady plan memory buffer
      { state with
        copied := update state.copied a (state.copied a + 1)
        memory := update state.memory a
          (update (state.memory a) pair.2 (state.buffer a pair.1)) } := by
  exact
    { steady with
      copying c positive := by
        dsimp only at positive
        by_cases same : c = a
        · rw [same, past]
        · rw [update_of_ne same] at positive
          exact steady.copying c positive
      copied_le := (forall_update_iff _ fun c copied => copied ≤ (plan.copies c).length).mpr
        ⟨(List.getElem?_eq_some_iff.mp next).1, fun c _ => steady.copied_le c⟩
      memory_eq c := by
        dsimp only
        by_cases same : c = a
        · subst same
          rw [update_self, update_self, runCopies_take_succ next, ← steady.memory_eq c]
        · rw [update_of_ne same, update_of_ne same]
          exact steady.memory_eq c }

/-- So does every step. -/
theorem Steady.step (once : plan.WritesOnce) (step : Step plan state event next) :
    Steady plan memory buffer next := by
  cases step with
  | transfer a b send recv sent posted => exact steady.transfer once sent posted
  | advance a more sent received => exact steady.advance more sent received
  | copy a pair past next => exact steady.copy past next

omit [DecidableEq Rank] in
/-- A rank past its last round has sent and received everything. -/
theorem Steady.complete {a b : Rank} (past : state.round b = plan.rounds) :
    (plan.recvsUpTo b a plan.rounds).length ≤ state.moved a b := by
  have all := steady.le_posted a b
  rwa [past] at all

omit [DecidableEq Rank] in
/-- At the end all copies are made. -/
theorem Steady.memory_of_finished (finished : plan.Finished state) (a : Rank) :
    state.memory a = runCopies (plan.copies a) (state.buffer a) (memory a) := by
  rw [steady.memory_eq a, (finished a).2, take_length]

end

section Progress

variable [Fintype Rank]

/-- While a rank is not done, something can happen: the rank that is furthest behind
waits for messages that both sides have issued. -/
theorem Steady.progress (steady : Steady plan memory buffer state) (matched : plan.Matched)
    (unfinished : ¬plan.Finished state) :
    ∃ (event : Event Rank) (next : State Rank Addr Value), Step plan state event next := by
  by_cases running : ∃ c, state.round c < plan.rounds
  · obtain ⟨c, less⟩ := running
    obtain ⟨a, -, behind⟩ := Finset.exists_min_image Finset.univ state.round ⟨c, Finset.mem_univ c⟩
    have more : state.round a < plan.rounds := (behind c (Finset.mem_univ c)).trans_lt less
    have issued : ∀ b, state.round a + 1 ≤ min (state.round b + 1) plan.rounds := fun b =>
      le_min (Nat.succ_le_succ (behind b (Finset.mem_univ b))) more
    have movable : ∀ from' to', (state.round a + 1 ≤ min (state.round from' + 1) plan.rounds) →
        (state.round a + 1 ≤ min (state.round to' + 1) plan.rounds) →
        state.moved from' to' < (plan.sendsUpTo from' to' (state.round a + 1)).length →
        ∃ (event : Event Rank) (next : State Rank Addr Value), Step plan state event next := by
      intro source target sourceIssued targetIssued less
      have posted : state.moved source target <
          (plan.recvsUpTo target source (state.round a + 1)).length := by
        rw [← matched.length_eq]
        exact less
      exact ⟨_, _, Step.transfer state source target _ _
        (getElem?_of_starts (sendsUpTo_add plan source target sourceIssued)
          (getElem?_eq_getElem less))
        (getElem?_of_starts (recvsUpTo_add plan target source targetIssued)
          (getElem?_eq_getElem posted))⟩
    by_cases sending : ∃ b, state.moved a b < (plan.sendsUpTo a b (state.round a + 1)).length
    · obtain ⟨b, pending⟩ := sending
      exact movable a b (issued a) (issued b) pending
    by_cases receiving : ∃ b, state.moved b a < (plan.recvsUpTo a b (state.round a + 1)).length
    · obtain ⟨b, pending⟩ := receiving
      rw [← matched.length_eq] at pending
      exact movable b a (issued b) (issued a) pending
    exact ⟨_, _, Step.advance state a more (fun b => not_lt.mp fun pending => sending ⟨b, pending⟩)
      fun b => not_lt.mp fun pending => receiving ⟨b, pending⟩⟩
  · have past : ∀ a, state.round a = plan.rounds := fun a =>
      le_antisymm (steady.round_le a) (not_lt.mp fun less => running ⟨a, less⟩)
    obtain ⟨a, open'⟩ : ∃ a, state.copied a ≠ (plan.copies a).length := by
      by_contra none
      exact unfinished fun a => ⟨past a, not_not.mp fun differs => none ⟨a, differs⟩⟩
    have less : state.copied a < (plan.copies a).length := lt_of_le_of_ne (steady.copied_le a) open'
    exact ⟨_, _, Step.copy state a _ (past a) (getElem?_eq_getElem less)⟩

/-- What is left to do. -/
def potential (plan : Exchange Rank Addr Label) (state : State Rank Addr Value) : ℕ :=
  ∑ a, (plan.rounds - state.round a) + ∑ pair : Rank × Rank,
      ((plan.sendsUpTo pair.1 pair.2 plan.rounds).length - state.moved pair.1 pair.2) +
    ∑ a, ((plan.copies a).length - state.copied a)

/-- Counting up at one rank leaves less up to the bounds. -/
theorem sum_sub_update_lt {count bound : Rank → ℕ} {a : Rank} (less : count a < bound a) :
    ∑ c, (bound c - update count a (count a + 1) c) < ∑ c, (bound c - count c) := by
  refine Finset.sum_lt_sum (fun c _ => ?_) ⟨a, Finset.mem_univ _, ?_⟩
  · rw [update_apply]
    split
    next same => rw [same]; omega
    next => exact le_rfl
  · rw [update_self]
    omega

/-- Every step leaves less to do. -/
theorem potential_step (step : Step plan state event next) :
    1 + plan.potential next ≤ plan.potential state := by
  unfold potential
  cases step with
  | transfer a b send recv sent posted =>
    have less := (List.getElem?_eq_some_iff.mp
      (getElem?_of_starts (sendsUpTo_add plan a b (min_le_right _ _)) sent)).1
    have lower : ∑ pair : Rank × Rank, ((plan.sendsUpTo pair.1 pair.2 plan.rounds).length -
          update state.moved a
            (update (state.moved a) b (state.moved a b + 1)) pair.1 pair.2) <
        ∑ pair : Rank × Rank,
          ((plan.sendsUpTo pair.1 pair.2 plan.rounds).length - state.moved pair.1 pair.2) := by
      refine Finset.sum_lt_sum (fun pair _ => ?_) ⟨(a, b), Finset.mem_univ _, ?_⟩
      · rw [moved_update]
        split <;> omega
      · rw [moved_update, if_pos ⟨rfl, rfl⟩]
        dsimp only
        omega
    dsimp only
    omega
  | advance a more sent received =>
    have lower := @sum_sub_update_lt _ _ _ _ (fun _ => plan.rounds) _ more
    dsimp only
    omega
  | copy a pair past next =>
    have lower := @sum_sub_update_lt _ _ _ _ (fun c => (plan.copies c).length) _
      (List.getElem?_eq_some_iff.mp next).1
    dsimp only
    omega

/-- A run has at most as many steps as there is to do at its start. -/
theorem length_le_potential {source target : State Rank Addr Value}
    (path : Path (Step plan) source events target) : events.length ≤ plan.potential source := by
  have bound := path.countP_le_potential (fun _ => True) (fun _ => true) plan.potential
    (fun _ _ _ _ _ => trivial) (fun _ _ _ step _ => potential_step step) trivial
  rwa [countP_true] at bound

/-- Some run does everything. -/
theorem Steady.exists_finished (steady : Steady plan memory buffer state) (matched : plan.Matched)
    (once : plan.WritesOnce) : ∃ events target, Path (Step plan) state events target ∧
      Steady plan memory buffer target ∧ plan.Finished target := by
  obtain ⟨events, target, path, -, final⟩ := Path.exists_of_measure (Steady plan memory buffer)
    plan.Finished (fun _ => True) plan.potential
    (fun reached holds unfinished => by
      obtain ⟨event, next, step⟩ := holds.progress matched unfinished
      have lower := potential_step step
      exact ⟨event, next, step, trivial, holds.step once step, by omega⟩) steady
  exact ⟨events, target, path, final⟩

end Progress

/-- Every run is steady. -/
theorem Steady.path (once : plan.WritesOnce)
    (path : Path (Step plan) (start memory buffer) events state) :
    Steady plan memory buffer state :=
  path.invariant (Steady plan memory buffer) (fun _ _ _ step steady => steady.step once step)
    (steady_start plan memory buffer)

/-- The buffer of a rank past its last round stays as it is. -/
theorem Steady.buffer_fixed (once : plan.WritesOnce) {later : State Rank Addr Value}
    (steady : Steady plan memory buffer state) (path : Path (Step plan) state events later)
    (past : state.round a = plan.rounds) : later.buffer a = state.buffer a := by
  have kept := path.invariant
    (fun reached => Steady plan memory buffer reached ∧ reached.round a = plan.rounds ∧
      reached.buffer a = state.buffer a) ?_ ⟨steady, past, rfl⟩
  · exact kept.2.2
  intro before event after step holds
  obtain ⟨steady, past, same⟩ := holds
  refine ⟨steady.step once step, ?_⟩
  cases step with
  | transfer c b send recv sent posted =>
    refine ⟨past, ?_⟩
    dsimp only
    rw [update_of_ne, same]
    rintro rfl
    have less := (List.getElem?_eq_some_iff.mp posted).1
    have all := @Steady.complete _ _ _ _ _ _ _ _ _ steady c a past
    rw [past, min_eq_right (Nat.le_succ _)] at less
    omega
  | advance c more sent received =>
    dsimp only
    rw [update_of_ne]
    · exact ⟨past, same⟩
    · rintro rfl
      omega
  | copy c pair past' next => exact ⟨past, same⟩

end Steady

/-! ### Copies -/

/-- Copies are a scatter. -/
theorem runCopies_eq_scatter (copies : List (Addr × Addr)) (buffer memory : Addr → Value) :
    runCopies copies buffer memory =
      scatter memory (copies.map fun pair => (pair.2, buffer pair.1)) := by
  rw [scatter, foldl_map]
  rfl

/-- Other addresses stay. -/
theorem runCopies_of_not_mem {addr : Addr} (absent : addr ∉ copies.map Prod.snd)
    (buffer memory : Addr → Value) : runCopies copies buffer memory addr = memory addr := by
  rw [runCopies_eq_scatter]
  exact scatter_of_notMem (by rwa [map_map])

/-- A copied address. -/
theorem runCopies_of_mem (nodup : (copies.map Prod.snd).Nodup) (member : pair ∈ copies)
    (buffer memory : Addr → Value) : runCopies copies buffer memory pair.2 = buffer pair.1 := by
  rw [runCopies_eq_scatter]
  exact scatter_of_mem (by rwa [map_map]) (mem_map_of_mem member)

end Run

end Exchange

end AvaServe.Foundation
