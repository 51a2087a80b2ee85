import Mathlib

/-!
# Binary heaps in lists

The array heap of Python's `heapq` over an arbitrary comparison: `heapify`,
`heappush` and `heappop`, with the sifts that move a hole and fill it last. Every
operation only rearranges the entries, whatever the comparison is.
-/

namespace AvaServe.Foundation.BinaryHeap

variable {α : Type*} [Inhabited α] (lt : α → α → Bool)

/-- `_siftdown`: move `newitem` from the hole at `pos` towards `startpos` while it is
smaller than the parent. -/
def siftdown (startpos : ℕ) (newitem : α) : ℕ → ℕ → List α → List α
  | 0, pos, heap => heap.set pos newitem
  | fuel + 1, pos, heap =>
    if startpos < pos then
      let parentpos := (pos - 1) / 2
      let parent := heap.getD parentpos default
      if lt newitem parent then siftdown startpos newitem fuel parentpos (heap.set pos parent)
      else heap.set pos newitem
    else heap.set pos newitem

/-- The loop of `_siftup`: pull the smaller child up into the hole until a leaf is
reached; returns the hole. -/
def pullUp : ℕ → ℕ → List α → ℕ × List α
  | 0, pos, heap => (pos, heap)
  | fuel + 1, pos, heap =>
    let childpos := 2 * pos + 1
    if childpos < heap.length then
      let rightpos := childpos + 1
      let childpos :=
        if rightpos < heap.length ∧
            lt (heap.getD childpos default) (heap.getD rightpos default) = false then rightpos
        else childpos
      pullUp fuel childpos (heap.set pos (heap.getD childpos default))
    else (pos, heap)

/-- `_siftup`. -/
def siftup (pos : ℕ) (heap : List α) : List α :=
  let newitem := heap.getD pos default
  let pulled := pullUp lt heap.length pos heap
  siftdown lt pos newitem heap.length pulled.1 pulled.2

/-- `heapify`. -/
def heapify (heap : List α) : List α :=
  (List.range (heap.length / 2)).reverse.foldl (fun heap pos => siftup lt pos heap) heap

/-- `heappush`. -/
def heappush (heap : List α) (item : α) : List α :=
  siftdown lt 0 item (heap.length + 1) heap.length (heap ++ [item])

/-- `heappop`. -/
def heappop (heap : List α) : Option (α × List α) :=
  match heap.getLast? with
  | none => none
  | some lastelt =>
    match heap.dropLast with
    | [] => some (lastelt, [])
    | returnitem :: rest => some (returnitem, siftup lt 0 (lastelt :: rest))

/-! ### Rearrangement -/

variable {heap : List α}

/-- Moving an entry into the hole and the hole to its place is a rearrangement. -/
theorem set_move_perm {hole source : ℕ} {item : α} (inHole : hole < heap.length)
    (inSource : source < heap.length) (different : hole ≠ source) :
    ((heap.set hole (heap.getD source default)).set source item).Perm (heap.set hole item) := by
  have swapped := @List.set_set_perm _ (heap.set hole item) hole source
    (by simpa using inHole) (by simpa using inSource)
  simpa [different, List.getElem?_eq_getElem inSource] using swapped

/-- Sifting down places the item. -/
theorem siftdown_perm {startpos fuel pos : ℕ} {newitem : α} (inside : pos < heap.length) :
    (siftdown lt startpos newitem fuel pos heap).Perm (heap.set pos newitem) := by
  induction fuel generalizing pos heap with
  | zero => exact .refl _
  | succ fuel ih =>
    unfold siftdown
    split
    next below =>
      dsimp only
      split
      · have inParent : (pos - 1) / 2 < heap.length := by omega
        exact (ih (by simpa using inParent)).trans
          (set_move_perm inside inParent (by omega))
      · exact .refl _
    · exact .refl _

/-- So does pulling children up. -/
theorem pullUp_perm {fuel pos : ℕ} {newitem : α} {heap : List α} (inside : pos < heap.length) :
    (pullUp lt fuel pos heap).1 < heap.length ∧ (pullUp lt fuel pos heap).2.length = heap.length ∧
      ((pullUp lt fuel pos heap).2.set (pullUp lt fuel pos heap).1 newitem).Perm
        (heap.set pos newitem) := by
  induction fuel generalizing pos heap with
  | zero => exact ⟨inside, rfl, .refl _⟩
  | succ fuel ih =>
    unfold pullUp
    dsimp only
    split
    next hasChild =>
      generalize chosen : (if 2 * pos + 1 + 1 < heap.length ∧
          lt (heap.getD (2 * pos + 1) default) (heap.getD (2 * pos + 1 + 1) default) = false
        then 2 * pos + 1 + 1 else 2 * pos + 1) = childpos
      have bounds : pos < childpos ∧ childpos < heap.length := by split at chosen <;> omega
      have inChild : childpos < (heap.set pos (heap.getD childpos default)).length := by
        simpa using bounds.2
      obtain ⟨hole, length, moved⟩ := ih inChild
      rw [List.length_set] at hole length
      exact ⟨hole, length, moved.trans (set_move_perm inside bounds.2 bounds.1.ne)⟩
    · exact ⟨inside, rfl, .refl _⟩

/-- Sifting up permutes. -/
theorem siftup_perm {pos : ℕ} (inside : pos < heap.length) : (siftup lt pos heap).Perm heap := by
  obtain ⟨hole, length, moved⟩ :=
    @pullUp_perm _ _ lt heap.length pos (heap.getD pos default) heap inside
  refine ((siftdown_perm lt (by omega)).trans moved).trans ?_
  rw [List.getD_eq_getElem?_getD, List.getElem?_eq_getElem inside, Option.getD_some,
    List.set_getElem_self]

/-- So does heapifying. -/
theorem heapify_perm (heap : List α) : (heapify lt heap).Perm heap := by
  refine List.foldlRecOn (motive := (List.Perm · heap)) _ _ (.refl _)
    fun start same pos member => ?_
  rw [List.mem_reverse, List.mem_range] at member
  refine (siftup_perm lt ?_).trans same
  rw [same.length_eq]
  omega

/-- A push adds the item. -/
theorem heappush_perm (heap : List α) (item : α) : (heappush lt heap item).Perm (item :: heap) := by
  refine (siftdown_perm lt (by simp)).trans ?_
  simp only [List.set_append, lt_irrefl, Nat.sub_self]
  exact List.perm_append_singleton item heap

/-- Popping a nonempty heap takes one entry out. -/
theorem heappop_perm (nonempty : heap ≠ []) :
    ∃ item rest, heappop lt heap = some (item, rest) ∧ heap.Perm (item :: rest) := by
  have whole := List.dropLast_append_getLast nonempty
  unfold heappop
  rw [List.getLast?_eq_some_getLast nonempty]
  generalize heap.getLast nonempty = last at whole
  dsimp only
  split
  next only =>
    refine ⟨_, _, rfl, ?_⟩
    rw [← whole, only]
    exact .refl _
  next first rest shape =>
    refine ⟨_, _, rfl, ?_⟩
    refine List.Perm.trans ?_ ((siftup_perm lt (by simp)).symm.cons first)
    rw [← whole, shape]
    exact (List.perm_append_singleton _ rest).cons first

end AvaServe.Foundation.BinaryHeap
