import Mathlib

/-!
# Labelled paths

Finite executions of a labelled transition relation, with the rules the
component proofs use: an invariant kept by every step holds at the end of every
path, a path through an appended label list passes a middle state, and steps that
each take one from a potential are bounded in number along the whole path.
-/

namespace AvaServe.Foundation

open List

variable {State Label : Type*}

/-- `Path step source labels target`: taking the labels in order leads from
`source` to `target`. -/
inductive Path (step : State → Label → State → Prop) : State → List Label → State → Prop
  | nil (state : State) : Path step state [] state
  | cons {source next target : State} {label : Label} {labels : List Label} :
      step source label next →
      Path step next labels target →
      Path step source (label :: labels) target

namespace Path

variable {step : State → Label → State → Prop}

variable {source target : State} {labels : List Label}

/-- The first step of a path. -/
theorem cons_inv {label : Label} (path : Path step source (label :: labels) target) :
    ∃ next, step source label next ∧ Path step next labels target := by
  cases path with
  | cons first rest => exact ⟨_, first, rest⟩

/-- Paths one after the other. -/
theorem append {middle : State} {before after : List Label} (left : Path step source before middle)
    (right : Path step middle after target) : Path step source (before ++ after) target := by
  induction left with
  | nil state => exact right
  | cons first _ ih => exact .cons first (ih right)

/-- A path through appended labels passes a state between the two parts. -/
theorem append_inv {before after : List Label} (path : Path step source (before ++ after) target) :
    ∃ middle, Path step source before middle ∧ Path step middle after target := by
  induction before generalizing source with
  | nil => exact ⟨source, .nil source, path⟩
  | cons label labels ih =>
    obtain ⟨next, first, rest⟩ := cons_inv path
    obtain ⟨middle, left, right⟩ := ih rest
    exact ⟨middle, .cons first left, right⟩

/-- A relation that contains every step of a path carries the same path. -/
theorem mono {wider : State → Label → State → Prop} (weaker : ∀ s l t, step s l t → wider s l t)
    (path : Path step source labels target) : Path wider source labels target := by
  induction path with
  | nil state => exact .nil state
  | cons first _ ih => exact .cons (weaker _ _ _ first) ih

/-- A path whose labels all have a property is a path of steps with that label
property. -/
theorem restrict {allowed : Label → Prop} (path : Path step source labels target)
    (all : ∀ l ∈ labels, allowed l) :
    Path (fun s l t => step s l t ∧ allowed l) source labels target := by
  induction path with
  | nil state => exact .nil state
  | cons first _ ih =>
    obtain ⟨head, tail⟩ := forall_mem_cons.mp all
    exact .cons ⟨first, head⟩ (ih tail)

variable (property : State → Prop)

/-- A property kept by every step is kept by every path. -/
theorem invariant (keeps : ∀ s l t, step s l t → property s → property t)
    (path : Path step source labels target) (start : property source) : property target := by
  induction path with
  | nil _ => exact start
  | cons first _ ih => exact ih (keeps _ _ _ first start)

/-- A property of the labels taken so far and the state they led to, kept by
every step, holds at the end of every path. -/
theorem recorded (property : List Label → State → Prop)
    (keeps : ∀ past s l t, step s l t → property past s → property (past ++ [l]) t)
    {past : List Label} (path : Path step source labels target) (start : property past source) :
    property (past ++ labels) target := by
  induction path generalizing past with
  | nil _ => rwa [append_nil]
  | cons first _ ih =>
    rw [← singleton_append, ← append_assoc]
    exact ih (keeps _ _ _ _ first start)

/-- When every charged step takes one from a potential and no step adds to it,
a path has at most as many charged steps as the potential it starts with. -/
theorem countP_le_potential (charged : Label → Bool) (potential : State → ℕ)
    (keeps : ∀ s l t, step s l t → property s → property t)
    (pays : ∀ s l t, step s l t → property s →
      (if charged l then 1 else 0) + potential t ≤ potential s)
    (path : Path step source labels target) (start : property source) :
    labels.countP charged ≤ potential source := by
  induction path with
  | nil _ => exact Nat.zero_le _
  | @cons source next _ label labels first _ ih =>
    have rest := ih (keeps _ _ _ first start)
    have paid := pays _ _ _ first start
    rw [countP_cons]
    omega

/-- When every state short of a goal has an allowed step that lowers a measure,
allowed steps lead to the goal. -/
theorem exists_of_measure (goal : State → Prop) (allowed : Label → Prop) (measure : State → ℕ)
    (progress : ∀ s, property s → ¬goal s →
      ∃ l t, step s l t ∧ allowed l ∧ property t ∧ measure t < measure s)
    (start : property source) :
    ∃ labels target, Path step source labels target ∧ (∀ l ∈ labels, allowed l) ∧
      property target ∧ goal target := by
  generalize bound : measure source = n
  induction n using Nat.strong_induction_on generalizing source with
  | _ n ih =>
    by_cases reached : goal source
    · exact ⟨[], source, .nil source, by simp, start, reached⟩
    · obtain ⟨l, t, first, ok, holds, lower⟩ := progress source start reached
      obtain ⟨labels, target, rest, all, final⟩ := ih (measure t) (bound ▸ lower) holds rfl
      exact ⟨l :: labels, target, .cons first rest, forall_mem_cons.mpr ⟨ok, all⟩, final⟩

end Path

section Deterministic

variable (next : State → Label → State)

/-- The states a deterministic machine is in when it takes each label of a run. -/
def trace : State → List Label → List (State × Label)
  | _, [] => []
  | state, label :: labels => (state, label) :: trace (next state label) labels

/-- No labels. -/
@[simp] theorem trace_nil (state : State) : trace next state [] = [] := rfl

/-- The first label. -/
@[simp] theorem trace_cons (state : State) (label : Label) (labels : List Label) :
    trace next state (label :: labels) = (state, label) :: trace next (next state label) labels :=
  rfl

/-- Two step properties that are equivalent under an invariant, and that keep
it, hold throughout the same runs. -/
theorem forall_mem_trace_iff {property : State → Prop} {left right : State → Label → Prop}
    (same : ∀ s l, property s → (left s l ↔ right s l))
    (keeps : ∀ s l, property s → left s l → property (next s l))
    (labels : List Label) {state : State} (start : property state) :
    (∀ entry ∈ trace next state labels, left entry.1 entry.2) ↔
      ∀ entry ∈ trace next state labels, right entry.1 entry.2 := by
  induction labels generalizing state with
  | nil => simp only [trace_nil, not_mem_nil, false_implies]
  | cons label labels ih =>
    simp only [trace_cons, forall_mem_cons]
    rw [← same state label start]
    exact and_congr_right fun holds => ih (keeps state label start holds)

end Deterministic

end AvaServe.Foundation
