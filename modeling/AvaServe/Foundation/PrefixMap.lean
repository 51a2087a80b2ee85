import Mathlib

/-!
# Prefix maps

A prefix map is the history of what was stored in it: words with a value for each
position, each in a namespace. Looking a word up gives the longest prefix of whole
pages that some stored word of the namespace begins with. The value at a position
comes from the earliest stored word that begins with the prefix up to the end of the
position's page. The answer is unique, so two implementations that both answer
correctly agree.
-/

namespace AvaServe.Foundation

variable {ν α β : Type*}

/-- A stored word. -/
@[ext]
structure PrefixEntry (ν α β : Type*) where
  space : ν
  word : List α
  values : List β

namespace PrefixMap

/-- Some stored word of the namespace begins with `front`. -/
def Known (history : List (PrefixEntry ν α β)) (space : ν) (front : List α) : Prop :=
  ∃ entry ∈ history, entry.space = space ∧ front <+: entry.word

/-- End of the page of a position. -/
def pageEnd (pageSize position : ℕ) : ℕ := (position / pageSize + 1) * pageSize

section First

variable [DecidableEq ν] [DecidableEq α]

/-- The earliest stored word of the namespace that begins with `front`. -/
def firstCovering (history : List (PrefixEntry ν α β)) (space : ν) (front : List α) :
    Option (PrefixEntry ν α β) :=
  history.find? fun entry => entry.space = space ∧ front <+: entry.word

/-- `values` is what the prefix map answers to `query`, `front` being the prefix of
`query` it knows. -/
structure Answers (pageSize : ℕ) (history : List (PrefixEntry ν α β)) (space : ν)
    (query front : List α) (values : List β) : Prop where
  isPrefix : front <+: query
  whole : pageSize ∣ front.length
  known : front ≠ [] → Known history space front
  longest : ∀ other, other <+: query → pageSize ∣ other.length → Known history space other →
    other.length ≤ front.length
  length_eq : values.length = front.length
  values_eq : ∀ i < front.length, values[i]? =
    (firstCovering history space (front.take (pageEnd pageSize i))).bind fun entry =>
      entry.values[i]?

end First

/-- What begins a known word is known. -/
theorem Known.shorten {history : List (PrefixEntry ν α β)} {space : ν} {front longer : List α}
    (known : Known history space longer) (isPrefix : front <+: longer) :
    Known history space front := by
  obtain ⟨entry, member, same, covers⟩ := known
  exact ⟨entry, member, same, isPrefix.trans covers⟩

/-- What is known stays known. -/
theorem Known.append {history : List (PrefixEntry ν α β)} {space : ν} {front : List α}
    (known : Known history space front) (later : List (PrefixEntry ν α β)) :
    Known (history ++ later) space front := by
  obtain ⟨entry, member, covers⟩ := known
  exact ⟨entry, List.mem_append_left _ member, covers⟩

section Pages

variable {pageSize position length : ℕ}

/-- A position is before its page's end. -/
theorem lt_pageEnd (positive : 0 < pageSize) : position < pageEnd pageSize position :=
  Nat.lt_mul_of_div_lt (Nat.lt_succ_self _) positive

/-- Pages end at multiples. -/
theorem dvd_pageEnd : pageSize ∣ pageEnd pageSize position := Dvd.intro_left _ rfl

/-- Whole pages are inside. -/
theorem pageEnd_le (whole : pageSize ∣ length) (inside : position < length) :
    pageEnd pageSize position ≤ length := by
  obtain ⟨pages, rfl⟩ := whole
  rw [mul_comm pageSize pages]
  exact Nat.mul_le_mul_right _ (Nat.div_lt_of_lt_mul inside)

end Pages

variable [DecidableEq ν] [DecidableEq α]

variable {history : List (PrefixEntry ν α β)} {space : ν} {front : List α}

/-- What is stored later does not change who covered a known prefix first. -/
theorem firstCovering_append_of_known (known : Known history space front)
    (later : List (PrefixEntry ν α β)) :
    firstCovering (history ++ later) space front = firstCovering history space front := by
  obtain ⟨entry, member, covers⟩ := known
  have found : (firstCovering history space front).isSome := by
    rw [firstCovering, List.find?_isSome]
    exact ⟨entry, member, by simpa using covers⟩
  obtain ⟨first, isFirst⟩ := Option.isSome_iff_exists.mp found
  rw [firstCovering, List.find?_append]
  rw [firstCovering] at isFirst
  rw [firstCovering, isFirst]
  rfl

/-- The first word that begins with a prefix unknown so far covers it first. -/
theorem firstCovering_append_singleton {entry : PrefixEntry ν α β}
    (unknown : ¬ Known history space front) (same : entry.space = space)
    (covers : front <+: entry.word) :
    firstCovering (history ++ [entry]) space front = some entry := by
  have none : history.find? (fun entry => entry.space = space ∧ front <+: entry.word) = none := by
    rw [List.find?_eq_none]
    intro earlier member covers
    exact unknown ⟨earlier, member, by simpa using covers⟩
  rw [firstCovering, List.find?_append, none]
  simp [same, covers]

/-- There is one answer to a query. -/
theorem Answers.unique {pageSize : ℕ} {query front' : List α} {values values' : List β}
    (answer : Answers pageSize history space query front values)
    (answer' : Answers pageSize history space query front' values') : values = values' := by
  have bound {left right : List α} {stored stored' : List β}
      (first : Answers pageSize history space query left stored)
      (second : Answers pageSize history space query right stored') :
      left.length ≤ right.length := by
    by_cases empty : left = []
    · simp [empty]
    · exact second.longest left first.isPrefix first.whole (first.known empty)
  have sameLength := le_antisymm (bound answer answer') (bound answer' answer)
  have sameFront : front = front' := by
    rw [List.prefix_iff_eq_take.mp answer.isPrefix, List.prefix_iff_eq_take.mp answer'.isPrefix,
      sameLength]
  apply List.ext_getElem?
  intro i
  by_cases inside : i < front.length
  · rw [answer.values_eq i inside, answer'.values_eq i (sameLength ▸ inside), sameFront]
  · rw [List.getElem?_eq_none (by rw [answer.length_eq]; omega),
      List.getElem?_eq_none (by rw [answer'.length_eq]; omega)]

end PrefixMap

end AvaServe.Foundation
