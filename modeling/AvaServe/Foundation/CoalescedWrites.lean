import Mathlib

/-!
# Coalesced writes

A list of keyed writes gathered in a map keeps one write per key, the last one, and
hands them on in the map's own order. When writes to different keys commute, the
outcome is that of the last writes, and it is that of the whole list when the last
write to a key absorbs the earlier ones.
-/

namespace AvaServe.Foundation

open List

variable {κ ν σ : Type*}

/-- An order in which a set is walked. -/
structure Listing (κ : Type*) where
  list : Finset κ → List κ
  nodup : ∀ keys, (list keys).Nodup
  mem_iff : ∀ keys key, key ∈ list keys ↔ key ∈ keys

/-- Some order. -/
noncomputable def Listing.some : Listing κ where
  list := Finset.toList
  nodup := Finset.nodup_toList
  mem_iff := fun _ _ => Finset.mem_toList

variable (order : Listing κ)

/-- The empty set has nothing to walk. -/
theorem Listing.empty : order.list ∅ = [] :=
  eq_nil_iff_forall_not_mem.mpr fun key member =>
    Finset.notMem_empty key ((order.mem_iff _ _).mp member)

variable [DecidableEq κ]

/-- The entries of a map in the order it is walked. -/
def Listing.entries (order : Listing κ) (map : Finmap fun _ : κ => ν) : List (κ × ν) :=
  (order.list map.keys).filterMap fun key => (map.lookup key).map fun value => (key, value)

/-- Two orders walk the same entries. -/
theorem Listing.entries_perm (other : Listing κ) (map : Finmap fun _ : κ => ν) :
    (order.entries map).Perm (other.entries map) := by
  refine Perm.filterMap _ ((perm_ext_iff_of_nodup (order.nodup _) (other.nodup _)).mpr ?_)
  intro key
  rw [order.mem_iff, other.mem_iff]

/-- Nor has the empty map. -/
theorem Listing.entries_empty : order.entries (∅ : Finmap fun _ : κ => ν) = [] := by
  rw [Listing.entries, Finmap.keys_empty, order.empty, filterMap_nil]

/-- The writes that no later write to the same key follows. -/
def lastWrites : List (κ × ν) → List (κ × ν)
  | [] => []
  | (key, value) :: writes =>
    if key ∈ writes.map Prod.fst then lastWrites writes
    else (key, value) :: lastWrites writes

/-- The map a list of writes is gathered in. -/
def gather (writes : List (κ × ν)) : Finmap fun _ : κ => ν :=
  writes.foldl (fun map write => map.insert write.1 write.2) ∅

variable {writes : List (κ × ν)} {key : κ}

/-- A last write is a write. -/
theorem mem_of_mem_lastWrites {write : κ × ν} (member : write ∈ lastWrites writes) :
    write ∈ writes := by
  induction writes with
  | nil => exact member
  | cons first writes ih =>
    rw [lastWrites] at member
    split at member
    · exact .tail _ (ih member)
    · rcases mem_cons.mp member with rfl | later
      · exact .head _
      · exact .tail _ (ih later)

/-- Every written key has a last write. -/
theorem mem_map_fst_lastWrites :
    key ∈ (lastWrites writes).map Prod.fst ↔ key ∈ writes.map Prod.fst := by
  induction writes with
  | nil => rfl
  | cons first writes ih =>
    rw [lastWrites]
    split
    next again =>
      rw [ih, map_cons, mem_cons]
      exact ⟨.inr, fun either => either.elim (fun same => same ▸ again) id⟩
    next => rw [map_cons, mem_cons, ih, map_cons, mem_cons]

/-- It has only one. -/
theorem nodup_map_fst_lastWrites (writes : List (κ × ν)) :
    ((lastWrites writes).map Prod.fst).Nodup := by
  induction writes with
  | nil => exact nodup_nil
  | cons first writes ih =>
    rw [lastWrites]
    split
    next => exact ih
    next absent =>
      rw [map_cons, nodup_cons, mem_map_fst_lastWrites]
      exact ⟨absent, ih⟩

/-- Writes to different keys are all last. -/
theorem lastWrites_of_nodup (nodup : (writes.map Prod.fst).Nodup) : lastWrites writes = writes := by
  induction writes with
  | nil => rfl
  | cons write writes ih =>
    obtain ⟨absent, rest⟩ := nodup_cons.mp nodup
    rw [lastWrites, if_neg absent, ih rest]

/-! ### The gathered map -/

/-- Inserting the writes one by one leaves the last ones. -/
theorem lookup_foldl_insert (writes : List (κ × ν)) (map : Finmap fun _ : κ => ν) (key : κ) :
    (writes.foldl (fun map write => map.insert write.1 write.2) map).lookup key =
      (((lastWrites writes).find? fun write => write.1 = key).map Prod.snd).or
        (map.lookup key) := by
  induction writes generalizing map with
  | nil => rfl
  | cons first writes ih =>
    obtain ⟨written, value⟩ := first
    rw [foldl_cons, ih, lastWrites]
    split
    next again =>
      by_cases same : key = written
      · subst same
        have found : ((lastWrites writes).find? fun write => write.1 = key).isSome := by
          rw [find?_isSome]
          obtain ⟨write, member, here⟩ := mem_map.mp (mem_map_fst_lastWrites.mpr again)
          exact ⟨write, member, by simpa using here⟩
        obtain ⟨write, eq⟩ := Option.isSome_iff_exists.mp found
        rw [eq]
        rfl
      · rw [Finmap.lookup_insert_of_ne map same]
    next absent =>
      by_cases same : key = written
      · subst same
        have missing : ((lastWrites writes).find? fun write => write.1 = key) = none := by
          rw [find?_eq_none]
          intro write member here
          refine absent (mem_map_fst_lastWrites.mp (mem_map.mpr ⟨write, member, ?_⟩))
          simpa using here
        rw [missing, Finmap.lookup_insert, find?_cons_of_pos (by simp)]
        rfl
      · rw [Finmap.lookup_insert_of_ne map same, find?_cons_of_neg (by simpa using Ne.symm same)]

/-- The gathered map holds the last writes. -/
theorem lookup_gather {value : ν} :
    (gather writes).lookup key = some value ↔ (key, value) ∈ lastWrites writes := by
  rw [gather, lookup_foldl_insert, Finmap.lookup_empty, Option.or_none, Option.map_eq_some_iff]
  constructor
  · rintro ⟨⟨written, found⟩, here, rfl⟩
    have same : written = key := by simpa using find?_some here
    subst same
    exact mem_of_find?_eq_some here
  · intro member
    have found : ((lastWrites writes).find? fun write => write.1 = key).isSome := by
      rw [find?_isSome]
      exact ⟨_, member, by simp⟩
    obtain ⟨⟨written, other⟩, here⟩ := Option.isSome_iff_exists.mp found
    have same : written = key := by simpa using find?_some here
    subst same
    refine ⟨_, here, ?_⟩
    have eq := inj_on_of_nodup_map (nodup_map_fst_lastWrites writes)
      (mem_of_find?_eq_some here) member rfl
    rw [eq]

/-- Its keys are the written ones. -/
theorem mem_keys_gather : key ∈ (gather writes).keys ↔ key ∈ writes.map Prod.fst := by
  rw [Finmap.mem_keys, Finmap.mem_iff, ← mem_map_fst_lastWrites, mem_map]
  constructor
  · rintro ⟨value, found⟩
    exact ⟨_, lookup_gather.mp found, rfl⟩
  · rintro ⟨⟨written, value⟩, member, rfl⟩
    exact ⟨value, lookup_gather.mpr member⟩

/-! ### Handing the gathered writes on -/

section Fold

variable (f : σ → κ × ν → σ)

/-- Writes to different keys commute. -/
def WritesCommute : Prop :=
  ∀ state key value other value', key ≠ other →
    f (f state (key, value)) (other, value') = f (f state (other, value')) (key, value)

/-- Hand on the writes gathered in a map, in the order the map is walked. -/
def foldGathered (order : Listing κ) (map : Finmap fun _ : κ => ν) (state : σ) : σ :=
  (order.list map.keys).foldl
    (fun state key =>
      match map.lookup key with
      | none => state
      | some value => f state (key, value))
    state

variable {f} (comm : WritesCommute f)
include comm

/-- Walking the gathered map hands on the last writes, when writes to different keys
commute. -/
theorem foldGathered_eq (order : Listing κ) (writes : List (κ × ν)) (state : σ) :
    foldGathered f order (gather writes) state = (lastWrites writes).foldl f state := by
  have step : ∀ (keys : List κ) (state : σ), keys.foldl (fun state key =>
        match (gather writes).lookup key with
        | none => state
        | some value => f state (key, value)) state =
      (keys.filterMap fun key => ((gather writes).lookup key).map fun value => (key, value)).foldl
        f state := by
    intro keys
    induction keys with
    | nil => exact fun _ => rfl
    | cons key keys ih =>
      intro state
      rw [foldl_cons, ih]
      cases found : (gather writes).lookup key with
      | none => rw [filterMap_cons_none (by rw [found]; rfl)]
      | some value => rw [filterMap_cons_some (by rw [found]; rfl), foldl_cons]
  rw [foldGathered, step]
  refine Perm.foldl_eq' ((perm_ext_iff_of_nodup ?_ ?_).mpr ?_) ?_ state
  · refine (order.nodup _).filterMap fun key other write => ?_
    simp only [Option.mem_def, Option.map_eq_some_iff]
    rintro ⟨_, _, rfl⟩ ⟨_, _, same⟩
    exact (congrArg Prod.fst same).symm
  · exact (nodup_map_fst_lastWrites writes).of_map
  · rintro ⟨key, value⟩
    simp only [mem_filterMap, Option.map_eq_some_iff, Prod.mk.injEq]
    constructor
    · rintro ⟨_, _, _, found, rfl, rfl⟩
      exact lookup_gather.mp found
    · intro member
      refine ⟨key, ?_, value, lookup_gather.mpr member, rfl, rfl⟩
      rw [order.mem_iff, mem_keys_gather]
      exact mem_map.mpr ⟨_, mem_of_mem_lastWrites member, rfl⟩
  · intro left leftMem right rightMem state
    by_cases same : left.1 = right.1
    · have inLast : ∀ {write : κ × ν}, write ∈ ((order.list (gather writes).keys).filterMap
          fun key => ((gather writes).lookup key).map fun value => (key, value)) →
          (gather writes).lookup write.1 = some write.2 := by
        intro write member
        obtain ⟨key, -, found⟩ := mem_filterMap.mp member
        obtain ⟨value, here, rfl⟩ := Option.map_eq_some_iff.mp found
        exact here
      have values := (inLast leftMem).symm.trans (same ▸ inLast rightMem)
      rw [Prod.ext same (Option.some.inj values)]
    · exact comm state _ _ _ _ same

omit [DecidableEq κ] in
/-- A write that one of some later writes to different keys absorbs can be dropped. -/
theorem foldl_absorbed {later : List (κ × ν)} {first last : ν}
    (nodup : (later.map Prod.fst).Nodup) (member : (key, last) ∈ later)
    (absorb : ∀ state, f (f state (key, first)) (key, last) = f state (key, last)) (state : σ) :
    later.foldl f (f state (key, first)) = later.foldl f state := by
  induction later generalizing state with
  | nil => cases member
  | cons write later ih =>
    obtain ⟨fresh, rest⟩ := nodup_cons.mp nodup
    rw [foldl_cons, foldl_cons]
    rcases mem_cons.mp member with rfl | inside
    · rw [absorb]
    · have different : key ≠ write.1 := by
        rintro rfl
        exact fresh (mem_map.mpr ⟨_, inside, rfl⟩)
      rw [comm state key first write.1 write.2 different]
      exact ih rest inside _

/-- When the last write to a key absorbs the earlier ones, the last writes are enough. -/
theorem foldl_lastWrites
    (absorb : ∀ key first last, (key, first) ∈ writes → (key, last) ∈ lastWrites writes →
      ∀ state, f (f state (key, first)) (key, last) = f state (key, last)) (state : σ) :
    writes.foldl f state = (lastWrites writes).foldl f state := by
  induction writes generalizing state with
  | nil => rfl
  | cons write writes ih =>
    obtain ⟨key, value⟩ := write
    rw [lastWrites] at absorb ⊢
    split at absorb
    next again =>
      obtain ⟨⟨_, last⟩, member, rfl⟩ := mem_map.mp (mem_map_fst_lastWrites.mpr again)
      rw [if_pos again, foldl_cons,
        ih (fun key first last inside => absorb key first last (.tail _ inside))]
      exact foldl_absorbed comm (nodup_map_fst_lastWrites writes) member
        (absorb _ value last (.head _) member) state
    next absent =>
      rw [if_neg absent, foldl_cons, foldl_cons]
      exact ih (fun key first last inside final => absorb key first last (.tail _ inside)
        (.tail _ final)) _

end Fold

end AvaServe.Foundation
