import AvaServe.Foundation.CommonPrefix

/-!
# Keys of the radix tree

`RadixKey` is a view of a token sequence: plain tokens, or overlapping bigrams of
them, optionally capped at a number of raw tokens. Its operations work on the raw
tokens. They are specified here through `units`, the sequence of logical units
that iterating over the key yields: a slice is a slice of the units, `matchKey`
is the page-aligned common prefix of the units, and two keys have the same
`childKey` iff they have the same namespace and the same first page of units.
-/

namespace AvaServe.Radix

open Foundation List

/-- A key; the constructor of the source turns an empty salt into none, so no key
carries one. -/
structure RadixKey where
  tokenIds : List ℕ
  extraKey : Option String
  isBigram : Bool
  limit : Option ℕ
  cacheSalt : Option String
  salt_ne : cacheSalt ≠ some ""
  deriving DecidableEq

/-- One logical unit of a key. -/
inductive KeyUnit
  | token (id : ℕ)
  | bigram (first second : ℕ)
  deriving DecidableEq

/-- A unit is a bigram. -/
def KeyUnit.isBigram : KeyUnit → Bool
  | .token _ => false
  | .bigram _ _ => true

/-- What `child_key` computes from the tokens: an integer, a tuple of integers, or
a tuple of pairs. -/
inductive PlainKey
  | token (id : ℕ)
  | tokens (ids : List ℕ)
  | bigrams (ids : List (ℕ × ℕ))
  deriving DecidableEq

/-- A dictionary key: the plain key, alone or paired with its namespace. -/
inductive ChildKey
  | plain (key : PlainKey)
  | extra (extraKey : String) (key : PlainKey)
  | salted (extraKey : Option String) (cacheSalt : String) (key : PlainKey)
  deriving DecidableEq

/-- The two `ValueError`s of `_check_compatible`, with the values they report. -/
inductive IncompatibleKeys
  | extraKey (self other : Option String)
  | cacheSalt (self other : Option String)
  deriving DecidableEq

namespace RadixKey

/-- `__init__`: an empty salt counts as no salt. -/
def init (tokenIds : List ℕ) (extraKey : Option String) (isBigram : Bool) (limit : Option ℕ)
    (cacheSalt : Option String) : RadixKey where
  tokenIds := tokenIds
  extraKey := extraKey
  isBigram := isBigram
  limit := limit
  cacheSalt := if cacheSalt = some "" then none else cacheSalt
  salt_ne := by split <;> simp_all

/-- `_raw_len`. -/
def rawLen (key : RadixKey) : ℕ :=
  match key.limit with
  | some limit => if limit < key.tokenIds.length then limit else key.tokenIds.length
  | none => key.tokenIds.length

/-- `raw_token_ids`. -/
def rawTokenIds (key : RadixKey) : List ℕ := key.tokenIds.take key.rawLen

/-- `__len__`. -/
def len (key : RadixKey) : ℕ :=
  if key.isBigram then key.rawLen - 1 else key.rawLen

/-- `__getitem__` at `start:stop`; the bounds are clamped to the length, and a
bigram slice takes one boundary token more than it has units. -/
def slice (key : RadixKey) (start stop : ℕ) : RadixKey :=
  let start := min start key.len
  let stop := min stop key.len
  if key.isBigram then
    let raw := if start < stop then (key.tokenIds.take (stop + 1)).drop start else []
    init raw key.extraKey true none key.cacheSalt
  else
    init ((key.tokenIds.take stop).drop start) key.extraKey false none key.cacheSalt

/-- `key[:stop]`. -/
def takeUnits (key : RadixKey) (stop : ℕ) : RadixKey := key.slice 0 stop

/-- `key[start:]`. -/
def dropUnits (key : RadixKey) (start : ℕ) : RadixKey := key.slice start key.len

/-- `page_aligned`. -/
def pageAligned (key : RadixKey) (pageSize : ℕ) : RadixKey :=
  if pageSize = 1 then key else key.takeUnits (key.len / pageSize * pageSize)

/-- `maybe_to_bigram_view`: in bigram mode the value loses the slots that have no
bigram. -/
def maybeToBigramView (key : RadixKey) (isEagle : Bool) (value : Option (List ℕ)) :
    RadixKey × Option (List ℕ) :=
  if isEagle && !key.isBigram then
    let key := { key with isBigram := true }
    (key, value.map (·.take key.len))
  else
    (key, value)

/-- `_check_compatible`. -/
def checkCompatible (self other : RadixKey) : Except IncompatibleKeys Unit :=
  if self.extraKey ≠ other.extraKey then
    .error (.extraKey self.extraKey other.extraKey)
  else if self.cacheSalt ≠ other.cacheSalt then
    .error (.cacheSalt self.cacheSalt other.cacheSalt)
  else
    .ok ()

/-- The inner loop of `match`: the first position where the lists differ lies in
the window `[lo, hi)`, and each round halves the window. -/
def bisect (t0 t1 : List ℕ) : ℕ → ℕ → ℕ → ℕ
  | 0, lo, _ => lo
  | fuel + 1, lo, hi =>
    if 1 < hi - lo then
      let mid := (lo + hi) / 2
      if (t0.take mid).drop lo = (t1.take mid).drop lo then bisect t0 t1 fuel mid hi
      else bisect t0 t1 fuel lo mid
    else lo

/-- The outer loop of `match`: windows of doubling size are compared until one
differs or the shorter list ends. -/
def gallop (t0 t1 : List ℕ) (n : ℕ) : ℕ → ℕ → ℕ → ℕ
  | 0, _, _ => n
  | fuel + 1, lo, step =>
    if lo < n then
      let hi := if lo + step < n then lo + step else n
      if (t0.take hi).drop lo ≠ (t1.take hi).drop lo then bisect t0 t1 (hi - lo) lo hi
      else gallop t0 t1 n fuel hi (step * 2)
    else n

/-- `match`: the number of units shared with `other`, rounded down to pages. -/
def matchKey (self other : RadixKey) (pageSize : ℕ) : Except IncompatibleKeys ℕ := do
  checkCompatible self other
  let n := min self.tokenIds.length other.tokenIds.length
  let matchedTokens := gallop self.tokenIds other.tokenIds n n 0 1
  if self.isBigram then
    let matched := min (matchedTokens - 1) (min self.len other.len)
    return if 1 < pageSize then matched / pageSize * pageSize else matched
  else
    let matchedTokens := min matchedTokens (min self.len other.len)
    return if pageSize = 1 then matchedTokens else matchedTokens / pageSize * pageSize

/-- The part of `child_key` before the namespace. -/
def plainKey (key : RadixKey) (pageSize : ℕ) : PlainKey :=
  let t := key.tokenIds
  if key.isBigram then
    if pageSize = 1 then .tokens [t.getD 0 0, t.getD 1 0]
    else .bigrams ((range pageSize).map fun j => (t.getD j 0, t.getD (j + 1) 0))
  else
    if pageSize = 1 then .token (t.getD 0 0) else .tokens (t.take pageSize)

/-- `child_key`. -/
def childKey (key : RadixKey) (pageSize : ℕ) : ChildKey :=
  match key.cacheSalt, key.extraKey with
  | some salt, extraKey => .salted extraKey salt (key.plainKey pageSize)
  | none, none => .plain (key.plainKey pageSize)
  | none, some extraKey => .extra extraKey (key.plainKey pageSize)

/-! ### Logical units -/

/-- Consecutive pairs of a token list. -/
def bigrams (tokens : List ℕ) : List KeyUnit := zipWith .bigram tokens (tokens.drop 1)

/-- `__iter__`: the units of a key. -/
def units (key : RadixKey) : List KeyUnit :=
  if key.isBigram then bigrams key.rawTokenIds else key.rawTokenIds.map .token

/-- The namespace a key lives in. -/
def namespaceOf (key : RadixKey) : Option String × Option String := (key.extraKey, key.cacheSalt)

variable (key : RadixKey)

/-- Slices stay in the namespace. -/
@[simp] theorem namespaceOf_slice (start stop : ℕ) :
    (key.slice start stop).namespaceOf = key.namespaceOf := by
  have salt := key.salt_ne
  unfold slice
  cases key.isBigram <;> simp [init, namespaceOf, salt]

/-- The limit cuts. -/
theorem rawLen_le : key.rawLen ≤ key.tokenIds.length := by
  unfold rawLen
  split
  · split <;> omega
  · exact le_rfl

/-- The raw tokens have the raw length. -/
theorem length_rawTokenIds : key.rawTokenIds.length = key.rawLen := by
  rw [rawTokenIds, length_take, min_eq_left key.rawLen_le]

variable (tokens : List ℕ)

/-- One bigram less than tokens. -/
@[simp] theorem length_bigrams : (bigrams tokens).length = tokens.length - 1 := by simp [bigrams]

/-- The units have the key's length. -/
theorem length_units : key.units.length = key.len := by
  unfold units len
  split <;> simp [length_rawTokenIds]

/-- The units of a new key. -/
theorem units_init (extraKey : Option String) (isBigram : Bool) (cacheSalt : Option String) :
    (init tokens extraKey isBigram none cacheSalt).units =
      if isBigram then bigrams tokens else tokens.map .token := by
  simp [units, init, rawTokenIds, rawLen]

variable {key left right : RadixKey} {pageSize count : ℕ}

/-- The units of a bigram view. -/
theorem units_of_bigram (bigram : key.isBigram = true) : key.units = bigrams key.rawTokenIds := by
  rw [units, if_pos bigram]

/-- The units of a plain key. -/
theorem units_of_plain (plain : key.isBigram = false) : key.units = key.rawTokenIds.map .token := by
  rw [units, if_neg (by simp [plain])]

/-- The bigrams of a token window are a window of the bigrams. -/
theorem bigrams_window (start stop : ℕ) :
    bigrams ((tokens.take (stop + 1)).drop start) = ((bigrams tokens).take stop).drop start := by
  apply ext_getElem?
  intro i
  simp only [bigrams, getElem?_zipWith, getElem?_drop, getElem?_take]
  by_cases inside : start + i < stop
  · rw [if_pos (by omega), if_pos (by omega), if_pos inside,
      show start + (1 + i) = 1 + (start + i) by omega]
  · rw [if_neg (show ¬ start + (1 + i) < stop + 1 by omega), if_neg inside]
    split <;> simp_all

/-- Clamping the bounds of a window to the length of the list changes nothing. -/
theorem window_clamp {α : Type*} (list : List α) (start stop : ℕ) :
    (list.take (min stop list.length)).drop (min start list.length) =
      (list.take stop).drop start := by
  apply ext_getElem?
  intro i
  simp only [getElem?_drop, getElem?_take]
  by_cases inside : start + i < list.length
  · simp [min_eq_left (show start ≤ list.length by omega), inside]
  · rw [getElem?_eq_none (i := start + i) (by omega)]
    split
    · rw [getElem?_eq_none (by omega), ite_self]
    · rw [ite_self]

/-- A slice of a key has the corresponding slice of its units. -/
theorem units_slice (key : RadixKey) (start stop : ℕ) :
    (key.slice start stop).units = (key.units.take stop).drop start := by
  rw [← window_clamp key.units start stop, length_units]
  unfold slice
  have short : min stop key.len ≤ key.len := min_le_right _ _
  generalize min start key.len = start at *
  generalize min stop key.len = stop at *
  cases bigram : key.isBigram with
  | false =>
    simp only [len, bigram, Bool.false_eq_true, ↓reduceIte] at short
    simp only [Bool.false_eq_true, ↓reduceIte, units_init, units_of_plain bigram, rawTokenIds,
      map_take, map_drop, take_take, min_eq_left short]
  | true =>
    simp only [len, bigram, ↓reduceIte] at short
    simp only [↓reduceIte, units_init, units_of_bigram bigram]
    split
    next nonempty => rw [← bigrams_window, rawTokenIds, take_take, min_eq_left (by omega)]
    next empty =>
      rw [drop_eq_nil_of_le (by simp; omega)]
      rfl

/-- The front of a key has the front of its units. -/
theorem units_takeUnits (key : RadixKey) (stop : ℕ) :
    (key.takeUnits stop).units = key.units.take stop := by
  rw [takeUnits, units_slice, drop_zero]

/-- The rest of a key has the rest of them. -/
theorem units_dropUnits (key : RadixKey) (start : ℕ) :
    (key.dropUnits start).units = key.units.drop start := by
  rw [dropUnits, units_slice, ← length_units, take_length]

/-- An aligned key has whole pages of units. -/
theorem units_pageAligned (key : RadixKey) (pageSize : ℕ) :
    (key.pageAligned pageSize).units = key.units.take (key.len / pageSize * pageSize) := by
  unfold pageAligned
  split
  next single => rw [single, Nat.div_one, mul_one, ← length_units, take_length]
  · rw [units_takeUnits]

/-- The length of a front. -/
@[simp] theorem len_takeUnits (key : RadixKey) (stop : ℕ) :
    (key.takeUnits stop).len = min stop key.len := by
  rw [← length_units, units_takeUnits, length_take, length_units]

/-- The length of a rest. -/
@[simp] theorem len_dropUnits (key : RadixKey) (start : ℕ) :
    (key.dropUnits start).len = key.len - start := by
  rw [← length_units, units_dropUnits, length_drop, length_units]

/-- A front stays in the namespace. -/
@[simp] theorem namespaceOf_takeUnits (key : RadixKey) (stop : ℕ) :
    (key.takeUnits stop).namespaceOf = key.namespaceOf :=
  namespaceOf_slice key 0 stop

/-- So does a rest. -/
@[simp] theorem namespaceOf_dropUnits (key : RadixKey) (start : ℕ) :
    (key.dropUnits start).namespaceOf = key.namespaceOf :=
  namespaceOf_slice key start key.len

/-- Aligned keys are whole pages. -/
theorem len_pageAligned (key : RadixKey) (pageSize : ℕ) :
    (key.pageAligned pageSize).len = key.len / pageSize * pageSize := by
  rw [← length_units, units_pageAligned, length_take, length_units]
  exact min_eq_left (Nat.div_mul_le_self _ _)

/-- They stay in the namespace. -/
@[simp] theorem namespaceOf_pageAligned (key : RadixKey) (pageSize : ℕ) :
    (key.pageAligned pageSize).namespaceOf = key.namespaceOf := by
  unfold pageAligned
  split
  · rfl
  · exact key.namespaceOf_takeUnits _

/-- So do bigram views. -/
@[simp] theorem namespaceOf_maybeToBigramView (key : RadixKey) (isEagle : Bool)
    (value : Option (List ℕ)) :
    (key.maybeToBigramView isEagle value).1.namespaceOf = key.namespaceOf := by
  unfold maybeToBigramView
  split <;> rfl

/-- Cutting a key to whole pages keeps the tokens its units begin with. -/
theorem take_tokenIds_pageAligned (key : RadixKey) (pageSize : ℕ) :
    (key.pageAligned pageSize).tokenIds.take (key.pageAligned pageSize).len =
      key.tokenIds.take (key.pageAligned pageSize).len := by
  rw [len_pageAligned]
  have bound := Nat.div_mul_le_self key.len pageSize
  unfold pageAligned
  split
  · rfl
  · generalize key.len / pageSize * pageSize = stop at bound
    unfold takeUnits slice
    rw [min_eq_left bound]
    cases key.isBigram with
    | true =>
      by_cases nonempty : 0 < stop
      · simp [init, nonempty, take_take]
      · simp [show stop = 0 by omega]
    | false => simp [init]

/-! ### Matching -/

/-- While the window holds the first difference, bisection finds it. -/
theorem bisect_eq (t0 t1 : List ℕ) {fuel lo hi : ℕ} (enough : hi - lo ≤ fuel + 1)
    (inLeft : hi ≤ t0.length) (inRight : hi ≤ t1.length) (reached : lo ≤ commonPrefix t0 t1)
    (notPast : commonPrefix t0 t1 < hi) : bisect t0 t1 fuel lo hi = commonPrefix t0 t1 := by
  induction fuel generalizing lo hi with
  | zero =>
    unfold bisect
    omega
  | succ fuel ih =>
    unfold bisect
    split
    next wide =>
      have agree : (t0.take ((lo + hi) / 2)).drop lo = (t1.take ((lo + hi) / 2)).drop lo ↔
          (lo + hi) / 2 ≤ commonPrefix t0 t1 :=
        slice_eq_iff reached (by omega) (by omega) (by omega)
      dsimp only
      split
      next same => exact ih (by omega) inLeft inRight (agree.mp same) notPast
      next differ =>
        have short := mt agree.mpr differ
        exact ih (by omega) (by omega) (by omega) reached (by omega)
    · omega

/-- Galloping and bisection together compute the common prefix. -/
theorem gallop_eq (t0 t1 : List ℕ) {fuel lo step : ℕ} (positive : 0 < step)
    (enough : min t0.length t1.length ≤ lo + fuel) (reached : lo ≤ commonPrefix t0 t1) :
    gallop t0 t1 (min t0.length t1.length) fuel lo step = commonPrefix t0 t1 := by
  have bounded : commonPrefix t0 t1 ≤ min t0.length t1.length :=
    le_min (commonPrefix_le_left t0 t1) (commonPrefix_le_right t0 t1)
  induction fuel generalizing lo step with
  | zero =>
    unfold gallop
    omega
  | succ fuel ih =>
    unfold gallop
    split
    next inside =>
      dsimp only
      generalize window : (if lo + step < min t0.length t1.length then lo + step
        else min t0.length t1.length) = hi
      have further : lo < hi ∧ hi ≤ min t0.length t1.length := by split at window <;> omega
      have agree := slice_eq_iff reached further.1.le
        (further.2.trans (min_le_left _ _)) (further.2.trans (min_le_right _ _))
      split
      next differ =>
        have short := mt agree.mpr differ
        exact bisect_eq t0 t1 (by omega) (by omega) (by omega) reached (by omega)
      next same =>
        have further := agree.mp (not_not.mp same)
        exact ih (by omega) (by omega) (by omega)
    · omega

/-- Units agree as tokens do. -/
theorem commonPrefix_map_token (left right : List ℕ) :
    commonPrefix (left.map KeyUnit.token) (right.map KeyUnit.token) = commonPrefix left right := by
  induction left generalizing right with
  | nil => simp [commonPrefix]
  | cons x left ih =>
    cases right with
    | nil => simp [commonPrefix]
    | cons y right => simp [commonPrefix, ih]

/-- Bigrams agree on one position less than the tokens. -/
theorem commonPrefix_bigrams (left right : List ℕ) :
    commonPrefix (bigrams left) (bigrams right) = commonPrefix left right - 1 := by
  induction left generalizing right with
  | nil => simp [commonPrefix, bigrams]
  | cons x left ih =>
    cases right with
    | nil => simp [commonPrefix, bigrams]
    | cons y right =>
      cases left with
      | nil =>
        have short : commonPrefix [x] (y :: right) ≤ 1 := commonPrefix_le_left _ _
        have none : commonPrefix (bigrams [x]) (bigrams (y :: right)) ≤ 0 :=
          commonPrefix_le_left _ _
        omega
      | cons x' left =>
        cases right with
        | nil =>
          have short : commonPrefix (x :: x' :: left) [y] ≤ 1 := commonPrefix_le_right _ _
          have none : commonPrefix (bigrams (x :: x' :: left)) (bigrams [y]) ≤ 0 :=
            commonPrefix_le_right _ _
          omega
        | cons y' right =>
          have tails := ih (y' :: right)
          have front (a b : ℕ) (l : List ℕ) :
              bigrams (a :: b :: l) = .bigram a b :: bigrams (b :: l) := rfl
          rw [front, front]
          simp only [commonPrefix] at tails ⊢
          by_cases same : x = y <;> by_cases same' : x' = y' <;>
            simp_all

/-- Raw tokens agree up to the limits. -/
theorem commonPrefix_rawTokenIds (self other : RadixKey) :
    commonPrefix self.rawTokenIds other.rawTokenIds =
      min (commonPrefix self.tokenIds other.tokenIds) (min self.rawLen other.rawLen) :=
  commonPrefix_take ..

/-- `match` of two keys of one namespace and one mode is the page-aligned common
prefix of their units. -/
theorem matchKey_eq {self other : RadixKey} (positive : 0 < pageSize)
    (sameSpace : self.namespaceOf = other.namespaceOf) (sameMode : self.isBigram = other.isBigram) :
    self.matchKey other pageSize = .ok (alignedPrefix pageSize self.units other.units) := by
  obtain ⟨sameExtra, sameSalt⟩ := Prod.mk.inj sameSpace
  have compatible : self.checkCompatible other = .ok () := by
    simp [checkCompatible, sameExtra, sameSalt]
  have searched : gallop self.tokenIds other.tokenIds
      (min self.tokenIds.length other.tokenIds.length)
      (min self.tokenIds.length other.tokenIds.length) 0 1 =
        commonPrefix self.tokenIds other.tokenIds :=
    gallop_eq _ _ one_pos (by omega) (Nat.zero_le _)
  unfold matchKey
  rw [compatible]
  simp only [bind, Except.bind, searched, pure, Except.pure]
  cases mode : self.isBigram with
  | true =>
    have lengths : min (commonPrefix self.tokenIds other.tokenIds - 1) (min self.len other.len) =
        commonPrefix self.units other.units := by
      rw [units_of_bigram mode, units_of_bigram (sameMode ▸ mode), commonPrefix_bigrams,
        commonPrefix_rawTokenIds, len, len, if_pos mode, if_pos (sameMode ▸ mode)]
      omega
    simp only [↓reduceIte, lengths, alignedPrefix]
    split
    · rfl
    · rw [show pageSize = 1 by omega, Nat.div_one, mul_one]
  | false =>
    have lengths : min (commonPrefix self.tokenIds other.tokenIds) (min self.len other.len) =
        commonPrefix self.units other.units := by
      rw [units_of_plain mode, units_of_plain (sameMode ▸ mode), commonPrefix_map_token,
        commonPrefix_rawTokenIds, len, len, if_neg (by simp [mode]),
        if_neg (by simp [← sameMode, mode])]
    simp only [Bool.false_eq_true, ↓reduceIte, lengths, alignedPrefix]
    split
    next single => rw [single, Nat.div_one, mul_one]
    · rfl

/-! ### Dictionary keys -/

/-- The first units of a plain key. -/
theorem take_units_of_plain (plain : key.isBigram = false) (short : count ≤ key.len) :
    key.units.take count = (key.tokenIds.take count).map .token := by
  rw [len, if_neg (by simp [plain])] at short
  rw [units_of_plain plain, rawTokenIds, ← map_take, take_take, min_eq_left short]

/-- The first units of a bigram view. -/
theorem take_units_of_bigram (bigram : key.isBigram = true) (short : count ≤ key.len) :
    key.units.take count = (range count).map
      fun j => .bigram (key.tokenIds.getD j 0) (key.tokenIds.getD (j + 1) 0) := by
  rw [len, if_pos bigram] at short
  have bound := key.rawLen_le
  rw [units_of_bigram bigram]
  apply ext_getElem?
  intro i
  simp only [bigrams, rawTokenIds, getElem?_take, getElem?_zipWith, getElem?_drop, getElem?_map]
  by_cases inside : i < count
  · rw [getElem?_range inside, if_pos inside, if_pos (by omega), if_pos (by omega)]
    simp [add_comm 1 i, getElem?_eq_getElem (show i < key.tokenIds.length by omega),
      getElem?_eq_getElem (show i + 1 < key.tokenIds.length by omega)]
  · rw [if_neg inside, getElem?_eq_none (by simpa using inside)]
    rfl

/-- The units of a key are of its kind. -/
theorem mem_units_isBigram {unit : KeyUnit} (member : unit ∈ key.units) :
    unit.isBigram = key.isBigram := by
  cases mode : key.isBigram with
  | true =>
    rw [units_of_bigram mode] at member
    obtain ⟨i, found⟩ := mem_iff_getElem?.mp member
    rw [bigrams, getElem?_zipWith] at found
    split at found
    · cases found
      rfl
    · cases found
  | false =>
    rw [units_of_plain mode] at member
    obtain ⟨id, -, rfl⟩ := mem_map.mp member
    rfl

/-- Keys that share their first units are in the same mode. -/
theorem isBigram_eq_of_take_units (positive : 0 < count) (inside : count ≤ left.len)
    (same : left.units.take count = right.units.take count) : left.isBigram = right.isBigram := by
  obtain ⟨unit, first⟩ : ∃ unit, unit ∈ left.units.take count := by
    apply exists_mem_of_length_pos
    rw [length_take, length_units]
    omega
  have inLeft := mem_of_mem_take first
  rw [same] at first
  have inRight := mem_of_mem_take first
  rw [← mem_units_isBigram inLeft, mem_units_isBigram inRight]

/-- Keys of at least one page have equal plain keys iff their first pages have
equal units. -/
theorem plainKey_eq_iff (positive : 0 < pageSize) (inLeft : pageSize ≤ left.len)
    (inRight : pageSize ≤ right.len) : left.plainKey pageSize = right.plainKey pageSize ↔
      left.units.take pageSize = right.units.take pageSize := by
  have first {key : RadixKey} (inside : pageSize ≤ key.len) :
      key.tokenIds.take 1 = [key.tokenIds.getD 0 0] := by
    have bound := key.rawLen_le
    unfold len at inside
    obtain ⟨head, tail, shape⟩ :=
      exists_cons_of_length_pos (l := key.tokenIds) (by split at inside <;> omega)
    simp [shape]
  cases leftMode : left.isBigram <;> cases rightMode : right.isBigram
  · rw [take_units_of_plain leftMode inLeft, take_units_of_plain rightMode inRight,
      (map_injective_iff.mpr fun _ _ => KeyUnit.token.inj).eq_iff]
    by_cases single : pageSize = 1
    · subst single
      rw [first inLeft, first inRight]
      simp [plainKey, leftMode, rightMode]
    · simp [plainKey, leftMode, rightMode, single]
  iterate 2
    · refine iff_of_false ?_ fun same => ?_
      · by_cases single : pageSize = 1 <;> simp [plainKey, leftMode, rightMode, single]
      · simpa [leftMode, rightMode] using isBigram_eq_of_take_units positive inLeft same
  · rw [take_units_of_bigram leftMode inLeft, take_units_of_bigram rightMode inRight]
    by_cases single : pageSize = 1
    · subst single
      simp [plainKey, leftMode, rightMode]
    · simp [plainKey, leftMode, rightMode, single]

/-- Keys of at least one page are filed under the same dictionary key iff they have
the same namespace and the same first page. -/
theorem childKey_eq_iff (positive : 0 < pageSize) (inLeft : pageSize ≤ left.len)
    (inRight : pageSize ≤ right.len) :
    left.childKey pageSize = right.childKey pageSize ↔ left.namespaceOf = right.namespaceOf ∧
        left.units.take pageSize = right.units.take pageSize := by
  rw [← plainKey_eq_iff positive inLeft inRight]
  unfold childKey namespaceOf
  cases left.cacheSalt <;> cases left.extraKey <;> cases right.cacheSalt <;>
    cases right.extraKey <;> simp [and_assoc]

/-- The first pages of a key are filed under its own dictionary key. -/
theorem childKey_takeUnits {stop : ℕ} (positive : 0 < pageSize) (inStop : pageSize ≤ stop)
    (inKey : pageSize ≤ key.len) :
    (key.takeUnits stop).childKey pageSize = key.childKey pageSize := by
  rw [childKey_eq_iff positive (by simp [inStop, inKey]) inKey]
  simp [units_takeUnits, take_take, min_eq_left inStop]

/-! ### Python slices -/

/-- `slice.indices`: the bounds of a slice of a sequence of `length` elements. A bound
that is left out stands for the end of the sequence, and negative ones count from it. -/
def sliceIndices (length : ℕ) (start stop : Option ℤ) : ℕ × ℕ :=
  let clamp (bound : ℤ) : ℕ := min (if bound < 0 then bound + length else bound).toNat length
  ((start.map clamp).getD 0, (stop.map clamp).getD length)

/-- `list[start:stop]`. -/
def sliceList {α : Type*} (list : List α) (start stop : Option ℤ) : List α :=
  (list.take (sliceIndices list.length start stop).2).drop
    (sliceIndices list.length start stop).1

/-- `__getitem__` at any slice of step one. -/
def getItem (key : RadixKey) (start stop : Option ℤ) : RadixKey :=
  key.slice (sliceIndices key.len start stop).1 (sliceIndices key.len start stop).2

/-- An item is a slice of the units. -/
theorem units_getItem (key : RadixKey) (start stop : Option ℤ) :
    (key.getItem start stop).units = sliceList key.units start stop := by
  rw [getItem, units_slice, sliceList, length_units]

/-- A key is a faithful view of its units: matching is the common prefix of the units
in whole pages, slicing is slicing the units, and keys of whole pages are filed together
iff their first pages agree, in which case they match in at least that page. -/
theorem faithful_view (positive : 0 < pageSize) :
    (∀ (tokenIds tokenIds' : List ℕ) (limit limit' : Option ℕ) (isBigram : Bool)
        (extraKey cacheSalt : Option String),
      (init tokenIds extraKey isBigram limit cacheSalt).matchKey
          (init tokenIds' extraKey isBigram limit' cacheSalt) pageSize =
        .ok (alignedPrefix pageSize (init tokenIds extraKey isBigram limit cacheSalt).units
          (init tokenIds' extraKey isBigram limit' cacheSalt).units)) ∧
    (∀ (key : RadixKey) (start stop : Option ℤ),
      (key.getItem start stop).units = sliceList key.units start stop) ∧
    ∀ left right : RadixKey, 0 < left.len → pageSize ∣ left.len → 0 < right.len →
      pageSize ∣ right.len → left.namespaceOf = right.namespaceOf →
        (left.childKey pageSize = right.childKey pageSize ↔
          left.units.take pageSize = right.units.take pageSize) ∧
        (left.childKey pageSize = right.childKey pageSize →
          ∃ matched, left.matchKey right pageSize = .ok matched ∧ pageSize ≤ matched) := by
  refine ⟨fun _ _ _ _ _ _ _ => matchKey_eq positive rfl rfl, units_getItem, ?_⟩
  intro left right inLeft wholeLeft inRight wholeRight sameSpace
  have longLeft := Nat.le_of_dvd inLeft wholeLeft
  have longRight := Nat.le_of_dvd inRight wholeRight
  have filed : left.childKey pageSize = right.childKey pageSize ↔
      left.units.take pageSize = right.units.take pageSize := by
    rw [childKey_eq_iff positive longLeft longRight]
    exact and_iff_right sameSpace
  refine ⟨filed, fun together => ?_⟩
  have firstPage := filed.mp together
  have sameMode := isBigram_eq_of_take_units positive longLeft firstPage
  refine ⟨_, matchKey_eq positive sameSpace sameMode, ?_⟩
  rw [le_alignedPrefix_iff positive dvd_rfl, le_commonPrefix_iff, length_units, length_units]
  exact ⟨longLeft, longRight, firstPage⟩

/-- Two bigram views that agree on a page. -/
theorem faithful_view_bigram :
    (init [1, 2, 3, 4] none true (some 3) none).matchKey (init [1, 2, 3] none true none none) 2 =
      .ok 2 :=
  (faithful_view (by decide)).1 [1, 2, 3, 4] [1, 2, 3] (some 3) none true none none

end RadixKey

end AvaServe.Radix
