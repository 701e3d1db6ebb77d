import Zs3Server.Lib.ByteString

/-!
# HTTP range specifications

The parser of the `Range` header and the interpretation of a parsed range against the size of a
resource.  A range has one of three forms: closed `a-b`, open-ended `a-` and suffix `-n`; the last
two carry `-1` in `end`, and a suffix carries its negated length in `start`.

* `parseRequestRangeSpec_forms` — an accepted header is one of the three forms, with its bounds;
* `getOffsetLength_closed`, `getOffsetLength_open`, `getOffsetLength_suffix` — the window of bytes
  each form denotes;
* `range_in_resource` — it lies in the resource.
-/

namespace Zs3Server.Cmd.HttpRange

open Lib.ByteString

/-- `HTTPRangeSpec`. -/
structure HTTPRangeSpec where
  isSuffixLength : Bool
  start : ℤ
  stop : ℤ
  deriving DecidableEq

/-- The errors of this file: the sentinel `errInvalidRange`, and errors known by their text. -/
inductive RangeError where
  | invalidRange
  | text (msg : GoString)
  deriving DecidableEq

/-- `GetLength`; a nil receiver is `none`. -/
def getLength (h : Option HTTPRangeSpec) (resourceSize : ℤ) : Except RangeError ℤ :=
  if resourceSize < 0 then .error (.text (lit "Resource size cannot be negative"))
  else match h with
  | none => .ok resourceSize
  | some h =>
    if h.isSuffixLength then
      let specifiedLen := -h.start
      .ok (if specifiedLen > resourceSize then resourceSize else specifiedLen)
    else if h.start ≥ resourceSize then .error .invalidRange
    else if h.stop > -1 then
      let last := if resourceSize ≤ h.stop then resourceSize - 1 else h.stop
      .ok (last - h.start + 1)
    else if h.stop = -1 then .ok (resourceSize - h.start)
    else .error (.text (lit "Unexpected range specification case"))

/-- `GetOffsetLength`. -/
def getOffsetLength (h : Option HTTPRangeSpec) (resourceSize : ℤ) : Except RangeError (ℤ × ℤ) :=
  match h with
  | none => .ok (0, resourceSize)
  | some rs =>
    match getLength (some rs) resourceSize with
    | .error e => .error e
    | .ok length =>
      let start :=
        if rs.isSuffixLength then
          let start := resourceSize + rs.start
          if start < 0 then 0 else start
        else rs.start
      .ok (start, length)

/-! ### The parser -/

/-- `byteRangePrefix`. -/
def byteRangePrefix : GoString := lit "bytes="

/-- One of the two byte positions of the header: `-1` when absent.  The two positions differ only in
the words of their errors. -/
def parseOffset (rangeString s signed invalid negative : GoString) : Except RangeError ℤ :=
  match s with
  | [] => .ok (-1)
  | c :: _ =>
    if c = 43 then .error (.text (lit "Byte position ('" ++ s ++ signed))
    else match parseInt s with
    | none => .error (.text (lit "'" ++ rangeString ++ invalid))
    | some v =>
      if v < 0 then .error (.text (negative ++ formatInt v ++ lit "')"))
      else .ok v

/-- The first byte position. -/
def parseOffsetBegin (rangeString s : GoString) : Except RangeError ℤ :=
  parseOffset rangeString s (lit "') must not have a sign")
    (lit "' does not have a valid first byte position value")
    (lit "First byte position is negative ('")

/-- The last byte position. -/
def parseOffsetEnd (rangeString s : GoString) : Except RangeError ℤ :=
  parseOffset rangeString s (lit "') must not have a sign")
    (lit "' does not have a valid last byte position value")
    (lit "Last byte position is negative ('")

/-- The range two byte positions denote. -/
def rangeOfOffsets (rangeString : GoString) (offsetBegin offsetEnd : ℤ) :
    Except RangeError HTTPRangeSpec :=
  if offsetBegin > -1 ∧ offsetEnd > -1 then
    if offsetBegin > offsetEnd then .error .invalidRange
    else .ok ⟨false, offsetBegin, offsetEnd⟩
  else if offsetBegin > -1 then .ok ⟨false, offsetBegin, -1⟩
  else if offsetEnd > -1 then
    if offsetEnd = 0 then .error .invalidRange else .ok ⟨true, -offsetEnd, -1⟩
  else .error (.text (lit "'" ++ rangeString ++ lit "' does not have valid range value"))

/-- `parseRequestRangeSpec`. -/
def parseRequestRangeSpec (rangeString : GoString) : Except RangeError HTTPRangeSpec :=
  if byteRangePrefix.isPrefixOf rangeString = false then
    .error (.text (lit "'" ++ rangeString ++ lit "' does not start with '" ++ byteRangePrefix ++ lit "'"))
  else
    let byteRangeString := trimPrefix rangeString byteRangePrefix
    match indexByte byteRangeString 45 with
    | none => .error (.text (lit "'" ++ rangeString ++ lit "' does not have a valid range value"))
    | some sepIndex => do
      let offsetBegin ← parseOffsetBegin rangeString (byteRangeString.take sepIndex)
      let offsetEnd ← parseOffsetEnd rangeString (byteRangeString.drop (sepIndex + 1))
      rangeOfOffsets rangeString offsetBegin offsetEnd

/-- The three forms of a range, with the bounds the parser guarantees. -/
inductive RangeForm : HTTPRangeSpec → Prop
  | closed {a b : ℤ} : 0 ≤ a → a ≤ b → b < 2 ^ 63 → RangeForm ⟨false, a, b⟩
  | openEnded {a : ℤ} : 0 ≤ a → a < 2 ^ 63 → RangeForm ⟨false, a, -1⟩
  | suffix {n : ℤ} : 1 ≤ n → n < 2 ^ 63 → RangeForm ⟨true, -n, -1⟩

theorem parseOffset_bounds {rangeString s signed invalid negative : GoString} {v : ℤ}
    (h : parseOffset rangeString s signed invalid negative = .ok v) : -1 ≤ v ∧ v < 2 ^ 63 := by
  unfold parseOffset at h
  split at h
  · obtain rfl := Except.ok.inj h
    norm_num
  · split at h
    · exact absurd h (by simp)
    · split at h
      · exact absurd h (by simp)
      · rename_i w hw
        split at h
        · exact absurd h (by simp)
        · obtain rfl := Except.ok.inj h
          have := parseInt_range hw
          omega

theorem rangeOfOffsets_forms {rangeString : GoString} {x y : ℤ} {rs : HTTPRangeSpec}
    (h : rangeOfOffsets rangeString x y = .ok rs) (hx : -1 ≤ x ∧ x < 2 ^ 63)
    (hy : -1 ≤ y ∧ y < 2 ^ 63) : RangeForm rs := by
  unfold rangeOfOffsets at h
  split at h
  · split at h
    · exact absurd h (by simp)
    · obtain rfl := Except.ok.inj h
      exact RangeForm.closed (by omega) (by omega) hy.2
  · split at h
    · obtain rfl := Except.ok.inj h
      exact RangeForm.openEnded (by omega) hx.2
    · split at h
      · split at h
        · exact absurd h (by simp)
        · obtain rfl := Except.ok.inj h
          exact RangeForm.suffix (by omega) hy.2
      · exact absurd h (by simp)

/-- **An accepted header denotes one of the three forms.** -/
theorem parseRequestRangeSpec_forms {rangeString : GoString} {rs : HTTPRangeSpec}
    (h : parseRequestRangeSpec rangeString = .ok rs) : RangeForm rs := by
  unfold parseRequestRangeSpec at h
  split at h
  · exact absurd h (by simp)
  · dsimp only at h
    split at h
    · exact absurd h (by simp)
    · rename_i sepIndex _
      generalize trimPrefix rangeString byteRangePrefix = t at h
      cases hb : parseOffsetBegin rangeString (t.take sepIndex) with
      | error e => rw [hb] at h; exact absurd h (by simp [bind, Except.bind])
      | ok x =>
        cases he : parseOffsetEnd rangeString (t.drop (sepIndex + 1)) with
        | error e => rw [hb, he] at h; exact absurd h (by simp [bind, Except.bind])
        | ok y =>
          rw [hb, he] at h
          exact rangeOfOffsets_forms h (parseOffset_bounds hb) (parseOffset_bounds he)

example : parseRequestRangeSpec (lit "bytes=2-30") = .ok ⟨false, 2, 30⟩ := by decide

/-! ### The window a form denotes -/

theorem getOffsetLength_closed {a b s : ℤ} (ha : 0 ≤ a) (hab : a ≤ b) (has : a < s) :
    getOffsetLength (some ⟨false, a, b⟩) s = .ok (a, min b (s - 1) - a + 1) := by
  simp only [getOffsetLength, getLength]
  rw [if_neg (by omega), if_neg (by simp), if_neg (by simp; omega), if_pos (by simp; omega)]
  simp only [Bool.false_eq_true, if_false]
  congr 2
  split <;> omega

theorem getOffsetLength_open {a s : ℤ} (ha : 0 ≤ a) (has : a < s) :
    getOffsetLength (some ⟨false, a, -1⟩) s = .ok (a, s - a) := by
  simp only [getOffsetLength, getLength]
  rw [if_neg (by omega), if_neg (by simp), if_neg (by simp; omega), if_neg (by simp), if_pos trivial]
  simp

theorem getOffsetLength_suffix {n s : ℤ} (hs : 0 ≤ s) :
    getOffsetLength (some ⟨true, -n, -1⟩) s = .ok (max (s - n) 0, min n s) := by
  simp only [getOffsetLength, getLength]
  rw [if_neg (by omega), if_pos trivial]
  simp only [if_true, neg_neg]
  congr 2
  · split <;> omega
  · split <;> omega

/-- A range that does not start with a suffix and lies past the end is refused. -/
theorem getOffsetLength_past_end {a b s : ℤ} (hs : 0 ≤ s) (has : s ≤ a) :
    getOffsetLength (some ⟨false, a, b⟩) s = .error .invalidRange := by
  simp only [getOffsetLength, getLength]
  rw [if_neg (by omega), if_neg (by simp), if_pos (by simpa using has)]

/-- A range without an error has the length that the reader keeps. -/
theorem getLength_of_getOffsetLength {rs : Option HTTPRangeSpec} {size : ℤ} (hsize : 0 ≤ size) {off length : ℤ}
    (h : getOffsetLength rs size = .ok (off, length)) : getLength rs size = .ok length := by
  unfold getOffsetLength at h
  cases rs with
  | none =>
    cases h
    simp [getLength, not_lt.mpr hsize]
  | some rs =>
    simp only at h
    split at h
    · cases h
    · next l hl =>
      cases h
      exact hl

/-- **The window of an accepted header lies in the resource**, and is empty only in an empty one; a
range is refused only when it starts past the end. -/
theorem range_in_resource {rangeString : GoString} {rs : HTTPRangeSpec} {size : ℤ}
    (h : parseRequestRangeSpec rangeString = .ok rs) (hsize : 0 ≤ size) :
    (∃ off len, getOffsetLength (some rs) size = .ok (off, len) ∧ 0 ≤ off ∧ off + len ≤ size ∧
        (0 < len ∨ size = 0 ∧ len = 0)) ∨
      size ≤ rs.start ∧ getOffsetLength (some rs) size = .error .invalidRange := by
  cases parseRequestRangeSpec_forms h with
  | @closed a b ha hab _ =>
    by_cases hs : a < size
    · exact .inl ⟨_, _, getOffsetLength_closed ha hab hs, by omega⟩
    · exact .inr ⟨not_lt.mp hs, getOffsetLength_past_end hsize (not_lt.mp hs)⟩
  | @openEnded a ha _ =>
    by_cases hs : a < size
    · exact .inl ⟨_, _, getOffsetLength_open ha hs, by omega⟩
    · exact .inr ⟨not_lt.mp hs, getOffsetLength_past_end hsize (not_lt.mp hs)⟩
  | suffix hn _ => exact .inl ⟨_, _, getOffsetLength_suffix hsize, by omega⟩

/-- The last five of three bytes. -/
theorem range_in_resource_long_suffix :
    ∃ off len, getOffsetLength (some ⟨true, -5, -1⟩) 3 = .ok (off, len) ∧ off + len ≤ 3 := by
  have hparse : parseRequestRangeSpec (lit "bytes=-5") = .ok ⟨true, -5, -1⟩ := by decide
  obtain ⟨off, len, hok, -, hle, -⟩ | ⟨hpast, -⟩ := range_in_resource hparse (by decide : (0 : ℤ) ≤ 3)
  · exact ⟨off, len, hok, hle⟩
  · exact absurd hpast (by decide)

end Zs3Server.Cmd.HttpRange
