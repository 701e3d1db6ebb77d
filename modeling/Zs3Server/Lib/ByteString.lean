import Mathlib

/-!
# Byte strings

Strings as the Go standard library sees them: finite sequences of bytes, ordered
lexicographically by byte value.  The functions of `strings` and `strconv` used by the models are
given by their documented behaviour.

* `lit` — an ASCII literal;
* `trimPrefix`, `trimSuffix`, `indexByte`, `contains` — as in `strings`;
* `cut_unique` — the cut of a string at the first occurrence of a byte;
* `parseInt` — `strconv.ParseInt(s, 10, 64)`; `signedDigits_cases` — the shapes of what it reads;
* `formatInt` — the `%d` verb.
-/

namespace Zs3Server.Lib.ByteString

/-- A Go string. -/
abbrev GoString := List UInt8

/-- The bytes of an ASCII literal. -/
def lit (s : String) : GoString := s.toList.map fun c => c.toNat.toUInt8

instance byteOrder : LinearOrder UInt8 where
  le_refl := UInt8.le_refl
  le_trans _ _ _ := UInt8.le_trans
  lt_iff_le_not_ge a b := by
    rw [UInt8.lt_iff_toNat_lt, UInt8.le_iff_toNat_le, UInt8.le_iff_toNat_le]
    omega
  le_antisymm _ _ := UInt8.le_antisymm
  le_total := UInt8.le_total
  toDecidableLE := inferInstance
  toDecidableLT := inferInstance

instance bytesLawfulBEq : LawfulBEq (List UInt8) := inferInstance

/-- `strings.TrimPrefix`. -/
def trimPrefix (s p : GoString) : GoString := if p.isPrefixOf s then s.drop p.length else s

/-- `strings.TrimSuffix`. -/
def trimSuffix (s p : GoString) : GoString :=
  if p.isSuffixOf s then s.take (s.length - p.length) else s

/-- `strings.Index` of a one-byte string; `none` for the `-1` of the source. -/
def indexByte (s : GoString) (c : UInt8) : Option ℕ := s.findIdx? (· == c)

theorem indexByte_eq_none_iff (s : GoString) (c : UInt8) : indexByte s c = none ↔ c ∉ s := by
  simp only [indexByte, List.findIdx?_eq_none_iff, beq_eq_false_iff_ne]
  exact ⟨fun h hc => h c hc rfl, fun h x hx hxc => h (hxc ▸ hx)⟩

theorem indexByte_append {h : GoString} {c : UInt8} (hc : c ∉ h) (d : GoString) :
    indexByte (h ++ c :: d) c = some h.length := by
  induction h with
  | nil => simp [indexByte, List.findIdx?_cons]
  | cons x rest ih =>
    obtain ⟨hx, hrest⟩ := not_or.mp (mt List.mem_cons.mpr hc)
    have hne : (x == c) = false := beq_eq_false_iff_ne.mpr (Ne.symm hx)
    have htail := ih hrest
    simp only [indexByte] at htail
    simp [indexByte, List.findIdx?_cons, hne, htail]

/-- A string is cut at the first occurrence of a byte in one way. -/
theorem cut_unique {h h' d d' : GoString} {c : UInt8} (heq : h ++ c :: d = h' ++ c :: d')
    (hc : c ∉ h) (hc' : c ∉ h') : h = h' ∧ d = d' := by
  have hlen : h.length = h'.length := by
    have hidx := indexByte_append hc d
    rw [heq, indexByte_append hc' d'] at hidx
    exact (Option.some.inj hidx).symm
  obtain ⟨hh, hd⟩ := List.append_inj heq hlen
  exact ⟨hh, (List.cons.inj hd).2⟩

/-- `strings.Contains`. -/
def contains (s sub : GoString) : Bool :=
  match s with
  | [] => sub.isEmpty
  | c :: cs => sub.isPrefixOf (c :: cs) || contains cs sub

theorem contains_append (a sub b : GoString) : contains (a ++ (sub ++ b)) sub = true := by
  have hhere : ∀ s, sub <+: s → contains s sub = true := by
    intro s hs
    cases s with
    | nil => simp [contains, List.prefix_nil.mp hs]
    | cons c cs => rw [contains, List.isPrefixOf_iff_prefix.mpr hs, Bool.true_or]
  induction a with
  | nil => exact hhere _ (List.prefix_append sub b)
  | cons c a ih => rw [List.cons_append, contains, ih, Bool.or_true]

theorem trimPrefix_append (p s : GoString) : trimPrefix (p ++ s) p = s := by
  have h : p.isPrefixOf (p ++ s) = true := by simp
  rw [trimPrefix, if_pos h, List.drop_left]

/-! ### Decimal numbers -/

/-- The value of a decimal digit. -/
def digitVal (c : UInt8) : Option ℕ := if 48 ≤ c ∧ c ≤ 57 then some (c.toNat - 48) else none

/-- The value of a run of decimal digits, continuing from `acc`; `none` on any other byte. -/
def parseDigits : ℕ → GoString → Option ℕ
  | acc, [] => some acc
  | acc, c :: cs => (digitVal c).bind fun d => parseDigits (10 * acc + d) cs

/-- A non-empty run of decimal digits. -/
def parseUint (s : GoString) : Option ℕ := if s = [] then none else parseDigits 0 s

/-- `strconv.ParseInt(s, 10, 64)`: an optional sign and a non-empty run of digits whose value is an
`int64`; `none` stands for a syntax or range error. -/
def parseInt (s : GoString) : Option ℤ :=
  let signed : Option ℤ :=
    match s with
    | [] => none
    | c :: cs =>
      if c = 45 then (parseUint cs).map fun n => -(n : ℤ)
      else if c = 43 then (parseUint cs).map fun n => (n : ℤ)
      else (parseUint (c :: cs)).map fun n => (n : ℤ)
  signed.filter fun v => decide (-2 ^ 63 ≤ v ∧ v < 2 ^ 63)

/-- The `%d` verb. -/
def formatInt (v : ℤ) : GoString := lit (toString v)

theorem parseDigits_of_not_digit {c : UInt8} (hc : digitVal c = none) {s : GoString} (hs : c ∈ s)
    (acc : ℕ) : parseDigits acc s = none := by
  induction s generalizing acc with
  | nil => cases hs
  | cons x rest ih =>
    rcases List.mem_cons.mp hs with hx | hrest
    · rw [parseDigits, ← hx, hc]
      rfl
    · rw [parseDigits]
      cases digitVal x with
      | none => rfl
      | some d => exact ih hrest _

theorem parseUint_of_not_digit {c : UInt8} (hc : digitVal c = none) {s : GoString} (hs : c ∈ s) :
    parseUint s = none := by
  rw [parseUint, if_neg (List.ne_nil_of_mem hs)]
  exact parseDigits_of_not_digit hc hs 0

/-- A sign and a run of digits, before the range is looked at. -/
def signedDigits : GoString → Option ℤ
  | [] => none
  | c :: cs =>
    if c = 45 then (parseUint cs).map fun n => -(n : ℤ)
    else if c = 43 then (parseUint cs).map fun n => (n : ℤ)
    else (parseUint (c :: cs)).map fun n => (n : ℤ)

theorem parseInt_eq_some_iff (s : GoString) (p : ℤ) :
    parseInt s = some p ↔ signedDigits s = some p ∧ -2 ^ 63 ≤ p ∧ p < 2 ^ 63 := by
  have hparse : parseInt s =
      (signedDigits s).filter fun v => decide (-2 ^ 63 ≤ v ∧ v < 2 ^ 63) := by
    cases s with
    | nil => rfl
    | cons c cs => rfl
  rw [hparse, Option.filter_eq_some_iff, decide_eq_true_iff]

theorem parseInt_range {s : GoString} {v : ℤ} (h : parseInt s = some v) :
    -2 ^ 63 ≤ v ∧ v < 2 ^ 63 :=
  ((parseInt_eq_some_iff s v).mp h).2

@[simp] theorem signedDigits_minus (d : GoString) (p : ℤ) :
    signedDigits (45 :: d) = some p ↔ ∃ n : ℕ, parseUint d = some n ∧ p = -n := by
  cases h : parseUint d with
  | none => simp [signedDigits, h]
  | some n => simp [signedDigits, h, eq_comm]

@[simp] theorem signedDigits_plus (d : GoString) (p : ℤ) :
    signedDigits (43 :: d) = some p ↔ ∃ n : ℕ, parseUint d = some n ∧ p = n := by
  cases h : parseUint d with
  | none => simp [signedDigits, h]
  | some n => simp [signedDigits, h, eq_comm]

theorem signedDigits_unsigned {c : UInt8} (hminus : c ≠ 45) (hplus : c ≠ 43) (cs : GoString)
    (p : ℤ) : signedDigits (c :: cs) = some p ↔ ∃ n : ℕ, parseUint (c :: cs) = some n ∧ p = n := by
  cases h : parseUint (c :: cs) with
  | none => simp [signedDigits, h, hminus, hplus]
  | some n => simp [signedDigits, h, hminus, hplus, eq_comm]

/-- A run of digits is its own number. -/
theorem signedDigits_of_parseUint {d : GoString} {n : ℕ} (h : parseUint d = some n) :
    signedDigits d = some (n : ℤ) := by
  cases d with
  | nil => cases h
  | cons c cs =>
    have hsign : ∀ x, digitVal x = none → c ≠ x := by
      intro x hx hcx
      rw [parseUint_of_not_digit hx (by simp [hcx])] at h
      cases h
    exact (signedDigits_unsigned (hsign 45 rfl) (hsign 43 rfl) cs n).mpr ⟨n, h, rfl⟩

/-- A number is a run of digits, alone or after one sign. -/
theorem signedDigits_cases {d : GoString} {p : ℤ} (h : signedDigits d = some p) :
    (∃ n : ℕ, parseUint d = some n ∧ p = n) ∨
      (∃ digits, ∃ n : ℕ, d = 43 :: digits ∧ parseUint digits = some n ∧ p = n) ∨
        ∃ digits, ∃ n : ℕ, d = 45 :: digits ∧ parseUint digits = some n ∧ p = -n := by
  cases d with
  | nil => cases h
  | cons c cs =>
    by_cases hminus : c = 45
    · rw [hminus, signedDigits_minus] at h
      obtain ⟨n, hn, hp⟩ := h
      exact .inr (.inr ⟨cs, n, by rw [hminus], hn, hp⟩)
    · by_cases hplus : c = 43
      · rw [hplus, signedDigits_plus] at h
        obtain ⟨n, hn, hp⟩ := h
        exact .inr (.inl ⟨cs, n, by rw [hplus], hn, hp⟩)
      · exact .inl ((signedDigits_unsigned hminus hplus cs p).mp h)

end Zs3Server.Lib.ByteString
