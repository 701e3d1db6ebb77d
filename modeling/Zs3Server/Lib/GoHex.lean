import Zs3Server.Lib.ByteString

/-!
# Hexadecimal texts

`encoding/hex`: two digits for each byte, written in lower case and read in either.

* `hexDecode`, `hexEncode` — `hex.DecodeString` and `hex.EncodeToString`;
* `hexDecode_ok_iff` — the texts that are read;
* `hexEncode_of_hexDecode` — a text in lower case is written again as it was.

Nothing here depends on a program.
-/

namespace Zs3Server.Lib.GoHex

open Lib.ByteString

inductive HexError where
  | invalidByte (c : UInt8)
  | length
  deriving DecidableEq

def fromHexChar (c : UInt8) : Option UInt8 :=
  if 48 ≤ c ∧ c ≤ 57 then some (c - 48)
  else if 97 ≤ c ∧ c ≤ 102 then some (c - 97 + 10)
  else if 65 ≤ c ∧ c ≤ 70 then some (c - 65 + 10)
  else none

/-- A byte that is not a digit comes before an odd length. -/
def hexDecode : GoString → Except HexError (List UInt8)
  | [] => .ok []
  | [c] => if (fromHexChar c).isNone then .error (.invalidByte c) else .error .length
  | a :: b :: rest =>
    match fromHexChar a with
    | none => .error (.invalidByte a)
    | some high =>
      match fromHexChar b with
      | none => .error (.invalidByte b)
      | some low => (hexDecode rest).map ((high <<< 4 ||| low) :: ·)

def hexDigit (d : UInt8) : UInt8 := if d < 10 then 48 + d else 97 + (d - 10)

def hexEncode : List UInt8 → GoString
  | [] => []
  | b :: rest => hexDigit (b >>> 4) :: hexDigit (b &&& 15) :: hexEncode rest

/-- A hexadecimal digit. -/
def IsHex (c : UInt8) : Prop := (fromHexChar c).isSome

/-- A hexadecimal digit as it is written. -/
def IsLowerHex (c : UInt8) : Prop := 48 ≤ c ∧ c ≤ 57 ∨ 97 ≤ c ∧ c ≤ 102

instance IsHex.decidable (c : UInt8) : Decidable (IsHex c) := inferInstanceAs (Decidable (_ = true))

instance IsLowerHex.decidable (c : UInt8) : Decidable (IsLowerHex c) := instDecidableOr

/-- A digit in lower case is written again from its value. -/
theorem hexDigit_fromHexChar {c d : UInt8} (hc : IsLowerHex c) (hd : fromHexChar c = some d) :
    hexDigit d = c ∧ d < 16 := by
  have hall : ∀ c : Fin 256, IsLowerHex (UInt8.ofFin c) →
      (fromHexChar (UInt8.ofFin c)).all fun d => hexDigit d = UInt8.ofFin c ∧ d < 16 := by
    decide +kernel
  have h := hall c.toFin hc
  rw [show UInt8.ofFin c.toFin = c from rfl, hd] at h
  simpa using h

theorem not_isHex_dash : ¬ IsHex 45 := by decide

/-- The halves of a byte are read back from it. -/
theorem halves (high low : UInt8) (hhigh : high < 16) (hlow : low < 16) :
    (high <<< 4 ||| low) >>> 4 = high ∧ (high <<< 4 ||| low) &&& 15 = low := by
  have hall : ∀ a b : Fin 16, (UInt8.ofNat a <<< 4 ||| UInt8.ofNat b) >>> 4 = UInt8.ofNat a ∧
      (UInt8.ofNat a <<< 4 ||| UInt8.ofNat b) &&& 15 = UInt8.ofNat b := by decide
  have h := hall ⟨high.toNat, UInt8.lt_iff_toNat_lt.mp hhigh⟩ ⟨low.toNat, UInt8.lt_iff_toNat_lt.mp hlow⟩
  simpa using h

/-- **The texts that are read**: an even number of digits. -/
theorem hexDecode_ok_iff (s : GoString) (k : ℕ) :
    (∃ bytes, hexDecode s = .ok bytes ∧ bytes.length = k) ↔ s.length = 2 * k ∧ ∀ c ∈ s, IsHex c := by
  induction s using hexDecode.induct generalizing k with
  | case1 =>
    simp only [hexDecode, List.length_nil, Except.ok.injEq, exists_eq_left', List.not_mem_nil]
    constructor
    · intro h
      exact ⟨by omega, by simp⟩
    · intro h
      omega
  | case2 c hc =>
    refine iff_of_false ?_ ?_
    · simp [hexDecode, hc]
    · intro h
      simp at h
      omega
  | case3 c hc =>
    refine iff_of_false ?_ ?_
    · simp [hexDecode, hc]
    · intro h
      simp at h
      omega
  | case4 a b rest ha =>
    refine iff_of_false ?_ ?_
    · simp [hexDecode, ha]
    · intro h
      have hhex := h.2 a List.mem_cons_self
      simp [IsHex, ha] at hhex
  | case5 a b rest high ha hb =>
    refine iff_of_false ?_ ?_
    · simp [hexDecode, ha, hb]
    · intro h
      have hhex := h.2 b (by simp)
      simp [IsHex, hb] at hhex
  | case6 a b rest high ha low hb ih =>
    have hrest : (∃ bytes, hexDecode (a :: b :: rest) = .ok bytes ∧ bytes.length = k) ↔
        ∃ m, k = m + 1 ∧ ∃ bytes, hexDecode rest = .ok bytes ∧ bytes.length = m := by
      simp only [hexDecode, ha, hb]
      cases hexDecode rest with
      | error e => simp [Except.map]
      | ok bytes => simp [Except.map, eq_comm]
    rw [hrest]
    simp only [ih, List.length_cons, List.mem_cons, forall_eq_or_imp]
    have hhex : IsHex a ∧ IsHex b := by simp [IsHex, ha, hb]
    constructor
    · intro h
      obtain ⟨m, rfl, hlen, hall⟩ := h
      exact ⟨by omega, hhex.1, hhex.2, hall⟩
    · intro h
      exact ⟨k - 1, by omega, by omega, h.2.2.2⟩

/-- **A text in lower case** is written again as it was. -/
theorem hexEncode_of_hexDecode {s : GoString} {bytes : List UInt8} (h : hexDecode s = .ok bytes)
    (hlower : ∀ c ∈ s, IsLowerHex c) : hexEncode bytes = s := by
  induction s using hexDecode.induct generalizing bytes with
  | case1 =>
    obtain rfl := Except.ok.inj h
    rfl
  | case2 c hc => simp [hexDecode, hc] at h
  | case3 c hc => simp [hexDecode, hc] at h
  | case4 a b rest ha => simp [hexDecode, ha] at h
  | case5 a b rest high ha hb => simp [hexDecode, ha, hb] at h
  | case6 a b rest high ha low hb ih =>
    simp only [hexDecode, ha, hb] at h
    cases hrest : hexDecode rest with
    | error e =>
      rw [hrest] at h
      cases h
    | ok tail =>
      rw [hrest] at h
      obtain rfl := Except.ok.inj h
      obtain ⟨hA, hhigh⟩ := hexDigit_fromHexChar (hlower a List.mem_cons_self) ha
      obtain ⟨hB, hlow⟩ := hexDigit_fromHexChar (hlower b (by simp)) hb
      obtain ⟨hh, hl⟩ := halves high low hhigh hlow
      have htail := ih hrest (fun c hc => hlower c (by simp [hc]))
      show hexDigit _ :: hexDigit _ :: hexEncode tail = _
      rw [htail, hh, hl, hA, hB]

end Zs3Server.Lib.GoHex
