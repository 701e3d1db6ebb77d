import Zs3Server.Lib.GoHex

/-!
# ETags and their texts

`parse` reads an S3 ETag from a header: hexadecimal digits, in quotes or not, and for a multipart
upload a dash and the number of parts.  The value keeps the digest's bytes and appends the dash and
the number as text, so `IsMultipart` and `Parts` find the dash again by searching those bytes.

* `accepts_bare_iff` — what strict parsing accepts once the quotes are gone;
* `strict_parse_grammar_iff` — the texts on which it accepts exactly the documented grammar;
* `parse_cases` — the two shapes of an accepted ETag;
* `keeps_kind_iff` — the digests whose kind and number of parts survive.
-/

namespace Zs3Server.Etag

open Lib.ByteString Lib.GoHex

abbrev ETag := List UInt8

inductive ETagError where
  | hex (e : HexError)
  -- etag: invalid length %d
  | invalidLength (n : ℕ)
  -- etag: invalid prefix length %d
  | invalidPrefixLength (n : ℕ)
  -- etag: suffix is not a part number
  | notPartNumber
  | atoi (num : GoString)
  -- etag: invalid part number %d
  | invalidPartNumber (n : ℤ)
  deriving DecidableEq

/-- The quotes are taken off by `s[1 : len(s)-1]`; `none` is the panic of that slice. -/
def unquote (s : GoString) : Option GoString :=
  if [34].isPrefixOf s && [34].isSuffixOf s then
    if s.length < 2 then none else some ((s.drop 1).take (s.length - 2))
  else some s

/-- The rest of `parse`, after the quotes. -/
def parseBare (s : GoString) (strict : Bool) : Except ETagError ETag :=
  match indexByte s 45 with
  | none =>
    match hexDecode s with
    | .error e => .error (.hex e)
    | .ok etag =>
      if strict = true ∧ etag.length ≠ 16 then .error (.invalidLength etag.length) else .ok etag
  | some n =>
    let pre := s.take n
    let suffix := s.drop n
    if pre.length ≠ 32 then .error (.invalidPrefixLength pre.length)
    else if suffix.length ≤ 1 then .error .notPartNumber
    else
      match hexDecode pre with
      | .error e => .error (.hex e)
      | .ok etag =>
        match parseInt (suffix.drop 1) with
        | none => .error (.atoi (suffix.drop 1))
        | some partNumber =>
          if strict = true ∧ (partNumber = 0 ∨ partNumber > 10000) then
            .error (.invalidPartNumber partNumber)
          else .ok (etag ++ suffix)

/-- `none` is a panic. -/
def parse (s : GoString) (strict : Bool) : Option (Except ETagError ETag) :=
  (unquote s).map fun t => parseBare t strict

def isMultipart (e : ETag) : Bool := decide (e.length > 16) && (indexByte e 45).isSome

/-- `ETag.String`. -/
def toText (e : ETag) : GoString :=
  if isMultipart e then hexEncode (e.take 16) ++ e.drop 16 else hexEncode e

/-- `none` is the panic on a malformed ETag. -/
def parts (e : ETag) : Option ℤ :=
  if isMultipart e then (indexByte e 45).bind fun n => parseInt (e.drop (n + 1)) else some 1

/-! ## After the quotes -/

theorem parseBare_plain {s : GoString} (hs : 45 ∉ s) (strict : Bool) :
    parseBare s strict = match hexDecode s with
      | .error e => .error (.hex e)
      | .ok etag =>
        if strict = true ∧ etag.length ≠ 16 then .error (.invalidLength etag.length)
        else .ok etag := by
  rw [parseBare, (indexByte_eq_none_iff s 45).mpr hs]

/-- **What is accepted after a dash**: sixteen bytes, then a number. -/
theorem parseBare_dash_iff {h : GoString} (hh : 45 ∉ h) (d : GoString) (strict : Bool) (e : ETag) :
    parseBare (h ++ 45 :: d) strict = .ok e ↔
      ∃ digest p, hexDecode h = .ok digest ∧ digest.length = 16 ∧ parseInt d = some p ∧
        ¬ (strict = true ∧ (p = 0 ∨ p > 10000)) ∧ e = digest ++ 45 :: d := by
  have hlen : ∀ digest, hexDecode h = .ok digest → (h.length = 32 ↔ digest.length = 16) := by
    intro digest hdec
    have := ((hexDecode_ok_iff h digest.length).mp ⟨digest, hdec, rfl⟩).1
    omega
  have hempty : parseInt [] = none := rfl
  rw [parseBare, indexByte_append hh d]
  simp only [List.take_left', List.drop_left', List.drop_succ_cons, List.drop_zero,
    List.length_cons]
  cases hdec : hexDecode h with
  | error err =>
    simp only [reduceCtorEq, false_and, exists_false, iff_false]
    split
    · simp
    · split <;> simp
  | ok digest =>
    have hlen' := hlen digest hdec
    by_cases h32 : h.length = 32
    · rw [if_neg (by simp [h32])]
      cases hd : parseInt d with
      | none =>
        simp only [reduceCtorEq, false_and, and_false, exists_false, iff_false]
        split <;> simp
      | some p =>
        have hne : d ≠ [] := by
          intro hd'
          rw [hd', hempty] at hd
          cases hd
        have hpos := List.length_pos_of_ne_nil hne
        rw [if_neg (by omega)]
        dsimp only
        by_cases hbad : strict = true ∧ (p = 0 ∨ p > 10000)
        · rw [if_pos hbad]
          refine iff_of_false (by simp) ?_
          intro h
          obtain ⟨digest', p', -, -, hp', hok, -⟩ := h
          obtain rfl := Option.some.inj hp'
          exact hok hbad
        · rw [if_neg hbad, Except.ok.injEq]
          constructor
          · intro h
            exact ⟨digest, p, rfl, hlen'.mp h32, rfl, hbad, h.symm⟩
          · intro h
            obtain ⟨digest', p', hdec', -, -, -, he⟩ := h
            obtain rfl := Except.ok.inj hdec'
            exact he.symm
    · have h16 := mt hlen'.mpr h32
      rw [if_pos (by simpa using h32)]
      simp [h16]

/-! ## The grammar -/

/-- A text without its pair of quotes, where it has one. -/
def stripQuotes (s : GoString) : GoString :=
  if 2 ≤ s.length ∧ s.head? = some 34 ∧ s.getLast? = some 34 then s.tail.dropLast else s

/-- 32 hexadecimal digits. -/
def IsDigest (h : GoString) : Prop := h.length = 32 ∧ ∀ c ∈ h, IsHex c

/-- **The documented grammar**: a digest, or a digest, a dash and a number from 1 to 10000. -/
def Grammar (s : GoString) : Prop :=
  IsDigest s ∨ ∃ h d n, s = h ++ 45 :: d ∧ IsDigest h ∧ parseUint d = some n ∧ 1 ≤ n ∧ n ≤ 10000

/-- A number with a sign that strict parsing lets through: up to 10000 after a plus, and any
negative `int64`. -/
def SignedNumber (d : GoString) : Prop :=
  ∃ sign digits n, d = sign :: digits ∧ parseUint digits = some n ∧
    (sign = 43 ∧ 1 ≤ n ∧ n ≤ 10000 ∨ sign = 45 ∧ 1 ≤ n ∧ n ≤ 2 ^ 63)

def SignedParts (s : GoString) : Prop := ∃ h d, s = h ++ 45 :: d ∧ IsDigest h ∧ SignedNumber d

theorem IsDigest.not_mem {h : GoString} (hh : IsDigest h) : 45 ∉ h := by
  intro hmem
  exact not_isHex_dash (hh.2 45 hmem)

theorem isDigest_iff (h : GoString) :
    IsDigest h ↔ ∃ digest, hexDecode h = .ok digest ∧ digest.length = 16 :=
  (hexDecode_ok_iff h 16).symm

/-- **The numbers strict parsing accepts.** -/
theorem partNumber_iff (d : GoString) :
    (∃ p, parseInt d = some p ∧ ¬ (p = 0 ∨ p > 10000)) ↔
      (∃ n, parseUint d = some n ∧ 1 ≤ n ∧ n ≤ 10000) ∨ SignedNumber d := by
  simp only [parseInt_eq_some_iff]
  constructor
  · intro h
    obtain ⟨p, ⟨hp, hlow, hhigh⟩, hrange⟩ := h
    rcases signedDigits_cases hp with hd | hd | hd
    · obtain ⟨n, hn, rfl⟩ := hd
      exact .inl ⟨n, hn, by omega, by omega⟩
    · obtain ⟨digits, n, rfl, hn, rfl⟩ := hd
      exact .inr ⟨43, digits, n, rfl, hn, .inl ⟨rfl, by omega, by omega⟩⟩
    · obtain ⟨digits, n, rfl, hn, rfl⟩ := hd
      exact .inr ⟨45, digits, n, rfl, hn, .inr ⟨rfl, by omega, by omega⟩⟩
  · intro h
    rcases h with h | h
    · obtain ⟨n, hn, h1, h2⟩ := h
      exact ⟨n, ⟨signedDigits_of_parseUint hn, by omega, by omega⟩, by omega⟩
    · obtain ⟨sign, digits, n, rfl, hn, h | h⟩ := h
      · obtain ⟨rfl, h1, h2⟩ := h
        exact ⟨n, ⟨(signedDigits_plus _ _).mpr ⟨n, hn, rfl⟩, by omega, by omega⟩, by omega⟩
      · obtain ⟨rfl, h1, h2⟩ := h
        exact ⟨-n, ⟨(signedDigits_minus _ _).mpr ⟨n, hn, rfl⟩, by omega, by omega⟩, by omega⟩

/-- **What strict parsing accepts**: the grammar, and a part number with a sign. -/
theorem accepts_bare_iff (s : GoString) :
    (∃ e, parseBare s true = .ok e) ↔ Grammar s ∨ SignedParts s := by
  by_cases hs : 45 ∈ s
  · obtain ⟨h, d, rfl, hh⟩ := List.eq_append_cons_of_mem hs
    have hparse : (∃ e, parseBare (h ++ 45 :: d) true = .ok e) ↔
        IsDigest h ∧ ∃ p, parseInt d = some p ∧ ¬ (p = 0 ∨ p > 10000) := by
      simp only [parseBare_dash_iff hh, isDigest_iff, true_and]
      constructor
      · intro he
        obtain ⟨e, digest, p, hdec, hlen, hp, hrange, -⟩ := he
        exact ⟨⟨digest, hdec, hlen⟩, p, hp, hrange⟩
      · intro he
        obtain ⟨⟨digest, hdec, hlen⟩, p, hp, hrange⟩ := he
        exact ⟨_, digest, p, hdec, hlen, hp, hrange, rfl⟩
    rw [hparse, partNumber_iff]
    constructor
    · intro he
      obtain ⟨hdigest, hnum | hnum⟩ := he
      · obtain ⟨n, hn⟩ := hnum
        exact .inl (.inr ⟨h, d, n, rfl, hdigest, hn⟩)
      · exact .inr ⟨h, d, rfl, hdigest, hnum⟩
    · intro he
      rcases he with (hdigest | hcut) | hcut
      · exact absurd hs hdigest.not_mem
      · obtain ⟨h', d', n, heq, hdigest, hn⟩ := hcut
        obtain ⟨rfl, rfl⟩ := cut_unique heq hh hdigest.not_mem
        exact ⟨hdigest, .inl ⟨n, hn⟩⟩
      · obtain ⟨h', d', heq, hdigest, hn⟩ := hcut
        obtain ⟨rfl, rfl⟩ := cut_unique heq hh hdigest.not_mem
        exact ⟨hdigest, .inr hn⟩
  · have hcut : ∀ h d, s ≠ h ++ 45 :: d := by
      intro h d heq
      exact hs (by simp [heq])
    have hright : Grammar s ∨ SignedParts s ↔ IsDigest s := by simp [Grammar, SignedParts, hcut]
    rw [hright, isDigest_iff, parseBare_plain hs]
    cases hexDecode s with
    | error err => simp
    | ok digest =>
      by_cases h16 : digest.length = 16
      · simp [h16]
      · simp [h16]

/-- The grammar has no signs. -/
theorem not_grammar_of_signedParts {s : GoString} (h : SignedParts s) : ¬ Grammar s := by
  intro hg
  obtain ⟨pre, d, rfl, hdigest, sign, digits, n, rfl, -, hsign⟩ := h
  rcases hg with hg | hg
  · exact hg.not_mem (by simp)
  · obtain ⟨pre', d', m, heq, hdigest', hm, -⟩ := hg
    obtain ⟨-, rfl⟩ := cut_unique heq hdigest.not_mem hdigest'.not_mem
    have hnone : digitVal sign = none := by
      rcases hsign with h | h
      · rw [h.1]
        rfl
      · rw [h.1]
        rfl
    rw [parseUint_of_not_digit hnone List.mem_cons_self] at hm
    cases hm

/-- The quotes come off as a pair, and a lone quote panics. -/
theorem unquote_eq (s : GoString) : unquote s = if s = [34] then none else some (stripQuotes s) := by
  have hfirst : [34].isPrefixOf s = true ↔ s.head? = some 34 := by
    cases s with
    | nil => simp
    | cons c cs =>
      simp only [List.isPrefixOf, Bool.and_true, beq_iff_eq, List.head?_cons, Option.some.injEq]
      exact eq_comm
  have hlast : [34].isSuffixOf s = true ↔ s.getLast? = some 34 := by
    rw [List.isSuffixOf_iff_suffix, List.singleton_suffix_iff_getLast?_eq_some]
  by_cases hq : s.head? = some 34 ∧ s.getLast? = some 34
  · have hcond : ([34].isPrefixOf s && [34].isSuffixOf s) = true := by
      rw [Bool.and_eq_true, hfirst, hlast]
      exact hq
    rw [unquote, if_pos hcond]
    by_cases hlen : 2 ≤ s.length
    · have hne : s ≠ [34] := by
        intro h
        rw [h] at hlen
        simp at hlen
      rw [if_neg (by omega), if_neg hne, stripQuotes, if_pos ⟨hlen, hq⟩, List.dropLast_eq_take,
        List.length_tail, List.drop_one, Nat.sub_sub]
    · have hone : s = [34] := by
        match s, hq, hlen with
        | [], hq, _ => simp at hq
        | [c], hq, _ => simpa using hq.1
        | _ :: _ :: _, _, hlen => simp at hlen
      rw [if_pos (by omega), if_pos hone]
  · have hcond : ¬ ([34].isPrefixOf s && [34].isSuffixOf s) = true := by
      rw [Bool.and_eq_true, hfirst, hlast]
      exact hq
    have hne : s ≠ [34] := by
      intro h
      exact hq (by simp [h])
    rw [unquote, if_neg hcond, if_neg hne, stripQuotes, if_neg (fun h => hq h.2)]

/-- **Where strict parsing is its grammar**: everywhere but on a lone quote, which panics, and on
part numbers with a sign, which are accepted. -/
theorem strict_parse_grammar_iff (s : GoString) :
    (parse s true ≠ none ∧ ((∃ e, parse s true = some (.ok e)) ↔ Grammar (stripQuotes s))) ↔
      s ≠ [34] ∧ ¬ SignedParts (stripQuotes s) := by
  rw [parse, unquote_eq]
  by_cases hs : s = [34]
  · simp [hs]
  · have haccept := accepts_bare_iff (stripQuotes s)
    have hexcl : SignedParts (stripQuotes s) → ¬ Grammar (stripQuotes s) :=
      not_grammar_of_signedParts
    rw [if_neg hs, Option.map_some]
    simp only [ne_eq, reduceCtorEq, not_false_eq_true, true_and, Option.some.injEq, haccept, hs]
    constructor
    · intro h hsigned
      exact hexcl hsigned (h.mp (.inr hsigned))
    · intro h
      exact ⟨fun hg => hg.resolve_right h, .inl⟩

/-- A quote alone panics, and minus one is taken for a number of parts. -/
theorem strict_parse_off_grammar :
    parse (lit "\"") true = none ∧
      (∃ e, parse (lit "00000000000000000000000000000000--1") true = some (.ok e)) ∧
        ¬ Grammar (stripQuotes (lit "00000000000000000000000000000000--1")) := by
  have hsigned : SignedParts (stripQuotes (lit "00000000000000000000000000000000--1")) :=
    ⟨lit "00000000000000000000000000000000", lit "-1", by decide, by unfold IsDigest; decide +kernel,
      45, lit "1", 1, by decide, by decide, .inr ⟨rfl, by decide, by decide⟩⟩
  exact ⟨by decide, ⟨_, rfl⟩, not_grammar_of_signedParts hsigned⟩

/-! ## Kinds -/

/-- The text after the first dash. -/
def afterDash (s : GoString) : GoString := (s.dropWhile (· != 45)).drop 1

/-- Unquoted, with digits in lower case before the dash.  The form of the part number does not
matter: it is kept as text. -/
def LowerCase (s : GoString) : Prop := ∀ c ∈ s.takeWhile (· != 45), IsLowerHex c

/-- The kind and the value of a text are those of its ETag. -/
def Keeps (s : GoString) (e : ETag) : Prop :=
  toText e = s ∧ (isMultipart e = true ↔ 45 ∈ s) ∧
    parts e = if 45 ∈ s then parseInt (afterDash s) else some 1

/-- No byte of the digest is taken for the dash; or only its last one, before a zero. -/
def ReadsBack (s : GoString) (e : ETag) : Prop :=
  if 45 ∈ s then 45 ∉ e.take 16 ∨ 45 ∉ e.take 15 ∧ parseUint (afterDash s) = some 0
  else e.length ≤ 16 ∨ 45 ∉ e

theorem bne_dash_of_not_mem {s : GoString} (hs : 45 ∉ s) : ∀ c ∈ s, (c != 45) = true := by
  intro c hc
  simp only [bne_iff_ne]
  intro h45
  exact hs (h45 ▸ hc)

theorem takeWhile_dash {h : GoString} (hh : 45 ∉ h) (d : GoString) :
    (h ++ 45 :: d).takeWhile (· != 45) = h ∧ afterDash (h ++ 45 :: d) = d := by
  have hall := bne_dash_of_not_mem hh
  refine ⟨?_, ?_⟩
  · rw [List.takeWhile_append_of_pos hall]
    simp
  · rw [afterDash, List.dropWhile_append_of_pos hall]
    simp

theorem isMultipart_iff (e : ETag) : isMultipart e = true ↔ 16 < e.length ∧ 45 ∈ e := by
  have h := indexByte_eq_none_iff e 45
  rw [isMultipart, Bool.and_eq_true, decide_eq_true_iff, Option.isSome_iff_ne_none, ne_eq, h, not_not]

theorem isMultipart_dash {digest : List UInt8} (hlen : digest.length = 16) (d : GoString) :
    isMultipart (digest ++ 45 :: d) = true := by
  rw [isMultipart_iff]
  simp [hlen]

theorem unquote_of_lowerCase {s : GoString} (hs : LowerCase s) : unquote s = some s := by
  have hfirst : [34].isPrefixOf s = false := by
    cases s with
    | nil => rfl
    | cons c cs =>
      by_cases hc : c = 34
      · have hlow := hs 34 (by simp [hc])
        exact absurd hlow (by decide)
      · show ((34 : UInt8) == c && _) = false
        rw [beq_eq_false_iff_ne.mpr (Ne.symm hc), Bool.false_and]
  rw [unquote, hfirst]
  rfl

/-- **The two shapes of an accepted ETag.** -/
theorem parse_cases {s : GoString} {e : ETag} (hparse : parse s false = some (.ok e))
    (hs : LowerCase s) :
    (45 ∉ s ∧ hexDecode s = .ok e) ∨
      ∃ h d digest p, s = h ++ 45 :: d ∧ 45 ∉ h ∧ hexDecode h = .ok digest ∧
        digest.length = 16 ∧ parseInt d = some p ∧ e = digest ++ 45 :: d := by
  rw [parse, unquote_of_lowerCase hs, Option.map_some, Option.some.injEq] at hparse
  by_cases hdash : 45 ∈ s
  · obtain ⟨h, d, rfl, hh⟩ := List.eq_append_cons_of_mem hdash
    obtain ⟨digest, p, hdec, hlen, hp, -, he⟩ := (parseBare_dash_iff hh d false e).mp hparse
    exact .inr ⟨h, d, digest, p, rfl, hh, hdec, hlen, hp, he⟩
  · rw [parseBare_plain hdash] at hparse
    refine .inl ⟨hdash, ?_⟩
    cases hdec : hexDecode s with
    | error err =>
      rw [hdec] at hparse
      cases hparse
    | ok bytes =>
      rw [hdec] at hparse
      simpa using hparse

/-- A dash inside what should be a number is no number, but for one at its front. -/
theorem parseInt_inner_dash (c : UInt8) (b d : GoString) (p : ℤ) :
    parseInt (c :: (b ++ 45 :: d)) ≠ some p := by
  intro h
  have hnone : ∀ s : GoString, 45 ∈ s → ∀ n, parseUint s ≠ some n := by
    intro s hs n hn
    rw [parseUint_of_not_digit rfl hs] at hn
    cases hn
  rcases signedDigits_cases ((parseInt_eq_some_iff _ _).mp h).1 with hd | hd | hd
  · obtain ⟨n, hn, -⟩ := hd
    exact hnone _ (by simp) n hn
  · obtain ⟨digits, n, heq, hn, -⟩ := hd
    exact hnone _ (by simp [← (List.cons.inj heq).2]) n hn
  · obtain ⟨digits, n, heq, hn, -⟩ := hd
    exact hnone _ (by simp [← (List.cons.inj heq).2]) n hn

/-- Minus a number is the number only for zero. -/
theorem parseInt_minus_eq_iff {d : GoString} {p : ℤ} (hp : parseInt d = some p) :
    parseInt (45 :: d) = some p ↔ parseUint d = some 0 := by
  have hd := ((parseInt_eq_some_iff d p).mp hp).1
  rw [parseInt_eq_some_iff, signedDigits_minus]
  constructor
  · intro h
    obtain ⟨⟨n, hn, hneg⟩, -⟩ := h
    rw [signedDigits_of_parseUint hn] at hd
    have hpos := Option.some.inj hd
    have hzero : n = 0 := by omega
    rw [hn, hzero]
  · intro h
    rw [signedDigits_of_parseUint h] at hd
    obtain rfl := Option.some.inj hd
    exact ⟨⟨0, h, rfl⟩, by simp, by simp⟩

/-- **The number of parts** is found behind the dash, or lost to a byte of the digest. -/
theorem parts_eq_iff {digest : List UInt8} {d : GoString} {p : ℤ} (hlen : digest.length = 16)
    (hp : parseInt d = some p) :
    parts (digest ++ 45 :: d) = parseInt d ↔
      45 ∉ digest ∨ 45 ∉ digest.take 15 ∧ parseUint d = some 0 := by
  rw [parts, if_pos (isMultipart_dash hlen d)]
  by_cases hmem : 45 ∈ digest
  · obtain ⟨a, b, rfl, ha⟩ := List.eq_append_cons_of_mem hmem
    have hindex : indexByte (a ++ 45 :: b ++ 45 :: d) 45 = some a.length := by
      rw [List.append_assoc, List.cons_append]
      exact indexByte_append ha _
    have hdrop : (a ++ 45 :: b ++ 45 :: d).drop (a.length + 1) = b ++ 45 :: d := by
      rw [List.append_assoc, List.cons_append, List.drop_append]
      simp
    rw [hindex, Option.bind_some, hdrop]
    cases b with
    | nil =>
      have htake : (a ++ [45]).take 15 = a := by
        rw [List.take_left']
        simpa using hlen
      rw [List.nil_append, hp, parseInt_minus_eq_iff hp, htake]
      simp [ha]
    | cons c b =>
      have hshort : a.length + 1 ≤ 15 := by
        simp only [List.length_append, List.length_cons] at hlen
        omega
      have hin : 45 ∈ (a ++ 45 :: c :: b).take 15 := by
        rw [List.take_append, List.mem_append]
        refine .inr ?_
        rw [show 15 - a.length = (14 - a.length) + 1 by omega]
        simp
      rw [List.cons_append, hp]
      simp [hin, parseInt_inner_dash]
  · rw [indexByte_append hmem d, Option.bind_some]
    have hdrop : (digest ++ 45 :: d).drop (digest.length + 1) = d := by
      rw [List.drop_append]
      simp
    simp [hdrop, hmem]

/-- **The ETags that keep their kind.**  Of the texts in lower case that are accepted, those read
back as they were are the ones with no digest byte that is a dash: in a multipart ETag, but for a
last byte before part number zero, and in one longer than sixteen bytes. -/
theorem keeps_kind_iff (s : GoString) (e : ETag) (hparse : parse s false = some (.ok e))
    (hs : LowerCase s) : Keeps s e ↔ ReadsBack s e := by
  rcases parse_cases hparse hs with hplain | hdash
  · obtain ⟨hno, hdec⟩ := hplain
    have hlower : ∀ c ∈ s, IsLowerHex c := by
      intro c hc
      apply hs c
      rwa [List.takeWhile_eq_self_iff.mpr (bne_dash_of_not_mem hno)]
    have htext := hexEncode_of_hexDecode hdec hlower
    rw [Keeps, ReadsBack, if_neg hno, if_neg hno]
    have hmulti := isMultipart_iff e
    by_cases hm : isMultipart e = true
    · have := hmulti.mp hm
      simp only [hm, hno, true_iff, and_false, false_and, false_iff]
      intro h
      rcases h with h | h
      · omega
      · exact h this.2
    · have hshort : e.length ≤ 16 ∨ 45 ∉ e := by
        by_contra hcon
        push Not at hcon
        exact hm (hmulti.mpr hcon)
      rw [toText, parts, if_neg hm, if_neg hm]
      simp [htext, hno, hm, hshort]
  · obtain ⟨h, d, digest, p, rfl, hh, hdec, hlen, hp, rfl⟩ := hdash
    obtain ⟨htake, hafter⟩ := takeWhile_dash hh d
    have hlower : ∀ c ∈ h, IsLowerHex c := by
      intro c hc
      exact hs c (by rwa [htake])
    have hmulti := isMultipart_dash hlen d
    have htext : toText (digest ++ 45 :: d) = h ++ 45 :: d := by
      rw [toText, if_pos hmulti, List.take_left' hlen, List.drop_left' hlen,
        hexEncode_of_hexDecode hdec hlower]
    have htake15 : (digest ++ 45 :: d).take 15 = digest.take 15 := List.take_append_of_le_length (by omega)
    have hmem : 45 ∈ h ++ 45 :: d := by simp
    rw [Keeps, ReadsBack, if_pos hmem, if_pos hmem, hafter, List.take_left' hlen, htake15,
      ← parts_eq_iff hlen hp]
    simp [htext, hmulti]

/-- A digest of zeros with two parts keeps its kind. -/
theorem zeros_keep_kind :
    Keeps (lit "00000000000000000000000000000000-2") (List.replicate 16 0 ++ lit "-2") :=
  (keeps_kind_iff _ _ (by decide +kernel) (by unfold LowerCase; decide +kernel)).mpr
    (by unfold ReadsBack; decide +kernel)

/-- A digest that starts with the byte of a dash: its number of parts panics, and as the longer
value of an encrypted object it is taken for a multipart ETag. -/
theorem dash_byte_loses_kind :
    parse (lit "2d000000000000000000000000000000-2") false =
        some (.ok (45 :: List.replicate 15 0 ++ lit "-2")) ∧
      parts (45 :: List.replicate 15 0 ++ lit "-2") = none ∧
      parse (lit "2d00000000000000000000000000000000") false =
        some (.ok (45 :: List.replicate 16 0)) ∧
      isMultipart (45 :: List.replicate 16 0) = true := by
  decide +kernel

end Zs3Server.Etag
