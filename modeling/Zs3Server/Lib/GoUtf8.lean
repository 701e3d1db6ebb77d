import Zs3Server.Lib.ByteString

/-!
# Runes of a string

`utf8.RuneCountInString`: the runes of a string of any bytes, where a byte that starts no valid encoding
counts as one rune; `utf8.ValidString`, the runes of a `range` and `strings.TrimSpace`.

* `isRune_of_mem`, `runes_flatten` — encodings are read back one by one;
* `runes_suffix` — reading can start at any byte that continues no rune.

Nothing here depends on a program.
-/

namespace Zs3Server.Lib.GoUtf8

open Lib.ByteString

def isContinuation (b : UInt8) : Bool := 0x80 ≤ b && b ≤ 0xBF

/-- The bytes that the second byte of an encoding may be, after its first. -/
def acceptSecond (first second : UInt8) : Bool :=
  if first = 0xE0 then 0xA0 ≤ second && second ≤ 0xBF
  else if first = 0xED then 0x80 ≤ second && second ≤ 0x9F
  else if first = 0xF0 then 0x90 ≤ second && second ≤ 0xBF
  else if first = 0xF4 then 0x80 ≤ second && second ≤ 0x8F
  else isContinuation second

/-- The bytes of the first rune after its first byte. -/
def runeRest (b : UInt8) (rest : GoString) : ℕ :=
  match rest with
  | b₁ :: b₂ :: b₃ :: _ =>
    if 0xC2 ≤ b ∧ b ≤ 0xDF then if acceptSecond b b₁ then 1 else 0
    else if 0xE0 ≤ b ∧ b ≤ 0xEF then if acceptSecond b b₁ && isContinuation b₂ then 2 else 0
    else if 0xF0 ≤ b ∧ b ≤ 0xF4 then
      if acceptSecond b b₁ && isContinuation b₂ && isContinuation b₃ then 3 else 0
    else 0
  | b₁ :: b₂ :: [] =>
    if 0xC2 ≤ b ∧ b ≤ 0xDF then if acceptSecond b b₁ then 1 else 0
    else if 0xE0 ≤ b ∧ b ≤ 0xEF then if acceptSecond b b₁ && isContinuation b₂ then 2 else 0
    else 0
  | b₁ :: [] => if 0xC2 ≤ b ∧ b ≤ 0xDF then if acceptSecond b b₁ then 1 else 0 else 0
  | [] => 0

/-- The loop of `RuneCountInString`, with the bytes of the current rune that are still to be passed. -/
def runeCountLoop : ℕ → GoString → ℕ
  | _, [] => 0
  | pending + 1, _ :: rest => runeCountLoop pending rest
  | 0, b :: rest => 1 + runeCountLoop (runeRest b rest) rest

def runeCount (s : GoString) : ℕ := runeCountLoop 0 s

example : runeCount [0x61, 0xC3, 0xA9, 0xFF, 0xE2, 0x82] = 5 := by decide

/-- The loop of `ValidString`: a rune of one byte is ASCII. -/
def validLoop : ℕ → GoString → Bool
  | _, [] => true
  | pending + 1, _ :: rest => validLoop pending rest
  | 0, b :: rest => (b < 0x80 || 0 < runeRest b rest) && validLoop (runeRest b rest) rest

def validString (s : GoString) : Bool := validLoop 0 s

/-- The encoding of U+FFFD. -/
def runeError : GoString := [0xEF, 0xBF, 0xBD]

/-- The runes of a string, by their encodings, with the bytes each takes up: a byte that starts no
valid encoding is read as U+FFFD. -/
def runes : GoString → List (GoString × ℕ)
  | [] => []
  | b :: rest =>
    let n := runeRest b rest
    (if b < 0x80 || 0 < n then (b :: rest.take n, n + 1) else (runeError, 1)) :: runes (rest.drop n)
termination_by s => s.length
decreasing_by simp only [List.length_drop, List.length_cons]; omega

/-! ### Encodings in front of a string -/

/-- How many bytes follow the first byte of an encoding. -/
def runeTail (b : UInt8) : ℕ :=
  if 0xC2 ≤ b ∧ b ≤ 0xDF then 1 else if 0xE0 ≤ b ∧ b ≤ 0xEF then 2
  else if 0xF0 ≤ b ∧ b ≤ 0xF4 then 3 else 0

def acceptTail (b : UInt8) : GoString → Bool
  | [] => true
  | b₁ :: more => acceptSecond b b₁ && more.all isContinuation

theorem runeRest_eq (b : UInt8) (rest : GoString) :
    runeRest b rest =
      if (rest.take (runeTail b)).length = runeTail b ∧ acceptTail b (rest.take (runeTail b)) = true then
        runeTail b else 0 := by
  unfold runeRest runeTail
  match rest with
  | [] => split_ifs <;> simp_all
  | [b₁] => split_ifs <;> simp_all [acceptTail]
  | [b₁, b₂] => split_ifs <;> simp_all [acceptTail]
  | b₁ :: b₂ :: b₃ :: more => split_ifs <;> simp_all [acceptTail]

theorem runeRest_le (b : UInt8) (rest : GoString) : runeRest b rest ≤ rest.length := by
  rw [runeRest_eq]
  split
  · next h => rw [← h.1]; exact List.length_take_le' _ _
  · exact Nat.zero_le _

theorem runeRest_ascii {b : UInt8} (h : b < 0x80) (rest : GoString) : runeRest b rest = 0 := by
  have htail : runeTail b = 0 := by
    unfold runeTail
    split_ifs <;> simp_all only [UInt8.le_iff_toNat_le, UInt8.lt_iff_toNat_lt] <;> simp at * <;> omega
  rw [runeRest_eq, htail, ite_self]

/-- The bytes of an encoding are read without the rest of the string. -/
theorem runeRest_append {b : UInt8} {rest : GoString} (h : 0 < runeRest b rest) (t : GoString) :
    runeRest b (rest.take (runeRest b rest) ++ t) = runeRest b rest := by
  have hn : runeRest b rest = runeTail b ∧ (rest.take (runeTail b)).length = runeTail b ∧
      acceptTail b (rest.take (runeTail b)) = true := by
    rw [runeRest_eq] at h ⊢
    split at h
    · next hc => exact ⟨if_pos hc, hc⟩
    · cases h
  obtain ⟨hn, hlen, haccept⟩ := hn
  rw [hn, runeRest_eq, List.take_left' hlen, if_pos ⟨hlen, haccept⟩]

/-- The encoding of a rune: it is read as such in front of any string. -/
def IsRune (r : GoString) : Prop := ∀ t, runes (r ++ t) = (r, r.length) :: runes t

theorem isRune_ascii {b : UInt8} (h : b < 0x80) : IsRune [b] := by
  intro t
  rw [List.singleton_append, runes, runeRest_ascii h, if_pos (by simp [h])]
  rfl

theorem isRune_runeError : IsRune runeError := by
  intro t
  have hrest : runeRest 0xEF (0xBF :: 0xBD :: t) = 2 := by cases t <;> rfl
  show runes (0xEF :: 0xBF :: 0xBD :: t) = _
  rw [runes, hrest]
  rfl

theorem isRune_of_mem {s : GoString} {p : GoString × ℕ} (h : p ∈ runes s) : IsRune p.1 ∧ 0 < p.2 := by
  induction s using runes.induct with
  | case1 => simp [runes] at h
  | case2 b rest n ih =>
    rw [runes, List.mem_cons] at h
    rcases h with rfl | h
    · split
      · next hvalid =>
        refine ⟨fun t => ?_, Nat.succ_pos _⟩
        have hn : runeRest b (rest.take n ++ t) = n := by
          rcases Nat.eq_zero_or_pos n with hzero | hpos
          · have hascii : b < 0x80 := by simpa [n, hzero] using hvalid
            rw [runeRest_ascii hascii, hzero]
          · exact runeRest_append hpos t
        have hlen : (rest.take n).length = n := List.length_take_of_le (runeRest_le b rest)
        show runes (b :: (rest.take n ++ t)) = (b :: rest.take n, (b :: rest.take n).length) :: runes t
        rw [runes, hn, if_pos hvalid, List.take_left' hlen, List.drop_left' hlen, List.length_cons, hlen]
      · exact ⟨isRune_runeError, Nat.one_pos⟩
    · exact ih h

theorem runes_flatten {rs : List GoString} (h : ∀ r ∈ rs, IsRune r) (t : GoString) :
    runes (rs.flatten ++ t) = rs.map (fun r => (r, r.length)) ++ runes t := by
  induction rs with
  | nil => rfl
  | cons r rs ih =>
    rw [List.flatten_cons, List.append_assoc, h r (by simp), ih fun q hq => h q (by simp [hq])]
    rfl

theorem isContinuation_head {b : UInt8} {r : GoString} (h : IsRune (b :: r)) :
    isContinuation b = false := by
  rw [Bool.eq_false_iff]
  intro hb
  have hbounds : 0x80 ≤ b ∧ b ≤ 0xBF := by simpa [isContinuation] using hb
  have htail : runeTail b = 0 := by
    unfold runeTail
    split_ifs <;> simp_all only [UInt8.le_iff_toNat_le] <;> simp at * <;> omega
  have hrest : runeRest b r = 0 := by rw [runeRest_eq, htail, ite_self]
  have hfirst := h []
  rw [List.append_nil, runes.eq_2, hrest] at hfirst
  have hlarge : ¬ b < 0x80 := by simpa using hbounds.1
  rw [if_neg (by simp [hlarge])] at hfirst
  obtain rfl : 0xEF = b := (List.cons.inj (congrArg Prod.fst (List.cons.inj hfirst).1)).1
  simp at hbounds

theorem isContinuation_of_acceptTail {b : UInt8} {l : GoString} (h : acceptTail b l = true) :
    ∀ y ∈ l, isContinuation y = true := by
  cases l with
  | nil => simp
  | cons b₁ more =>
    simp only [acceptTail, Bool.and_eq_true, List.all_eq_true] at h
    intro y hy
    rcases List.mem_cons.mp hy with rfl | hy
    · have hsecond := h.1
      unfold acceptSecond at hsecond
      split_ifs at hsecond <;> simp_all only [isContinuation, Bool.and_eq_true, decide_eq_true_eq,
        UInt8.le_iff_toNat_le] <;> simp at * <;> omega
    · exact h.2 y hy

/-- **The runes from a boundary on** are runes of the whole string. -/
theorem runes_suffix {x : UInt8} (hx : isContinuation x = false) (t pre : GoString) :
    ∃ front, runes (pre ++ x :: t) = front ++ runes (x :: t) := by
  induction hk : pre.length using Nat.strongRecOn generalizing pre with
  | _ k ih =>
    cases pre with
    | nil => exact ⟨[], rfl⟩
    | cons b rest =>
      -- an encoding that starts before the boundary ends before it
      have hle : runeRest b (rest ++ x :: t) ≤ rest.length := by
        rw [runeRest_eq]
        split
        · next h =>
          by_contra hlt
          have hmem : x ∈ (rest ++ x :: t).take (runeTail b) := by
            rw [List.take_append, show runeTail b - rest.length = (runeTail b - rest.length - 1) + 1 by omega]
            simp
          rw [isContinuation_of_acceptTail h.2 x hmem] at hx
          cases hx
        · exact Nat.zero_le _
      have hshort : (rest.drop (runeRest b (rest ++ x :: t))).length < k := by
        rw [← hk, List.length_drop, List.length_cons]
        omega
      obtain ⟨front, hfront⟩ := ih _ hshort _ rfl
      rw [List.cons_append, runes, List.drop_append_of_le_length hle, hfront]
      exact ⟨_ :: front, rfl⟩

/-! ### White space -/

/-- The encodings of the runes that `unicode.IsSpace` accepts. -/
def spaceRunes : List GoString :=
  [[9], [10], [11], [12], [13], [32], [0xC2, 0x85], [0xC2, 0xA0], [0xE1, 0x9A, 0x80],
    [0xE2, 0x80, 0xA8], [0xE2, 0x80, 0xA9], [0xE2, 0x80, 0xAF], [0xE2, 0x81, 0x9F],
    [0xE3, 0x80, 0x80]] ++ (List.range 11).map fun i => [0xE2, 0x80, 0x80 + i.toUInt8]

/-- At most `n` runes are dropped from the front. -/
def trimRunes (runes : List GoString) : ℕ → GoString → GoString
  | 0, s => s
  | n + 1, s =>
    match runes.find? (·.isPrefixOf s) with
    | none => s
    | some rune => trimRunes runes n (s.drop rune.length)

/-- `strings.TrimSpace`; the first and the last rune of a string of any bytes are found by their
encodings. -/
def trimSpace (s : GoString) : GoString :=
  let t := trimRunes spaceRunes s.length s
  (trimRunes (spaceRunes.map List.reverse) t.length t.reverse).reverse

/-- What is dropped are bytes of the runes. -/
theorem trimRunes_spec (runes : List GoString) (n : ℕ) (s : GoString) :
    ∃ lead, s = lead ++ trimRunes runes n s ∧ ∀ b ∈ lead, ∃ rune ∈ runes, b ∈ rune := by
  induction n generalizing s with
  | zero => exact ⟨[], rfl, by simp⟩
  | succ n ih =>
    rw [trimRunes]
    split
    · exact ⟨[], rfl, by simp⟩
    · next rune hfind =>
      obtain ⟨lead, hsplit, hlead⟩ := ih (s.drop rune.length)
      have hpre := List.find?_some hfind
      obtain ⟨t, rfl⟩ := List.isPrefixOf_iff_prefix.mp hpre
      refine ⟨rune ++ lead, ?_, ?_⟩
      · rw [List.append_assoc, ← hsplit, List.drop_left]
      · intro b hb
        rcases List.mem_append.mp hb with hb | hb
        · exact ⟨rune, List.mem_of_find?_eq_some hfind, hb⟩
        · exact hlead b hb

/-- Only bytes of spaces are dropped, on either side. -/
theorem trimSpace_spec (s : GoString) :
    ∃ lead tail, s = lead ++ (trimSpace s ++ tail) ∧
      (∀ b ∈ lead, ∃ rune ∈ spaceRunes, b ∈ rune) ∧ ∀ b ∈ tail, ∃ rune ∈ spaceRunes, b ∈ rune := by
  obtain ⟨lead, hlead, hbytes⟩ := trimRunes_spec spaceRunes s.length s
  set t := trimRunes spaceRunes s.length s with ht
  obtain ⟨tail, htail, hbytes'⟩ :=
    trimRunes_spec (spaceRunes.map List.reverse) t.length t.reverse
  refine ⟨lead, tail.reverse, ?_, hbytes, ?_⟩
  · have hback : t = trimSpace s ++ tail.reverse := by
      have h := congrArg List.reverse htail
      rwa [List.reverse_reverse, List.reverse_append] at h
    rw [← hback]
    exact hlead
  · intro b hb
    obtain ⟨rune, hrune, hmem⟩ := hbytes' b (List.mem_reverse.mp hb)
    obtain ⟨r, hr, rfl⟩ := List.mem_map.mp hrune
    exact ⟨r, hr, List.mem_reverse.mp hmem⟩

end Zs3Server.Lib.GoUtf8
