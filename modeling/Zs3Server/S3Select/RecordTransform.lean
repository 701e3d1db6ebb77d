import Zs3Server.Lib.ByteString

/-!
# Record delimiters of CSV input

`recordTransform.Read` turns record delimiters of one or two bytes into newlines, in the buffer the
caller gave it, with one byte of look-ahead.

* `scanBuffer_eq` — the loop over the buffer is the translation of the whole buffer, stale bytes too;
* `read_step` — one `Read` reports the translation of what it took from the reader;
* `readAll_translates` — a run reports the translation of the input, if the end of input brings no
  delimiter and no stale byte completes one.
-/

namespace Zs3Server.S3Select.RecordTransform

open Lib.ByteString

inductive Delimiter where
  | one (c : UInt8)
  | two (c₀ c₁ : UInt8)
  deriving DecidableEq

/-! ## The translation -/

def translateTwo (c₀ c₁ : UInt8) : GoString → GoString
  | [] => []
  | [a] => [a]
  | a :: b :: rest =>
    if a = c₀ ∧ b = c₁ then 10 :: translateTwo c₀ c₁ rest else a :: translateTwo c₀ c₁ (b :: rest)

/-- Every occurrence of the delimiter, scanned from left to right, becomes a newline. -/
def translate : Delimiter → GoString → GoString
  | .one c, s => s.map fun b => if b = c then 10 else b
  | .two c₀ c₁, s => translateTwo c₀ c₁ s

/-- The number of occurrences of a delimiter of two bytes, scanned from left to right. -/
def occurrences (c₀ c₁ : UInt8) : GoString → ℕ
  | [] => 0
  | [_] => 0
  | a :: b :: rest =>
    if a = c₀ ∧ b = c₁ then occurrences c₀ c₁ rest + 1 else occurrences c₀ c₁ (b :: rest)

/-- No delimiter is followed by its second byte. -/
def Clear (c₀ c₁ : UInt8) : GoString → Prop
  | a :: b :: rest =>
    if a = c₀ ∧ b = c₁ then rest.head? ≠ some c₁ ∧ Clear c₀ c₁ rest else Clear c₀ c₁ (b :: rest)
  | _ => True

/-! ## The underlying reader -/

/-- A reader with the pieces it returns, and whether the last one comes together with `io.EOF`. -/
structure Source where
  chunks : List GoString
  eofWithLast : Bool
  nonempty : ∀ c ∈ chunks, c ≠ []

/-- What a read returned, and the reader after it. -/
structure Fetched where
  data : GoString
  eof : Bool
  src : Source

/-- The bytes to come. -/
def Source.bytes (s : Source) : GoString := s.chunks.flatten

/-- A read into a buffer of `k` bytes: a piece that does not fit is returned in parts. -/
def Source.read (s : Source) (k : ℕ) : Fetched :=
  match s with
  | ⟨[], e, h⟩ => ⟨[], true, ⟨[], e, h⟩⟩
  | ⟨c :: cs, e, h⟩ =>
    if hc : c.length ≤ k then
      ⟨c, cs.isEmpty && e, ⟨cs, e, fun x hx => h x (List.mem_cons_of_mem c hx)⟩⟩
    else
      ⟨c.take k, false, ⟨c.drop k :: cs, e, by
        intro x hx
        rcases List.mem_cons.mp hx with rfl | hx
        · exact fun hnil => hc (List.drop_eq_nil_iff.mp hnil)
        · exact h x (List.mem_cons_of_mem c hx)⟩⟩

/-! ## The reader of records -/

structure Transform where
  src : Source
  oneByte : UInt8
  useOneByte : Bool

def Transform.new (src : Source) : Transform := ⟨src, 0, false⟩

/-- What a call reports. -/
inductive ReadOut where
  | panic
  | ok (bytes : GoString) (eof : Bool) (rr : Transform)

/-- The loop over a delimiter of two bytes, with `p[idx]` apart from the bytes after it: the new
contents and the number of bytes taken out.  The search goes on at the newline just written. -/
def scan (c₀ c₁ : UInt8) (cur : UInt8) : GoString → GoString × ℕ
  | [] => ([cur], 0)
  | b :: rest =>
    if cur = c₀ ∧ b = c₁ then
      let r := scan c₀ c₁ 10 rest
      (r.1, r.2 + 1)
    else
      let r := scan c₀ c₁ b rest
      (cur :: r.1, r.2)

def scanBuffer (c₀ c₁ : UInt8) : GoString → GoString × ℕ
  | [] => ([], 0)
  | a :: rest => scan c₀ c₁ a rest

/-- The first read of a call, after a byte that was read ahead. -/
def Transform.fetch (rr : Transform) (p : GoString) : Fetched :=
  if rr.useOneByte then
    let r := rr.src.read (p.length - 1)
    ⟨rr.oneByte :: r.data, r.eof, r.src⟩
  else rr.src.read p.length

/-- The end of a call with a delimiter of two bytes: `p` has its new contents, `n` bytes count. -/
def lookAhead (c₀ c₁ : UInt8) (rr : Transform) (p : GoString) (n : ℕ) : ReadOut :=
  if p[n - 1]? ≠ some c₀ then .ok (p.take n) false rr
  else
    let r := rr.src.read 1
    if r.eof then .ok (p.take n) true ⟨r.src, r.data.headD rr.oneByte, false⟩
    else if r.data.headD rr.oneByte = c₁ then
      .ok ((p.set (n - 1) 10).take n) false ⟨r.src, r.data.headD rr.oneByte, false⟩
    else .ok (p.take n) false ⟨r.src, r.data.headD rr.oneByte, true⟩

/-- `Read`, into a buffer with the earlier contents `p`. -/
def Transform.read (d : Delimiter) (rr : Transform) (p : GoString) : ReadOut :=
  if rr.useOneByte ∧ p = [] then .panic
  else
    let r := rr.fetch p
    let n := r.data.length
    let buf := r.data ++ p.drop n
    let rr' : Transform := ⟨r.src, rr.oneByte, false⟩
    if r.eof then .ok r.data true rr'
    else
      match d with
      | .one c =>
        if c = 10 then .ok r.data false rr'
        else .ok ((buf.map fun b => if b = c then 10 else b).take n) false rr'
      | .two c₀ c₁ =>
        let s := scanBuffer c₀ c₁ buf
        -- `p[n-1]` is out of range if as many bytes were taken out as were read
        if n ≤ s.2 then .panic else lookAhead c₀ c₁ rr' s.1 (n - s.2)

/-- What a sequence of calls reports: the bytes up to the end of input, or those so far. -/
inductive RunOut where
  | panic
  | more (out : GoString)
  | eof (out : GoString)
  deriving DecidableEq

def RunOut.after (out : GoString) : RunOut → RunOut
  | .panic => .panic
  | .more out' => .more (out ++ out')
  | .eof out' => .eof (out ++ out')

def Transform.readAll (d : Delimiter) (rr : Transform) : List GoString → RunOut
  | [] => .more []
  | p :: ps =>
    match rr.read d p with
    | .panic => .panic
    | .ok out true _ => .eof out
    | .ok out false rr' => (rr'.readAll d ps).after out

/-! ## Facts about the translation -/

variable {c₀ c₁ : UInt8}

theorem translateTwo_match (c₀ c₁ : UInt8) (rest : GoString) :
    translateTwo c₀ c₁ (c₀ :: c₁ :: rest) = 10 :: translateTwo c₀ c₁ rest := by
  rw [translateTwo, if_pos ⟨rfl, rfl⟩]

theorem translateTwo_skip {a b : UInt8} (h : ¬ (a = c₀ ∧ b = c₁)) (rest : GoString) :
    translateTwo c₀ c₁ (a :: b :: rest) = a :: translateTwo c₀ c₁ (b :: rest) := by
  rw [translateTwo, if_neg h]

theorem translateTwo_cons {a : UInt8} (h : a ≠ c₀) (rest : GoString) :
    translateTwo c₀ c₁ (a :: rest) = a :: translateTwo c₀ c₁ rest := by
  cases rest with
  | nil => rfl
  | cons b rest => exact translateTwo_skip (fun hab => h hab.1) rest

theorem length_translateTwo (c₀ c₁ : UInt8) (s : GoString) :
    (translateTwo c₀ c₁ s).length + occurrences c₀ c₁ s = s.length := by
  induction s using translateTwo.induct c₀ c₁ with
  | case1 => rfl
  | case2 a => rfl
  | case3 a b rest h ih =>
    rw [translateTwo, occurrences, if_pos h, if_pos h]
    simp only [List.length_cons]
    omega
  | case4 a b rest h ih =>
    rw [translateTwo, occurrences, if_neg h, if_neg h]
    simp only [List.length_cons] at ih ⊢
    omega

theorem translateTwo_ne_nil {s : GoString} (hs : s ≠ []) : translateTwo c₀ c₁ s ≠ [] := by
  cases s using translateTwo.fun_cases c₀ c₁ with
  | case1 => exact absurd rfl hs
  | case2 a => simp [translateTwo]
  | case3 a b rest h => simp [translateTwo, h]
  | case4 a b rest h => simp [translateTwo, h]

/-- A newline in front of a text, for a delimiter or not, stays as it is. -/
theorem newline_cons {rest : GoString} (h : c₀ = 10 → rest.head? ≠ some c₁ ∧ Clear c₀ c₁ rest) :
    translateTwo c₀ c₁ (10 :: rest) = 10 :: translateTwo c₀ c₁ rest ∧
      (c₀ = 10 → Clear c₀ c₁ (10 :: rest)) := by
  cases rest with
  | nil => exact ⟨rfl, fun _ => trivial⟩
  | cons b rest =>
    have hskip : ¬ (10 = c₀ ∧ b = c₁) := fun hab => (h hab.1.symm).1 (by rw [hab.2]; rfl)
    refine ⟨translateTwo_skip hskip rest, fun h10 => ?_⟩
    rw [Clear, if_neg hskip]
    exact (h h10).2

/-- **The loop is the translation of the whole buffer**, unless the delimiter starts with a newline and is
followed by its second byte. -/
theorem scan_eq (cur : UInt8) (rest : GoString) (h : c₀ = 10 → Clear c₀ c₁ (cur :: rest)) :
    scan c₀ c₁ cur rest = (translateTwo c₀ c₁ (cur :: rest), occurrences c₀ c₁ (cur :: rest)) := by
  induction rest generalizing cur with
  | nil => rfl
  | cons b rest ih =>
    simp only [Clear] at h
    rw [scan, translateTwo, occurrences]
    split
    · next hab =>
      rw [if_pos hab] at h
      obtain ⟨htranslate, hclear⟩ := newline_cons h
      have hlen := length_translateTwo c₀ c₁ (10 :: rest)
      have hlen' := length_translateTwo c₀ c₁ rest
      rw [htranslate] at hlen
      simp only [List.length_cons] at hlen
      simp only [ih 10 hclear, htranslate, Prod.mk.injEq, true_and]
      omega
    · next hab =>
      rw [if_neg hab] at h
      simp only [ih b h]

theorem scanBuffer_eq (s : GoString) (h : c₀ = 10 → Clear c₀ c₁ s) :
    scanBuffer c₀ c₁ s = (translateTwo c₀ c₁ s, occurrences c₀ c₁ s) := by
  cases s with
  | nil => rfl
  | cons a rest => exact scan_eq a rest h

/-- A list ends as its tail does. -/
theorem getLast?_cons_of_some {a z : UInt8} {l : GoString} (h : l.getLast? = some z) :
    (a :: l).getLast? = some z := by
  rw [List.getLast?_cons, h]
  rfl

/-- **Where a text may be cut**: not between the two bytes of a delimiter. -/
theorem translateTwo_append (x y : GoString)
    (hcut : (translateTwo c₀ c₁ x).getLast? = some c₀ → y.head? ≠ some c₁) :
    translateTwo c₀ c₁ (x ++ y) = translateTwo c₀ c₁ x ++ translateTwo c₀ c₁ y := by
  induction x using translateTwo.induct c₀ c₁ with
  | case1 => rfl
  | case2 a =>
    by_cases ha : a = c₀
    · subst ha
      cases y with
      | nil => rfl
      | cons b y =>
        have hb : b ≠ c₁ := fun hb => hcut rfl (by rw [hb]; rfl)
        exact translateTwo_skip (fun hab => hb hab.2) y
    · exact translateTwo_cons ha y
  | case3 a b rest hab ih =>
    obtain ⟨rfl, rfl⟩ := hab
    rw [translateTwo_match] at hcut ⊢
    rw [List.cons_append, List.cons_append, translateTwo_match, List.cons_append]
    rw [ih fun hlast => hcut (getLast?_cons_of_some hlast)]
  | case4 a b rest hab ih =>
    rw [translateTwo_skip hab] at hcut ⊢
    rw [List.cons_append, List.cons_append, translateTwo_skip hab, List.cons_append]
    rw [← List.cons_append, ih fun hlast => hcut (getLast?_cons_of_some hlast)]

/-- A cut between the two bytes of a delimiter. -/
theorem translateTwo_complete (x y : GoString) (hopen : (translateTwo c₀ c₁ x).getLast? = some c₀)
    (h : c₀ = 10 → Clear c₀ c₁ (x ++ [c₁])) :
    translateTwo c₀ c₁ (x ++ c₁ :: y)
      = (translateTwo c₀ c₁ x).dropLast ++ 10 :: translateTwo c₀ c₁ y := by
  induction x using translateTwo.induct c₀ c₁ with
  | case1 => cases hopen
  | case2 a =>
    obtain rfl : a = c₀ := by simpa [translateTwo] using hopen
    exact translateTwo_match a c₁ y
  | case3 a b rest hab ih =>
    obtain ⟨rfl, rfl⟩ := hab
    rw [translateTwo_match, List.getLast?_cons] at hopen
    simp only [List.cons_append, Clear, and_self, if_true] at h
    have hne : translateTwo a b rest ≠ [] := by
      intro hnil
      rw [hnil] at hopen
      have hrest : rest = [] := by
        by_contra hrest
        exact translateTwo_ne_nil hrest hnil
      exact (h (by simpa using hopen.symm)).1 (by rw [hrest]; rfl)
    have hlast : (translateTwo a b rest).getLast? = some a := by
      rw [List.getLast?_eq_some_getLast hne] at hopen ⊢
      exact hopen
    rw [List.cons_append, List.cons_append, translateTwo_match, translateTwo_match,
      ih hlast fun h10 => (h h10).2,
      List.dropLast_cons_of_ne_nil hne, List.cons_append]
  | case4 a b rest hab ih =>
    have hne : translateTwo c₀ c₁ (b :: rest) ≠ [] := translateTwo_ne_nil (List.cons_ne_nil _ _)
    rw [translateTwo_skip hab, List.getLast?_cons, List.getLast?_eq_some_getLast hne] at hopen
    have hlast : (translateTwo c₀ c₁ (b :: rest)).getLast? = some c₀ := by
      rw [List.getLast?_eq_some_getLast hne]
      exact hopen
    simp only [List.cons_append, Clear, if_neg hab] at h
    rw [List.cons_append, List.cons_append, translateTwo_skip hab, translateTwo_skip hab,
      ← List.cons_append, ih hlast h, List.dropLast_cons_of_ne_nil hne, List.cons_append]

theorem clear_of_append {x y : GoString} (h : Clear c₀ c₁ (x ++ y)) : Clear c₀ c₁ x := by
  induction x using occurrences.induct c₀ c₁ with
  | case1 => exact trivial
  | case2 a => exact trivial
  | case3 a b rest hab ih =>
    rw [List.cons_append, List.cons_append, Clear, if_pos hab] at h
    rw [Clear, if_pos hab]
    refine ⟨fun hhead => h.1 ?_, ih h.2⟩
    obtain ⟨rest', rfl⟩ := List.head?_eq_some_iff.mp hhead
    rfl
  | case4 a b rest hab ih =>
    rw [List.cons_append, List.cons_append, Clear, if_neg hab] at h
    rw [Clear, if_neg hab]
    exact ih h

/-- If bytes after a text add no occurrence, its translation stands in front of theirs. -/
theorem translateTwo_of_occurrences {x y : GoString} (h : c₀ = 10 → Clear c₀ c₁ (x ++ y))
    (hocc : occurrences c₀ c₁ (x ++ y) = occurrences c₀ c₁ x) :
    translateTwo c₀ c₁ (x ++ y) = translateTwo c₀ c₁ x ++ translateTwo c₀ c₁ y := by
  refine translateTwo_append x y fun hopen hhead => ?_
  obtain ⟨y', rfl⟩ := List.head?_eq_some_iff.mp hhead
  have hclear : c₀ = 10 → Clear c₀ c₁ (x ++ [c₁]) := fun h10 => by
    have hall := h h10
    rw [List.append_cons] at hall
    exact clear_of_append hall
  -- the first byte after the text completes a delimiter, which is counted
  have hne : translateTwo c₀ c₁ x ≠ [] := by
    intro hnil
    rw [hnil] at hopen
    cases hopen
  have hpos := List.length_pos_iff.mpr hne
  have hlen := congrArg List.length (translateTwo_complete x y' hopen hclear)
  have h₁ := length_translateTwo c₀ c₁ (x ++ c₁ :: y')
  have h₂ := length_translateTwo c₀ c₁ x
  have h₃ := length_translateTwo c₀ c₁ y'
  simp only [List.length_append, List.length_dropLast, List.length_cons] at hlen h₁
  omega

/-- Bytes without the second one of the delimiter add no occurrence. -/
theorem occurrences_append_of_not_mem (x y : GoString) (hy : c₁ ∉ y) :
    occurrences c₀ c₁ (x ++ y) = occurrences c₀ c₁ x := by
  have hnone : ∀ y : GoString, c₁ ∉ y → ∀ a, occurrences c₀ c₁ (a :: y) = 0 := by
    intro y
    induction y with
    | nil =>
      intro _ a
      rfl
    | cons b y ih =>
      intro hb a
      rw [List.mem_cons, not_or] at hb
      rw [occurrences, if_neg fun hab => hb.1 hab.2.symm]
      exact ih hb.2 b
  induction x using occurrences.induct c₀ c₁ with
  | case1 =>
    cases y with
    | nil => rfl
    | cons b y => exact hnone y (fun hmem => hy (List.mem_cons_of_mem b hmem)) b
  | case2 a => exact hnone y hy a
  | case3 a b rest hab ih =>
    rw [List.cons_append, List.cons_append, occurrences, occurrences, if_pos hab, if_pos hab, ih]
  | case4 a b rest hab ih =>
    rw [List.cons_append, List.cons_append, occurrences, occurrences, if_neg hab, if_neg hab]
    exact ih

/-! ## What a read takes -/

/-- What a read of the underlying reader does. -/
structure ReadSpec (s : Source) (k : ℕ) (r : Fetched) : Prop where
  bytes : s.bytes = r.data ++ r.src.bytes
  fits : r.data.length ≤ k
  last : r.eof = true → r.src.bytes = []
  some_data : r.eof = false → r.data ≠ []
  flag : r.src.eofWithLast = s.eofWithLast
  alone : s.eofWithLast = false → r.eof = true → r.data = []

theorem Source.read_spec (s : Source) {k : ℕ} (hk : 1 ≤ k) : ReadSpec s k (s.read k) := by
  obtain ⟨chunks, e, hne⟩ := s
  cases chunks with
  | nil =>
    refine ⟨rfl, Nat.zero_le _, fun _ => rfl, ?_, rfl, fun _ _ => rfl⟩
    intro heof
    cases heof
  | cons c cs =>
    rw [Source.read]
    split
    · next hc =>
      refine ⟨rfl, hc, ?_, fun _ => hne c List.mem_cons_self, rfl, ?_⟩
      · intro heof
        have hcs : cs = [] := List.isEmpty_iff.mp (Bool.and_eq_true_iff.mp heof).1
        subst hcs
        rfl
      · intro he heof
        rw [show e = false from he, Bool.and_false] at heof
        cases heof
    · next hc =>
      refine ⟨?_, List.length_take_le k c, ?_, ?_, rfl, ?_⟩
      · show c ++ cs.flatten = c.take k ++ (c.drop k ++ cs.flatten)
        rw [← List.append_assoc, List.take_append_drop]
      · intro heof
        cases heof
      · intro _ hnil
        rcases List.take_eq_nil_iff.mp hnil with h0 | hcnil
        · omega
        · exact hne c List.mem_cons_self hcnil
      · intro _ heof
        cases heof

/-- The bytes a reader of records has still to deal with. -/
def Transform.rest (rr : Transform) : GoString :=
  (if rr.useOneByte then [rr.oneByte] else []) ++ rr.src.bytes

theorem Transform.fetch_spec (rr : Transform) {p : GoString} (hp : 2 ≤ p.length) :
    rr.rest = (rr.fetch p).data ++ (rr.fetch p).src.bytes ∧ (rr.fetch p).data.length ≤ p.length ∧
      ((rr.fetch p).eof = true → (rr.fetch p).src.bytes = []) ∧
        ((rr.fetch p).eof = false → (rr.fetch p).data ≠ [] ∧
          (rr.fetch p).src.bytes.length < rr.src.bytes.length) := by
  have hlt : ∀ {k : ℕ}, 1 ≤ k → (rr.src.read k).eof = false →
      (rr.src.read k).src.bytes.length < rr.src.bytes.length := by
    intro k hk heof
    have hs := rr.src.read_spec hk
    have hpos := List.length_pos_iff.mpr (hs.some_data heof)
    have hlen := congrArg List.length hs.bytes
    rw [List.length_append] at hlen
    omega
  rw [Transform.fetch, Transform.rest]
  cases rr.useOneByte with
  | true =>
    have hs := rr.src.read_spec (show 1 ≤ p.length - 1 by omega)
    have hfits := hs.fits
    refine ⟨congrArg (rr.oneByte :: ·) hs.bytes, ?_, hs.last, ?_⟩
    · show (rr.src.read (p.length - 1)).data.length + 1 ≤ p.length
      omega
    · intro heof
      exact ⟨List.cons_ne_nil _ _, hlt (by omega) heof⟩
  | false =>
    have hs := rr.src.read_spec (show 1 ≤ p.length by omega)
    refine ⟨hs.bytes, hs.fits, hs.last, ?_⟩
    intro heof
    exact ⟨hs.some_data heof, hlt (by omega) heof⟩

/-! ## One call -/

/-- **A call that works**: what comes with the end of input has no delimiter in it; and, for a
delimiter of two bytes, the stale bytes of the buffer complete none, the byte read ahead is not the
last one, returned with the end of input, and a delimiter that starts with a newline is not followed by its
second byte, in the buffer or in the input. -/
def Quiet (d : Delimiter) (rr : Transform) (p : GoString) : Prop :=
  let r := rr.fetch p
  (r.eof = true → translate d r.data = r.data) ∧
    ∀ c₀ c₁, d = .two c₀ c₁ → r.eof = false →
      occurrences c₀ c₁ (r.data ++ p.drop r.data.length) = occurrences c₀ c₁ r.data ∧
        ((translateTwo c₀ c₁ r.data).getLast? = some c₀ → (r.src.read 1).eof = true →
          (r.src.read 1).data = []) ∧
        (c₀ = 10 → Clear c₀ c₁ (r.data ++ p.drop r.data.length) ∧
          Clear c₀ c₁ (r.data ++ r.src.bytes.take 1))

/-- What a call has to do: it reports the translation of what it took. -/
def Reports (d : Delimiter) (rr : Transform) (o : ReadOut) : Prop :=
  (∃ rr', o = .ok (translate d rr.rest) true rr') ∨
    ∃ out rr', o = .ok out false rr' ∧ translate d rr.rest = out ++ translate d rr'.rest ∧
      rr'.src.bytes.length < rr.src.bytes.length

theorem take_set_last {l : GoString} (hl : l ≠ []) (t : GoString) (v : UInt8) :
    ((l ++ t).set (l.length - 1) v).take l.length = l.dropLast ++ [v] := by
  obtain ⟨u, z, rfl⟩ := (List.eq_nil_or_concat' l).resolve_left hl
  rw [List.length_append, List.length_singleton, Nat.add_sub_cancel, List.dropLast_concat,
    List.append_assoc, List.set_append_right _ _ (le_refl _), Nat.sub_self]
  simp [List.take_append]

/-- The end of a call that has read `x`. -/
theorem lookAhead_reports (rr : Transform) {x : GoString} (t : GoString) (hx : x ≠ [])
    (h : c₀ = 10 → Clear c₀ c₁ (x ++ rr.src.bytes.take 1))
    (hopen : (translateTwo c₀ c₁ x).getLast? = some c₀ → (rr.src.read 1).eof = true →
      (rr.src.read 1).data = []) (huse : rr.useOneByte = false) :
    (∃ rr', lookAhead c₀ c₁ rr (translateTwo c₀ c₁ x ++ t) (translateTwo c₀ c₁ x).length
        = .ok (translateTwo c₀ c₁ (x ++ rr.src.bytes)) true rr') ∨
      ∃ out rr', lookAhead c₀ c₁ rr (translateTwo c₀ c₁ x ++ t) (translateTwo c₀ c₁ x).length
          = .ok out false rr' ∧
        translateTwo c₀ c₁ (x ++ rr.src.bytes) = out ++ translateTwo c₀ c₁ rr'.rest ∧
          rr'.src.bytes.length ≤ rr.src.bytes.length := by
  have hne : translateTwo c₀ c₁ x ≠ [] := translateTwo_ne_nil hx
  have hpos := List.length_pos_iff.mpr hne
  have hlast : (translateTwo c₀ c₁ x ++ t)[(translateTwo c₀ c₁ x).length - 1]?
      = (translateTwo c₀ c₁ x).getLast? := by
    rw [List.getElem?_append_left (by omega), List.getLast?_eq_getElem?]
  have htake : (translateTwo c₀ c₁ x ++ t).take (translateTwo c₀ c₁ x).length = translateTwo c₀ c₁ x :=
    List.take_left
  have hrest : rr.rest = rr.src.bytes := by
    rw [Transform.rest, huse]
    rfl
  rw [lookAhead, hlast, htake]
  split
  · next hclosed =>
    refine Or.inr ⟨_, rr, rfl, ?_, le_refl _⟩
    rw [hrest]
    exact translateTwo_append x _ fun hlast => absurd hlast hclosed
  next hopen' =>
  have hlast' : (translateTwo c₀ c₁ x).getLast? = some c₀ := not_not.mp hopen'
  have hs := rr.src.read_spec (le_refl 1)
  have hlen := congrArg List.length hs.bytes
  rw [List.length_append] at hlen
  cases heof : (rr.src.read 1).eof with
  | true =>
    have hnil : rr.src.bytes = [] := by rw [hs.bytes, hopen hlast' heof, hs.last heof, List.append_nil]
    refine Or.inl ⟨⟨(rr.src.read 1).src, (rr.src.read 1).data.headD rr.oneByte, false⟩, ?_⟩
    rw [hnil, List.append_nil]
    simp only [heof, if_true]
  | false =>
    obtain ⟨b, hb⟩ : ∃ b, (rr.src.read 1).data = [b] := by
      have hfits := hs.fits
      have hdata := List.length_pos_iff.mpr (hs.some_data heof)
      exact List.length_eq_one_iff.mp (by omega)
    have hbytes : rr.src.bytes = b :: (rr.src.read 1).src.bytes := by rw [hs.bytes, hb]; rfl
    have hlt : (rr.src.read 1).src.bytes.length ≤ rr.src.bytes.length := by omega
    simp only [hb, List.headD_cons]
    by_cases hb₁ : b = c₁
    · refine Or.inr ⟨(translateTwo c₀ c₁ x).dropLast ++ [10], ⟨(rr.src.read 1).src, b, false⟩, ?_, ?_, hlt⟩
      · rw [take_set_last hne]
        simp [hb₁, heof]
      · rw [hbytes, hb₁] at h
        rw [hbytes, hb₁, translateTwo_complete x _ hlast' h, List.append_assoc]
        rfl
    · refine Or.inr ⟨translateTwo c₀ c₁ x, ⟨(rr.src.read 1).src, b, true⟩, ?_, ?_, hlt⟩
      · simp [hb₁, heof]
      · rw [hbytes, translateTwo_append x _ fun _ hhead => hb₁ (by simpa using hhead)]
        rfl

/-- **One call**: it reports the translation of what it took. -/
theorem read_step {d : Delimiter} {rr : Transform} {p : GoString} (hp : 2 ≤ p.length)
    (hq : Quiet d rr p) : Reports d rr (rr.read d p) := by
  obtain ⟨hrest, hfits, hlast, hdata⟩ := rr.fetch_spec hp
  obtain ⟨heofq, htwoq⟩ := hq
  have hpne : ¬ (rr.useOneByte = true ∧ p = []) := by
    intro hnil
    rw [hnil.2] at hp
    exact absurd hp (by decide)
  rw [Transform.read, if_neg hpne]
  cases heof : (rr.fetch p).eof with
  | true =>
    refine Or.inl ⟨⟨(rr.fetch p).src, rr.oneByte, false⟩, ?_⟩
    rw [hrest, hlast heof, List.append_nil, heofq heof, if_pos heof]
  | false =>
    obtain ⟨hne, hlt⟩ := hdata heof
    simp only [heof, Bool.false_eq_true, if_false]
    cases d with
    | one c =>
      refine Or.inr ⟨translate (.one c) (rr.fetch p).data, ⟨(rr.fetch p).src, rr.oneByte, false⟩, ?_, ?_, hlt⟩
      · simp only [translate]
        split
        · next hc =>
          congr 1
          refine (List.map_id'' ?_ _).symm
          intro b
          split
          · next hb => rw [hb, hc]
          · rfl
        · rw [List.map_append, List.take_left' (List.length_map _)]
      · rw [hrest]
        exact List.map_append
    | two c₀ c₁ =>
      obtain ⟨hocc, hopen, hclear⟩ := htwoq c₀ c₁ rfl heof
      have hbuf := fun h10 => (hclear h10).1
      have hlen := length_translateTwo c₀ c₁ (rr.fetch p).data
      have htwo : translateTwo c₀ c₁ (rr.fetch p).data ≠ [] := translateTwo_ne_nil hne
      have hpos := List.length_pos_iff.mpr htwo
      dsimp only
      rw [scanBuffer_eq _ hbuf, hocc, translateTwo_of_occurrences hbuf hocc, if_neg (by omega),
        show (rr.fetch p).data.length - occurrences c₀ c₁ (rr.fetch p).data
          = (translateTwo c₀ c₁ (rr.fetch p).data).length by omega]
      rw [Reports, hrest]
      rcases lookAhead_reports ⟨(rr.fetch p).src, rr.oneByte, false⟩
        (translateTwo c₀ c₁ (p.drop (rr.fetch p).data.length)) hne (fun h10 => (hclear h10).2) hopen rfl with h | h
      · exact Or.inl h
      · obtain ⟨out, rr', hout, heq, hle⟩ := h
        exact Or.inr ⟨out, rr', hout, heq, lt_of_le_of_lt hle hlt⟩

/-! ## A run -/

/-- Every call of a run works. -/
def QuietRun (d : Delimiter) (rr : Transform) : List GoString → Prop
  | [] => True
  | p :: ps => Quiet d rr p ∧ ∀ out rr', rr.read d p = .ok out false rr' → QuietRun d rr' ps

/-- A run has reported a part of the translation, and all of it at the end of input. -/
theorem readAll_spec {d : Delimiter} (ps : List GoString) (rr : Transform)
    (hps : ∀ p ∈ ps, 2 ≤ p.length) (hq : QuietRun d rr ps) :
    rr.readAll d ps = .eof (translate d rr.rest) ∨
      ps.length ≤ rr.src.bytes.length ∧ ∃ out, rr.readAll d ps = .more out ∧ out <+: translate d rr.rest := by
  induction ps generalizing rr with
  | nil => exact Or.inr ⟨Nat.zero_le _, [], rfl, List.nil_prefix⟩
  | cons p ps ih =>
    rw [Transform.readAll]
    rcases read_step (hps p List.mem_cons_self) hq.1 with ⟨rr', hread⟩ | ⟨out, rr', hread, heq, hlt⟩
    · rw [hread]
      exact Or.inl rfl
    · rw [hread, heq]
      rcases ih rr' (fun p hp => hps p (List.mem_cons_of_mem _ hp)) (hq.2 out rr' hread) with h | h
      · simp only [h]
        exact Or.inl rfl
      · obtain ⟨hlen, out', hout', hpre⟩ := h
        simp only [hout']
        refine Or.inr ⟨?_, out ++ out', rfl, (List.prefix_append_right_inj out).mpr hpre⟩
        rw [List.length_cons]
        omega

/-- **Delimiters are translated exactly** by a run whose calls all work: it never panics, and with
more calls than there are bytes it has reported the translation of the input. -/
theorem readAll_translates (d : Delimiter) (src : Source) (ps : List GoString)
    (hps : ∀ p ∈ ps, 2 ≤ p.length) (hq : QuietRun d (Transform.new src) ps) :
    (Transform.new src).readAll d ps ≠ .panic ∧
      (src.bytes.length < ps.length →
        (Transform.new src).readAll d ps = .eof (translate d src.bytes)) := by
  rcases readAll_spec ps (Transform.new src) hps hq with h | ⟨hlen, out, h, -⟩
  · exact ⟨by rw [h]; exact RunOut.noConfusion, fun _ => h⟩
  · exact ⟨by rw [h]; exact RunOut.noConfusion, fun hlt => absurd hlen (not_le.mpr hlt)⟩

/-! ## When every call works -/

theorem Transform.fetch_alone {rr : Transform} {p : GoString} (hp : 2 ≤ p.length)
    (halone : rr.src.eofWithLast = false) :
    (rr.fetch p).src.eofWithLast = false ∧
      ((rr.fetch p).eof = true → (rr.fetch p).data = if rr.useOneByte then [rr.oneByte] else []) := by
  rw [Transform.fetch]
  cases rr.useOneByte with
  | true =>
    have hs := rr.src.read_spec (show 1 ≤ p.length - 1 by omega)
    exact ⟨hs.flag.trans halone, fun heof => congrArg (rr.oneByte :: ·) (hs.alone halone heof)⟩
  | false =>
    have hs := rr.src.read_spec (show 1 ≤ p.length by omega)
    exact ⟨hs.flag.trans halone, hs.alone halone⟩

theorem lookAhead_alone {rr rr' : Transform} {p out : GoString} {n : ℕ} {eof : Bool}
    (halone : rr.src.eofWithLast = false) (h : lookAhead c₀ c₁ rr p n = .ok out eof rr') :
    rr'.src.eofWithLast = false := by
  have hflag := (rr.src.read_spec (le_refl 1)).flag.trans halone
  simp only [lookAhead] at h
  split_ifs at h <;> cases h
  · exact halone
  · exact hflag
  · exact hflag
  · exact hflag

/-- The end of input still comes alone after a call, and a delimiter of one byte needs no byte read
ahead. -/
theorem read_alone {d : Delimiter} {rr rr' : Transform} {p out : GoString} {eof : Bool}
    (hp : 2 ≤ p.length) (halone : rr.src.eofWithLast = false)
    (h : rr.read d p = .ok out eof rr') :
    rr'.src.eofWithLast = false ∧ ∀ c, d = .one c → rr'.useOneByte = false := by
  have hfetch := (Transform.fetch_alone hp halone).1
  simp only [Transform.read] at h
  split at h
  · cases h
  split at h
  · cases h
    exact ⟨hfetch, fun _ _ => rfl⟩
  cases d with
  | one c =>
    dsimp only at h
    split at h <;> cases h <;> exact ⟨hfetch, fun _ _ => rfl⟩
  | two c₀ c₁ =>
    dsimp only at h
    split at h
    · cases h
    · refine ⟨lookAhead_alone hfetch h, ?_⟩
      intro c hc
      cases hc

/-- **When every call works**: the end of input comes alone, the delimiter does not start with a newline, and
no buffer has its second byte in its earlier contents. -/
theorem quietRun_of_alone {d : Delimiter} (ps : List GoString) (rr : Transform)
    (hps : ∀ p ∈ ps, 2 ≤ p.length) (halone : rr.src.eofWithLast = false)
    (hstale : ∀ c₀ c₁, d = .two c₀ c₁ → c₀ ≠ 10 ∧ ∀ p ∈ ps, c₁ ∉ p)
    (huse : ∀ c, d = .one c → rr.useOneByte = false) : QuietRun d rr ps := by
  induction ps generalizing rr with
  | nil => exact trivial
  | cons p ps ih =>
    have hp := hps p List.mem_cons_self
    obtain ⟨hflag, hdata⟩ := Transform.fetch_alone hp halone
    refine ⟨⟨?_, ?_⟩, ?_⟩
    · intro heof
      rw [hdata heof]
      cases d with
      | one c =>
        rw [huse c rfl]
        rfl
      | two c₀ c₁ => split <;> rfl
    · intro c₀ c₁ hd _
      refine ⟨occurrences_append_of_not_mem _ _ ?_, ?_, fun h10 => absurd h10 (hstale c₀ c₁ hd).1⟩
      · exact fun hmem => (hstale c₀ c₁ hd).2 p List.mem_cons_self (List.mem_of_mem_drop hmem)
      · intro _ heof
        exact ((rr.fetch p).src.read_spec (le_refl 1)).alone hflag heof
    · intro out rr' hread
      obtain ⟨halone', huse'⟩ := read_alone hp halone hread
      exact ih rr' (fun q hq => hps q (List.mem_cons_of_mem _ hq)) halone'
        (fun c₀ c₁ hd => ⟨(hstale c₀ c₁ hd).1, fun q hq => (hstale c₀ c₁ hd).2 q (List.mem_cons_of_mem _ hq)⟩)
        huse'

/-- The input `xabyab` in two pieces that cut the delimiter, read into buffers of four bytes. -/
def sampleSource (eofWithLast : Bool) : Source :=
  ⟨[lit "xa", lit "byab"], eofWithLast, by decide⟩

theorem readAll_translates_two :
    translate (.two 97 98) (sampleSource false).bytes = [120, 10, 121, 10] ∧
      (Transform.new (sampleSource false)).readAll (.two 97 98) (List.replicate 7 [0, 0, 0, 0])
        = .eof (translate (.two 97 98) (sampleSource false).bytes) := by
  refine ⟨by decide, (readAll_translates _ (sampleSource false) _ ?_ ?_).2 (by decide)⟩
  · intro p hp
    rw [List.eq_of_mem_replicate hp]
    decide
  · refine quietRun_of_alone _ _ ?_ rfl ?_ fun _ _ => rfl
    · intro p hp
      rw [List.eq_of_mem_replicate hp]
      decide
    · intro c₀ c₁ h
      obtain ⟨rfl, rfl⟩ := Delimiter.two.inj h
      refine ⟨by decide, fun p hp => ?_⟩
      rw [List.eq_of_mem_replicate hp]
      decide

/-- **Delimiters that are not translated.**  What comes with the end of input is reported as it is; a
stale byte after the last one read makes a delimiter of it, which takes a byte away or, if it was the
only one, is a panic; a byte read ahead together with the end of input is lost; and a delimiter that
starts with a newline is found again in the newline written for it. -/
theorem readAll_differs :
    ((Transform.new ⟨[lit "a;b"], true, by decide⟩).readAll (.one 59) [[0, 0, 0, 0]] = .eof (lit "a;b") ∧
        translate (.one 59) (lit "a;b") = lit "a\nb") ∧
      ((Transform.new ⟨[lit "xa"], false, by decide⟩).readAll (.two 97 98) [[0, 0, 98], [0, 0]]
          = .eof (lit "x") ∧ translate (.two 97 98) (lit "xa") = lit "xa") ∧
      (Transform.new ⟨[lit "a"], false, by decide⟩).readAll (.two 97 98) [[0, 98]] = .panic ∧
      ((Transform.new ⟨[lit "xa", lit "y"], true, by decide⟩).readAll (.two 97 98) [[0, 0, 0, 0]]
          = .eof (lit "xa") ∧ translate (.two 97 98) (lit "xay") = lit "xay") ∧
      ((Transform.new ⟨[lit "\nbb"], false, by decide⟩).readAll (.two 10 98) [[0, 0, 0, 0], [0, 0]]
          = .eof (lit "\n") ∧ translate (.two 10 98) (lit "\nbb") = lit "\nb") := by
  decide

end Zs3Server.S3Select.RecordTransform
