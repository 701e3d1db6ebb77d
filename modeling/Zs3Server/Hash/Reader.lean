import Zs3Server.Etag.Parse

/-!
# Nested hash readers

A `hash.Reader` passes content through and compares its digests with expected ones at the end.  The MD5 is
computed and compared by an `etag.Reader` below it, the SHA256 by itself.  `NewReader` of a `hash.Reader`
makes no second one: it replaces the expected digests of the first.

* `newReader` — both branches; `build` — a chain of calls;
* `readAll_spec` — when reading to the end returns `io.EOF`;
* `build_accepts` — which digests a chain leaves to be compared;
* `nested_verifies_iff` — the contents and chains for which every digest is verified;
* `nested_unverified` — chains with a digest that is not compared, and one whose content is refused.

All sizes are `-1`, so that no reader is limited; the first source is no `etag.Tagger`.
-/

namespace Zs3Server.Hash

open Lib.ByteString Lib.GoHex
open Etag (toText)

/-- The hash functions.  A SHA256 sum is not empty. -/
structure Hashes where
  md5 : List UInt8 → List UInt8
  sha256 : List UInt8 → List UInt8
  length_sha256 : ∀ content, (sha256 content).length = 32

inductive HashError where
  | badDigest (expectedMD5 calculatedMD5 : GoString)
  | sha256Mismatch (expectedSHA256 calculatedSHA256 : GoString)
  | alreadyRead
  deriving DecidableEq

/-- How a read ends: `io.EOF` or one of the errors. -/
inductive ReadEnd where
  | eof
  | failed (e : HashError)
  deriving DecidableEq

/-! ### Readers -/

/-- `etag.Reader`: what the reads of its source will return, the last with `io.EOF`; what its MD5 has been
given; the expected ETag. -/
structure EtagReader where
  pieces : List (List UInt8)
  md5 : List UInt8
  checksum : List UInt8

structure Reader where
  src : EtagReader
  bytesRead : ℕ
  checksum : List UInt8
  contentSHA256 : List UInt8
  sha256 : Option (List UInt8)

inductive Source where
  | plain (pieces : List (List UInt8))
  | reader (r : Reader)

def newReader (src : Source) (md5Hex sha256Hex : GoString) : Except HashError Reader :=
  match hexDecode md5Hex with
  | .error _ => .error (.badDigest md5Hex [])
  | .ok md5 =>
    match hexDecode sha256Hex with
    | .error _ => .error (.sha256Mismatch sha256Hex [])
    | .ok sha256 =>
      match src with
      | .reader r =>
        if 0 < r.bytesRead then .error .alreadyRead
        else if r.checksum ≠ [] ∧ md5 ≠ [] ∧ r.checksum ≠ md5 then
          .error (.badDigest (toText r.checksum) md5Hex)
        else if r.contentSHA256 ≠ [] ∧ sha256 ≠ [] ∧ r.contentSHA256 ≠ sha256 then
          .error (.sha256Mismatch (hexEncode r.contentSHA256) sha256Hex)
        -- the `etag.Reader` below and the choice of a hash stay as the first call made them
        else .ok { r with checksum := md5, contentSHA256 := sha256 }
      | .plain pieces =>
        .ok ⟨⟨pieces, [], md5⟩, 0, md5, sha256, if sha256 ≠ [] then some [] else none⟩

/-- One call's expected digests, in hex. -/
structure Level where
  md5Hex : GoString
  sha256Hex : GoString

/-- The calls after the first, each with the reader of the one before it as its source. -/
def nest (r : Reader) : List Level → Except HashError Reader
  | [] => .ok r
  | l :: rest =>
    match newReader (.reader r) l.md5Hex l.sha256Hex with
    | .error e => .error e
    | .ok r' => nest r' rest

def build (pieces : List (List UInt8)) (first : Level) (rest : List Level) : Except HashError Reader :=
  match newReader (.plain pieces) first.md5Hex first.sha256Hex with
  | .error e => .error e
  | .ok r => nest r rest

section Read

variable (H : Hashes)

/-- `Read` of the `etag.Reader`: the bytes, the error and the reader after it. -/
def EtagReader.read (r : EtagReader) : List UInt8 × Option ReadEnd × EtagReader :=
  match r.pieces with
  | p :: q :: rest => (p, none, ⟨q :: rest, r.md5 ++ p, r.checksum⟩)
  | pieces =>
    (pieces.flatten,
      some (if r.checksum ≠ [] ∧ H.md5 (r.md5 ++ pieces.flatten) ≠ r.checksum then
        .failed (.badDigest (toText r.checksum) (toText (H.md5 (r.md5 ++ pieces.flatten))))
        else .eof),
      ⟨[], r.md5 ++ pieces.flatten, r.checksum⟩)

/-- The comparison of the SHA256 at `io.EOF`. -/
def verifySHA256 (contentSHA256 : List UInt8) (sha256 : Option (List UInt8)) : Option ReadEnd → Option ReadEnd
  | some .eof =>
    match sha256 with
    | none => some .eof
    | some hashed =>
      if contentSHA256 ≠ H.sha256 hashed then
        some (.failed (.sha256Mismatch (hexEncode contentSHA256) (hexEncode (H.sha256 hashed))))
      else some .eof
  | err => err

def Reader.read (r : Reader) : List UInt8 × Option ReadEnd × Reader :=
  match r.src.read H with
  | (p, err, src) =>
    (p, verifySHA256 H r.contentSHA256 (r.sha256.map (· ++ p)) err,
      ⟨src, r.bytesRead + p.length, r.checksum, r.contentSHA256, r.sha256.map (· ++ p)⟩)

/-- Reads until one returns an error. -/
def readLoop : ℕ → Reader → Option ReadEnd
  | 0, _ => none
  | fuel + 1, r =>
    match r.read H with
    | (_, some e, _) => some e
    | (_, none, r') => readLoop fuel r'

/-- As many reads as there are pieces, and one for the `io.EOF` of an empty source. -/
def Reader.readAll (r : Reader) : Option ReadEnd := readLoop H (r.src.pieces.length + 1) r

/-! ### The end of the content -/

/-- The MD5 that is compared, and the SHA256. -/
def Reader.Accepts (r : Reader) (content : List UInt8) : Prop :=
  (r.src.checksum = [] ∨ r.src.checksum = H.md5 (r.src.md5 ++ content)) ∧
    ∀ hashed, r.sha256 = some hashed → r.contentSHA256 = H.sha256 (hashed ++ content)

variable {H}

theorem read_more {r : Reader} {p q : List UInt8} {rest : List (List UInt8)}
    (hpieces : r.src.pieces = p :: q :: rest) :
    r.read H = (p, none, ⟨⟨q :: rest, r.src.md5 ++ p, r.src.checksum⟩, r.bytesRead + p.length, r.checksum,
      r.contentSHA256, r.sha256.map (· ++ p)⟩) := by
  have hsrc : r.src.read H = (p, none, ⟨q :: rest, r.src.md5 ++ p, r.src.checksum⟩) := by
    unfold EtagReader.read
    rw [hpieces]
  unfold Reader.read
  rw [hsrc]
  rfl

/-- **The last read.**  It ends in `io.EOF` exactly when both comparisons succeed. -/
theorem read_last {r : Reader} (hpieces : r.src.pieces.length ≤ 1) :
    ∃ e, (r.read H).2.1 = some e ∧ (e = .eof ↔ r.Accepts H r.src.pieces.flatten) := by
  have hsrc : r.src.read H = (r.src.pieces.flatten,
      some (if r.src.checksum ≠ [] ∧ H.md5 (r.src.md5 ++ r.src.pieces.flatten) ≠ r.src.checksum then
        .failed (.badDigest (toText r.src.checksum)
          (toText (H.md5 (r.src.md5 ++ r.src.pieces.flatten))))
        else .eof),
      ⟨[], r.src.md5 ++ r.src.pieces.flatten, r.src.checksum⟩) := by
    unfold EtagReader.read
    match hp : r.src.pieces with
    | [] => rfl
    | [p] => rfl
    | p :: q :: rest => rw [hp] at hpieces; simp at hpieces
  unfold Reader.read Reader.Accepts
  rw [hsrc]
  generalize r.src.pieces.flatten = content
  by_cases hmd5 : r.src.checksum ≠ [] ∧ H.md5 (r.src.md5 ++ content) ≠ r.src.checksum
  · refine ⟨_, congrArg (verifySHA256 H _ _) (congrArg some (if_pos hmd5)), ?_⟩
    constructor
    · intro h
      cases h
    · rintro ⟨h | h, -⟩
      · exact absurd h hmd5.1
      · exact absurd h.symm hmd5.2
  · have hok : r.src.checksum = [] ∨ r.src.checksum = H.md5 (r.src.md5 ++ content) := by
      by_cases hempty : r.src.checksum = []
      · exact Or.inl hempty
      · exact Or.inr (by_contra fun h => hmd5 ⟨hempty, fun h' => h h'.symm⟩)
    rw [if_neg hmd5]
    cases hsha : r.sha256 with
    | none => exact ⟨.eof, rfl, fun _ => ⟨hok, fun hashed h => by cases h⟩, fun _ => rfl⟩
    | some hashed =>
      by_cases heq : r.contentSHA256 = H.sha256 (hashed ++ content)
      · refine ⟨.eof, if_neg (not_not.mpr heq), fun _ => ⟨hok, ?_⟩, fun _ => rfl⟩
        intro hashed' h
        cases h
        exact heq
      · refine ⟨_, if_pos heq, ?_, ?_⟩
        · intro h
          cases h
        · intro h
          exact absurd (h.2 hashed rfl) heq

theorem readLoop_last {r : Reader} (hpieces : r.src.pieces.length ≤ 1) (fuel : ℕ) :
    ∃ e, readLoop H (fuel + 1) r = some e ∧ (e = .eof ↔ r.Accepts H r.src.pieces.flatten) := by
  obtain ⟨e, hread, he⟩ := read_last (H := H) hpieces
  refine ⟨e, ?_, he⟩
  obtain ⟨p, err, r', hr⟩ : ∃ p err r', r.read H = (p, err, r') := ⟨_, _, _, rfl⟩
  rw [hr] at hread
  simp only at hread
  unfold readLoop
  rw [hr, hread]

/-- **Reading to the end.**  With enough reads the loop ends, and in `io.EOF` exactly when both comparisons
succeed, however the content is cut into pieces. -/
theorem readLoop_spec (pieces : List (List UInt8)) : ∀ (r : Reader) (fuel : ℕ), r.src.pieces = pieces →
    pieces.length ≤ fuel →
    ∃ e, readLoop H (fuel + 1) r = some e ∧ (e = .eof ↔ r.Accepts H pieces.flatten) := by
  induction pieces with
  | nil =>
    intro r fuel hpieces hfuel
    have hlast := readLoop_last (H := H) (r := r) (by rw [hpieces]; exact Nat.zero_le 1) fuel
    rwa [hpieces] at hlast
  | cons p pieces ih =>
    intro r fuel hpieces hfuel
    cases pieces with
    | nil =>
      have hlast := readLoop_last (H := H) (r := r) (by rw [hpieces]; exact le_refl 1) fuel
      rwa [hpieces] at hlast
    | cons q rest =>
      obtain ⟨fuel, rfl⟩ : ∃ k, fuel = k + 1 := ⟨fuel - 1, by simp at hfuel; omega⟩
      obtain ⟨e, hloop, he⟩ := ih ⟨⟨q :: rest, r.src.md5 ++ p, r.src.checksum⟩, r.bytesRead + p.length,
        r.checksum, r.contentSHA256, r.sha256.map (· ++ p)⟩ fuel rfl (by simp at hfuel ⊢; omega)
      refine ⟨e, ?_, he.trans ?_⟩
      · unfold readLoop
        rw [read_more hpieces]
        exact hloop
      -- the hashes have been given `p`, which the content after it no longer has
      · unfold Reader.Accepts
        cases r.sha256 with
        | none => simp [List.append_assoc]
        | some hashed => simp [List.append_assoc]

theorem readAll_spec (r : Reader) :
    ∃ e, r.readAll H = some e ∧ (e = .eof ↔ r.Accepts H r.src.pieces.flatten) :=
  readLoop_spec r.src.pieces r r.src.pieces.length rfl (le_refl _)

end Read

/-! ### Chains of readers -/

/-- The digest of a value that has been decoded; empty where none is given. -/
def digest (h : GoString) : List UInt8 :=
  match hexDecode h with
  | .ok bytes => bytes
  | .error _ => []

theorem newReader_reader_ok {r r' : Reader} {l : Level}
    (h : newReader (.reader r) l.md5Hex l.sha256Hex = .ok r') :
    r' = { r with checksum := digest l.md5Hex, contentSHA256 := digest l.sha256Hex } := by
  unfold newReader at h
  cases hmd5 : hexDecode l.md5Hex with
  | error e => rw [hmd5] at h; cases h
  | ok md5 =>
    cases hsha : hexDecode l.sha256Hex with
    | error e => rw [hmd5, hsha] at h; cases h
    | ok sha256 =>
      rw [hmd5, hsha] at h
      simp only at h
      split_ifs at h
      injection h with h
      rw [← h]
      simp [digest, hmd5, hsha]

theorem newReader_plain_ok {pieces : List (List UInt8)} {r' : Reader} {l : Level}
    (h : newReader (.plain pieces) l.md5Hex l.sha256Hex = .ok r') :
    r' = ⟨⟨pieces, [], digest l.md5Hex⟩, 0, digest l.md5Hex, digest l.sha256Hex,
      if digest l.sha256Hex ≠ [] then some [] else none⟩ := by
  unfold newReader at h
  cases hmd5 : hexDecode l.md5Hex with
  | error e => rw [hmd5] at h; cases h
  | ok md5 =>
    cases hsha : hexDecode l.sha256Hex with
    | error e => rw [hmd5, hsha] at h; cases h
    | ok sha256 =>
      rw [hmd5, hsha] at h
      injection h with h
      rw [← h]
      simp [digest, hmd5, hsha]

/-- The call whose expected SHA256 is the reader's. -/
def lastLevel (first : Level) (rest : List Level) : Level := rest.getLast?.getD first

/-- **What a chain of calls leaves.**  The `etag.Reader` and the hash are those of the first call; only the
expected SHA256 that is compared in the end is the last call's. -/
theorem nest_ok (rest : List Level) : ∀ (r r' : Reader) (l : Level), r.contentSHA256 = digest l.sha256Hex →
    nest r rest = .ok r' → r'.src = r.src ∧ r'.sha256 = r.sha256 ∧
      r'.contentSHA256 = digest (lastLevel l rest).sha256Hex := by
  induction rest with
  | nil =>
    intro r r' l hl h
    injection h with h
    subst h
    exact ⟨rfl, rfl, hl⟩
  | cons l' rest ih =>
    intro r r' l hl h
    unfold nest at h
    cases hnew : newReader (.reader r) l'.md5Hex l'.sha256Hex with
    | error e => rw [hnew] at h; cases h
    | ok r₁ =>
      rw [hnew] at h
      have hr₁ := newReader_reader_ok hnew
      obtain ⟨hsrc, hsha, hlast⟩ := ih r₁ r' l' (by rw [hr₁]) h
      rw [hr₁] at hsrc hsha
      refine ⟨hsrc, hsha, hlast.trans ?_⟩
      unfold lastLevel
      cases rest with
      | nil => rfl
      | cons l'' rest => rw [List.getLast?_cons_cons]; simp [List.getLast?_cons]

section Chain

variable (H : Hashes)

/-- The digests that a chain does compare: the first call's MD5 and, if the first call gave a SHA256, the last
call's. -/
def Compared (content : List UInt8) (first : Level) (rest : List Level) : Prop :=
  (digest first.md5Hex = [] ∨ digest first.md5Hex = H.md5 content) ∧
    (digest first.sha256Hex = [] ∨ digest (lastLevel first rest).sha256Hex = H.sha256 content)

/-- Every digest given is the content's. -/
def AllMatch (content : List UInt8) (levels : List Level) : Prop :=
  ∀ l ∈ levels, (digest l.md5Hex = [] ∨ digest l.md5Hex = H.md5 content) ∧
    (digest l.sha256Hex = [] ∨ digest l.sha256Hex = H.sha256 content)

instance decidableCompared (content : List UInt8) (first : Level) (rest : List Level) :
    Decidable (Compared H content first rest) :=
  inferInstanceAs (Decidable (_ ∧ _))

instance decidableAllMatch (content : List UInt8) (levels : List Level) :
    Decidable (AllMatch H content levels) :=
  inferInstanceAs (Decidable (∀ l ∈ levels, _))

variable {H}

theorem build_accepts {pieces : List (List UInt8)} {first : Level} {rest : List Level} {r : Reader}
    (h : build pieces first rest = .ok r) :
    r.src.pieces = pieces ∧ ∀ content, r.Accepts H content ↔ Compared H content first rest := by
  unfold build at h
  cases hnew : newReader (.plain pieces) first.md5Hex first.sha256Hex with
  | error e => rw [hnew] at h; cases h
  | ok r₀ =>
    rw [hnew] at h
    have hr₀ := newReader_plain_ok hnew
    obtain ⟨hsrc, hsha, hlast⟩ := nest_ok rest r₀ r first (by rw [hr₀]) h
    rw [hr₀] at hsrc hsha
    refine ⟨by rw [hsrc], ?_⟩
    intro content
    unfold Reader.Accepts Compared
    rw [hsrc, hsha, hlast]
    by_cases hempty : digest first.sha256Hex = []
    · simp [hempty]
    · simp [hempty]

theorem lastLevel_mem (first : Level) (rest : List Level) : lastLevel first rest ∈ first :: rest := by
  unfold lastLevel
  cases hlast : rest.getLast? with
  | none => exact List.mem_cons_self
  | some l => exact List.mem_cons_of_mem _ (List.mem_of_getLast? hlast)

/-- Where all digests are the content's, the compared ones are too, unless a SHA256 is compared with nothing. -/
theorem compared_of_allMatch {content : List UInt8} {first : Level} {rest : List Level}
    (hall : AllMatch H content (first :: rest)) :
    Compared H content first rest ↔
      (digest first.sha256Hex ≠ [] → digest (lastLevel first rest).sha256Hex ≠ []) := by
  have hfirst := hall first List.mem_cons_self
  have hlast := (hall _ (lastLevel_mem first rest)).2
  constructor
  · intro h hgiven hempty
    rcases h.2 with h | h
    · exact hgiven h
    · have hlength := H.length_sha256 content
      rw [← h, hempty] at hlength
      cases hlength
  · intro h
    refine ⟨hfirst.1, ?_⟩
    by_cases hempty : digest first.sha256Hex = []
    · exact Or.inl hempty
    · exact Or.inr (hlast.resolve_left (h hempty))

/-- **Which chains verify every digest.**  Reading to the end returns `io.EOF` exactly for contents that have
every digest given, if and only if no digest differs where the compared ones do not, and a first call with a
SHA256 is not followed by a last one without. -/
theorem nested_verifies_iff (H : Hashes) (pieces : List (List UInt8)) (first : Level) (rest : List Level)
    (r : Reader) (hbuild : build pieces first rest = .ok r) :
    (r.readAll H = some .eof ↔ AllMatch H pieces.flatten (first :: rest)) ↔
      ((Compared H pieces.flatten first rest → AllMatch H pieces.flatten (first :: rest)) ∧
        (AllMatch H pieces.flatten (first :: rest) → digest first.sha256Hex ≠ [] →
          digest (lastLevel first rest).sha256Hex ≠ [])) := by
  obtain ⟨hpieces, haccepts⟩ := build_accepts (H := H) hbuild
  have hread : r.readAll H = some .eof ↔ Compared H pieces.flatten first rest := by
    obtain ⟨e, hend, he⟩ := readAll_spec (H := H) r
    rw [hpieces] at he
    rw [hend, Option.some.injEq, he, haccepts]
  rw [hread]
  constructor
  · intro h
    exact ⟨h.mp, fun hall => (compared_of_allMatch hall).mp (h.mpr hall)⟩
  · intro h
    exact ⟨h.1, fun hall => (compared_of_allMatch hall).mpr (h.2 hall)⟩

end Chain

/-! ### Concrete chains -/

/-- Hash functions for short contents: the content itself, filled up. -/
def padded : Hashes where
  md5 content := (content ++ List.replicate 16 0).take 16
  sha256 content := (content ++ List.replicate 32 0).take 32
  length_sha256 := by
    intro content
    simp

def noDigest : Level := ⟨[], []⟩

/-- The digests of the content `a`. -/
def digestsOfA : Level := ⟨hexEncode (padded.md5 [97]), hexEncode (padded.sha256 [97])⟩

/-- The MD5 of the empty content. -/
def otherMD5 : Level := ⟨hexEncode (padded.md5 []), []⟩

theorem nested_verifies_iff_same :
    ∃ r, build [[97]] digestsOfA [digestsOfA] = .ok r ∧
      (r.readAll padded = some .eof ↔ AllMatch padded [97] [digestsOfA, digestsOfA]) := by
  obtain ⟨r, hr⟩ : ∃ r, build [[97]] digestsOfA [digestsOfA] = .ok r := ⟨_, rfl⟩
  refine ⟨r, hr, (nested_verifies_iff padded [[97]] digestsOfA [digestsOfA] r hr).mpr ⟨?_, ?_⟩⟩
  · intro _
    decide
  · intro _ _
    decide

/-- **A digest that is not compared, and a content that is refused.**  An MD5 that only the second call gives
is not the content's, and the content is read to the end.  A content with the SHA256 the first call gave is
refused since the second gave none. -/
theorem nested_unverified :
    (∃ r, build [[97]] noDigest [otherMD5] = .ok r ∧ r.readAll padded = some .eof ∧
      ¬ AllMatch padded [97] [noDigest, otherMD5]) ∧
    (∃ r, build [[97]] digestsOfA [noDigest] = .ok r ∧ r.readAll padded ≠ some .eof ∧
      AllMatch padded [97] [digestsOfA, noDigest]) :=
  ⟨⟨_, rfl, by decide, by decide⟩, _, rfl, by decide, by decide⟩

end Zs3Server.Hash
