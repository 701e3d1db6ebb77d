import Zs3Server.Lib.GoUtf8

/-!
# Patterns of `LIKE`

`evalSQLLike` goes once through the pattern and matches the text on the way.  What it makes of the pattern
does not depend on the text: with an escape character and without one, the pattern is read as a sequence of
literal runes, `%` and `_`.

* `likeLoop`, `evalSQLLike` — the matcher, over the runes of strings of any bytes;
* `readPattern`, `likeLoop_eq_read` — what is read of a pattern, and that the loop matches just that;
* `run_canon`, `count_le_of_run` — the shortest text that a reading accepts, and what every text that it
  accepts has to hold;
* `escape_unused_iff` — an escape character makes no difference to any text exactly when it is not used;
* `evalSQLLike_eq_without` — in particular when it is not in the pattern.
-/

namespace Zs3Server.S3Select

open Lib.ByteString Lib.GoUtf8

inductive SqlError where
  -- LIKE clause requires string arguments
  | likeNonStrArg
  -- LIKE clause has invalid ESCAPE character
  | likeInvalidEscape
  -- Malformed escape sequence in LIKE clause
  | malformedEscapeSequence
  -- an error of a part
  | other (n : ℕ)
  deriving DecidableEq

/-- A rune, by its encoding. -/
abbrev Rune := GoString

def percent : Rune := lit "%"

def underscore : Rune := lit "_"

def runeZero : Rune := [0]

/-- `strings.SplitN(text, pat, 2)`: what follows the first occurrence. -/
def splitAfter (pat : GoString) : GoString → Option GoString
  | [] => none
  | c :: text =>
    if pat.isPrefixOf (c :: text) then some ((c :: text).drop pat.length) else splitAfter pat text

def matcher (text pat : GoString) (leadingPercent : Bool) : Option GoString :=
  if leadingPercent = false then
    if text.length = (trimPrefix text pat).length then none else some (trimPrefix text pat)
  else splitAfter pat text

/-- The runes that remain are encoded again. -/
def dropRune (text : GoString) : Option GoString :=
  match runes text with
  | [] => none
  | _ :: rest => some (rest.flatMap Prod.fst)

/-- The loop of `evalSQLLike` from byte `i` of the pattern on.  The code always has an escape
character; without one, no rune is compared with it. -/
def likeLoop (escape : Option Rune) (patLen : ℕ) :
    ℕ → List (Rune × ℕ) → GoString → List Rune → Rune → Bool → Except SqlError Bool
  | _, [], text, s, _, hasLeadingPercent =>
    .ok (if hasLeadingPercent then s.flatten.isSuffixOf text else s.flatten == text)
  | i, (r, width) :: pattern, text, s, prev, hasLeadingPercent =>
    if 0 < i ∧ some prev = escape then
      if r = percent ∨ some r = escape ∨ r = underscore then
        likeLoop escape patLen (i + width) pattern text (s ++ [r])
          (if some r = escape then runeZero else r) hasLeadingPercent
      else .error .malformedEscapeSequence
    else if r = percent then
      if s = [] then likeLoop escape patLen (i + width) pattern text s r true
      else
        match matcher text s.flatten hasLeadingPercent with
        | none => .ok false
        | some text =>
          if i + 1 = patLen then .ok true
          else likeLoop escape patLen (i + width) pattern text [] r true
    else if r = underscore then
      if s = [] then
        match dropRune text with
        | none => .ok false
        | some text => likeLoop escape patLen (i + width) pattern text s r hasLeadingPercent
      else
        match (matcher text s.flatten hasLeadingPercent).bind dropRune with
        | none => .ok false
        | some text => likeLoop escape patLen (i + width) pattern text [] r false
    else if some r = escape then
      if i + 1 = patLen then .error .malformedEscapeSequence
      else likeLoop escape patLen (i + width) pattern text s r hasLeadingPercent
    else likeLoop escape patLen (i + width) pattern text (s ++ [r]) r hasLeadingPercent

def likeFrom (text pattern : GoString) (escape : Option Rune) : Except SqlError Bool :=
  likeLoop escape (runes pattern).length 0 (runes pattern) text [] runeZero false

def evalSQLLike (text pattern : GoString) (escape : Rune) : Except SqlError Bool :=
  likeFrom text pattern (some escape)

/-- What is asked for without `ESCAPE`. -/
def evalWithoutEscape (text pattern : GoString) : Except SqlError Bool := likeFrom text pattern none

/-! ## Readings -/

/-- What is read of a pattern; `stop` is the `%` at which the loop ends early, after a literal. -/
inductive Reading where
  | done
  | stop
  | malformed
  | lit (r : Rune) (rest : Reading)
  | many (rest : Reading)
  | one (rest : Reading)

/-- The reading of a pattern from byte `i` on; `fresh` says that no literal is pending. -/
def readPattern (escape : Option Rune) (patLen : ℕ) : ℕ → List (Rune × ℕ) → Bool → Rune → Reading
  | _, [], _, _ => .done
  | i, (r, width) :: pattern, fresh, prev =>
    if 0 < i ∧ some prev = escape then
      if r = percent ∨ some r = escape ∨ r = underscore then
        .lit r (readPattern escape patLen (i + width) pattern false (if some r = escape then runeZero else r))
      else .malformed
    else if r = percent then
      if fresh = false ∧ i + 1 = patLen then .stop
      else .many (readPattern escape patLen (i + width) pattern true r)
    else if r = underscore then .one (readPattern escape patLen (i + width) pattern true r)
    else if some r = escape then
      if i + 1 = patLen then .malformed else readPattern escape patLen (i + width) pattern fresh r
    else .lit r (readPattern escape patLen (i + width) pattern false r)

/-- The text after the pending literal. -/
def pass (text : GoString) (s : List Rune) (lead : Bool) : Option GoString :=
  if s = [] then some text else matcher text s.flatten lead

/-- A text is matched with a reading. -/
def Reading.run : Reading → GoString → List Rune → Bool → Except SqlError Bool
  | .done, text, s, lead => .ok (if lead then s.flatten.isSuffixOf text else s.flatten == text)
  | .stop, text, s, lead => .ok (pass text s lead).isSome
  | .malformed, _, _, _ => .error .malformedEscapeSequence
  | .lit r rest, text, s, lead => rest.run text (s ++ [r]) lead
  | .many rest, text, s, lead =>
    match pass text s lead with
    | none => .ok false
    | some text => rest.run text [] true
  | .one rest, text, s, lead =>
    match (pass text s lead).bind dropRune with
    | none => .ok false
    | some text => rest.run text [] (if s = [] then lead else false)

/-- **The loop matches the reading of the pattern.** -/
theorem likeLoop_eq_read (escape : Option Rune) (patLen i : ℕ) (pattern : List (Rune × ℕ)) (text : GoString)
    (s : List Rune) (prev : Rune) (lead : Bool) :
    likeLoop escape patLen i pattern text s prev lead =
      (readPattern escape patLen i pattern s.isEmpty prev).run text s lead := by
  induction pattern generalizing i text s prev lead with
  | nil => rfl
  | cons p pattern ih =>
    obtain ⟨r, width⟩ := p
    have hlit : ∀ x : Rune, (s ++ [x]).isEmpty = false := fun x => by simp
    simp only [likeLoop, readPattern, ih, hlit, List.isEmpty_nil]
    by_cases hs : s = []
    · subst hs
      split_ifs <;> simp_all [Reading.run, pass]
    · have hempty : s.isEmpty = false := by simpa using hs
      simp only [if_neg hs, hempty, true_and]
      split_ifs <;> simp only [Reading.run, pass, if_neg hs]
      · cases matcher text s.flatten lead <;> rfl

/-- The literal runes. -/
def Reading.lits : Reading → List Rune
  | .lit r rest => r :: rest.lits
  | .many rest | .one rest => rest.lits
  | .done | .stop | .malformed => []

def Reading.Clean : Reading → Prop
  | .malformed => False
  | .lit _ rest | .many rest | .one rest => rest.Clean
  | .done | .stop => True

/-- The runes of the shortest text, with `f` for every `_`. -/
def Reading.canon (f : Rune) : Reading → List Rune
  | .lit r rest => r :: rest.canon f
  | .many rest => rest.canon f
  | .one rest => f :: rest.canon f
  | .done | .stop | .malformed => []

theorem mem_lits {escape : Option Rune} {patLen : ℕ} {pattern : List (Rune × ℕ)} {r : Rune} (i : ℕ)
    (fresh : Bool) (prev : Rune) (h : r ∈ (readPattern escape patLen i pattern fresh prev).lits) :
    r ∈ pattern.map Prod.fst := by
  induction pattern generalizing i fresh prev with
  | nil => simp [readPattern, Reading.lits] at h
  | cons p pattern ih =>
    rw [List.map_cons, List.mem_cons]
    rw [readPattern] at h
    split_ifs at h
    · exact (List.mem_cons.mp h).imp id (ih _ _ _)
    · exact (List.mem_cons.mp h).imp id (ih _ _ _)
    · cases h
    · cases h
    · exact .inr (ih _ _ _ h)
    · exact .inr (ih _ _ _ h)
    · cases h
    · exact .inr (ih _ _ _ h)
    · exact (List.mem_cons.mp h).imp id (ih _ _ _)

theorem canon_isRune {f : Rune} (hf : IsRune f) {R : Reading} (h : ∀ r ∈ R.lits, IsRune r) :
    ∀ r ∈ R.canon f, IsRune r := by
  induction R with
  | done | stop | malformed => simp [Reading.canon]
  | lit r rest ih | many rest ih | one rest ih => simp_all [Reading.canon, Reading.lits]

theorem count_canon {e f : Rune} (hne : f ≠ e) (R : Reading) : (R.canon f).count e = R.lits.count e := by
  induction R with
  | done | stop | malformed => rfl
  | lit r rest ih => simp [Reading.canon, Reading.lits, List.count_cons, ih]
  | many rest ih => exact ih
  | one rest ih => simpa [Reading.canon, Reading.lits, List.count_cons, hne] using ih

/-! ## Texts -/

/-- How often a rune occurs in a text. -/
def occurs (e : Rune) (t : GoString) : ℕ := ((runes t).map Prod.fst).count e

theorem occurs_flatten {rs : List Rune} (h : ∀ r ∈ rs, IsRune r) (e : Rune) (t : GoString) :
    occurs e (rs.flatten ++ t) = rs.count e + occurs e t := by
  rw [occurs, runes_flatten h, List.map_append, List.count_append, List.map_map]
  congr 2
  exact List.map_id rs

theorem occurs_flatten_self {rs : List Rune} (h : ∀ r ∈ rs, IsRune r) (e : Rune) :
    occurs e rs.flatten = rs.count e := by
  have hflat := occurs_flatten h e []
  rw [List.append_nil] at hflat
  rw [hflat]
  simp [occurs, runes]

theorem isRune_snoc {s : List Rune} (hs : ∀ r ∈ s, IsRune r) {r : Rune} (hr : IsRune r) :
    ∀ q ∈ s ++ [r], IsRune q := by
  intro q hq
  rcases List.mem_append.mp hq with hq | hq
  · exact hs q hq
  · exact List.mem_singleton.mp hq ▸ hr

theorem dropRune_flatten {f : Rune} {rs : List Rune} (hf : IsRune f) (h : ∀ r ∈ rs, IsRune r) :
    dropRune (f ++ rs.flatten) = some rs.flatten := by
  have hrs := runes_flatten h []
  rw [List.append_nil, runes, List.append_nil] at hrs
  rw [dropRune, hf, hrs]
  show some ((rs.map fun r => (r, r.length)).flatMap Prod.fst) = _
  rw [List.flatMap_map, List.flatMap_id']

theorem occurs_dropRune {t t' : GoString} (h : dropRune t = some t') (e : Rune) : occurs e t' ≤ occurs e t := by
  unfold dropRune at h
  split at h
  · cases h
  · next p rest hruns =>
    have hrunes : ∀ r ∈ rest.map Prod.fst, IsRune r := by
      intro r hr
      obtain ⟨q, hq, rfl⟩ := List.mem_map.mp hr
      exact (isRune_of_mem (hruns ▸ List.mem_cons_of_mem _ hq)).1
    obtain rfl := Option.some.inj h
    rw [List.flatMap_def, occurs_flatten_self hrunes, occurs, hruns, List.map_cons, List.count_cons]
    omega

theorem splitAfter_eq {pat t t' : GoString} (h : splitAfter pat t = some t') : ∃ pre, t = pre ++ (pat ++ t') := by
  induction t with
  | nil => cases h
  | cons c t ih =>
    rw [splitAfter] at h
    split at h
    · next hp =>
      obtain ⟨rest, hrest⟩ := List.isPrefixOf_iff_prefix.mp hp
      rw [← hrest, List.drop_left] at h
      exact ⟨[], by rw [← hrest, Option.some.inj h]; rfl⟩
    · obtain ⟨pre, rfl⟩ := ih h
      exact ⟨c :: pre, rfl⟩

theorem matcher_eq {pat t t' : GoString} {lead : Bool} (h : matcher t pat lead = some t') :
    ∃ pre, t = pre ++ (pat ++ t') := by
  unfold matcher at h
  split at h
  · split at h
    · cases h
    · next hlen =>
      unfold trimPrefix at h hlen
      split at h
      · next hp =>
        obtain ⟨rest, rfl⟩ := List.isPrefixOf_iff_prefix.mp hp
        rw [List.drop_left] at h
        exact ⟨[], by rw [Option.some.inj h]; rfl⟩
      · next hp => rw [if_neg hp] at hlen; exact absurd rfl hlen
  · exact splitAfter_eq h

theorem matcher_append {pat : GoString} (hne : pat ≠ []) (t : GoString) (lead : Bool) :
    matcher (pat ++ t) pat lead = some t := by
  cases lead with
  | false => simp [matcher, trimPrefix_append, hne]
  | true =>
    obtain ⟨c, pat, rfl⟩ := List.exists_cons_of_ne_nil hne
    simp [matcher, splitAfter]

theorem flatten_eq_cons {s : List Rune} (hs : ∀ r ∈ s, IsRune r) (hne : s ≠ []) :
    ∃ b t, s.flatten = b :: t ∧ isContinuation b = false := by
  obtain ⟨r, s, rfl⟩ := List.exists_cons_of_ne_nil hne
  have hr := hs r (by simp)
  cases r with
  | nil => simpa [runes] using hr []
  | cons b r => exact ⟨b, r ++ s.flatten, rfl, isContinuation_head hr⟩

theorem pass_append {s : List Rune} (hs : ∀ r ∈ s, IsRune r) (t : GoString) (lead : Bool) :
    pass (s.flatten ++ t) s lead = some t := by
  unfold pass
  split
  · next hne => simp [hne]
  · next hne =>
    obtain ⟨b, u, hu, -⟩ := flatten_eq_cons hs hne
    exact matcher_append (by simp [hu]) t lead

/-- The runes of a literal that is found, and those after it, are runes of the text. -/
theorem occurs_append {s : List Rune} (hs : ∀ r ∈ s, IsRune r) (pre t : GoString) (e : Rune) :
    s.count e + occurs e t ≤ occurs e (pre ++ (s.flatten ++ t)) ∨ s = [] := by
  by_cases hne : s = []
  · exact .inr hne
  · rw [← occurs_flatten hs]
    obtain ⟨b, u, hu, hb⟩ := flatten_eq_cons hs hne
    obtain ⟨front, hfront⟩ := runes_suffix hb (u ++ t) pre
    rw [hu, List.cons_append, occurs, occurs, hfront, List.map_append, List.count_append]
    exact .inl (Nat.le_add_left _ _)

theorem occurs_pass {s : List Rune} (hs : ∀ r ∈ s, IsRune r) {t t' : GoString} {lead : Bool}
    (h : pass t s lead = some t') (e : Rune) : s.count e + occurs e t' ≤ occurs e t := by
  unfold pass at h
  split at h
  · next hne => simp [hne, Option.some.inj h]
  · next hne =>
    obtain ⟨pre, rfl⟩ := matcher_eq h
    exact (occurs_append hs pre t' e).resolve_right hne

/-- **A reading accepts its shortest text.** -/
theorem run_canon {f : Rune} (hf : IsRune f) (R : Reading) (hclean : R.Clean) (hlits : ∀ r ∈ R.lits, IsRune r)
    (s : List Rune) (hs : ∀ r ∈ s, IsRune r) (lead : Bool) :
    R.run (s.flatten ++ (R.canon f).flatten) s lead = .ok true := by
  induction R generalizing s lead with
  | done => cases lead <;> simp [Reading.run, Reading.canon]
  | stop => simp [Reading.run, pass_append hs]
  | malformed => exact hclean.elim
  | lit r rest ih =>
    have hr := isRune_snoc hs (hlits r (by simp [Reading.lits]))
    have hflat : (s ++ [r]).flatten ++ (rest.canon f).flatten =
        s.flatten ++ ((Reading.lit r rest).canon f).flatten := by simp [Reading.canon]
    rw [Reading.run, ← hflat]
    exact ih hclean (fun q hq => hlits q (by simp [Reading.lits, hq])) _ hr lead
  | many rest ih =>
    rw [Reading.run, pass_append hs]
    exact ih hclean hlits [] (by simp) true
  | one rest ih =>
    rw [Reading.run, pass_append hs, Option.bind_some, Reading.canon, List.flatten_cons,
      dropRune_flatten hf (canon_isRune hf (R := rest) hlits)]
    exact ih hclean hlits [] (by simp) _

/-- **What an accepted text holds**: every rune at least as often as it is a literal. -/
theorem count_le_of_run (e : Rune) (R : Reading) (hlits : ∀ r ∈ R.lits, IsRune r) (t : GoString) (s : List Rune)
    (hs : ∀ r ∈ s, IsRune r) (lead : Bool) (h : R.run t s lead = .ok true) :
    R.Clean ∧ s.count e + R.lits.count e ≤ occurs e t := by
  induction R generalizing t s lead with
  | done =>
    refine ⟨trivial, ?_⟩
    have hsuffix : ∃ pre, t = pre ++ (s.flatten ++ []) := by
      cases lead with
      | false =>
        have heq : s.flatten = t := by simpa [Reading.run] using h
        exact ⟨[], by simp [heq]⟩
      | true =>
        obtain ⟨pre, hpre⟩ : s.flatten <:+ t := by simpa [Reading.run] using h
        exact ⟨pre, by simp [hpre]⟩
    obtain ⟨pre, rfl⟩ := hsuffix
    rcases occurs_append hs pre [] e with hle | rfl
    · exact Nat.le_trans (Nat.add_le_add_left (Nat.zero_le _) _) hle
    · exact Nat.zero_le _
  | stop =>
    obtain ⟨t', ht'⟩ := Option.isSome_iff_exists.mp (by simpa [Reading.run] using h)
    have hle := occurs_pass hs ht' e
    exact ⟨trivial, by simp only [Reading.lits, List.count_nil]; omega⟩
  | malformed => cases h
  | lit r rest ih =>
    have hr := isRune_snoc hs (hlits r (by simp [Reading.lits]))
    obtain ⟨hclean, hle⟩ := ih (fun q hq => hlits q (by simp [Reading.lits, hq])) t _ hr lead h
    refine ⟨hclean, ?_⟩
    simpa [Reading.lits, List.count_append, List.count_cons, Nat.add_assoc, Nat.add_comm] using hle
  | many rest ih =>
    rw [Reading.run] at h
    split at h
    · cases h
    · next t' ht' =>
      obtain ⟨hclean, hle⟩ := ih hlits t' [] (by simp) true h
      have hpass := occurs_pass hs ht' e
      exact ⟨hclean, by simp only [Reading.lits, List.count_nil] at *; omega⟩
  | one rest ih =>
    rw [Reading.run] at h
    split at h
    · cases h
    · next t' ht' =>
      obtain ⟨u, hu, hdrop⟩ := Option.bind_eq_some_iff.mp ht'
      obtain ⟨hclean, hle⟩ := ih hlits t' [] (by simp) _ h
      have hpass := occurs_pass hs hu e
      have hless := occurs_dropRune hdrop e
      exact ⟨hclean, by simp only [Reading.lits, List.count_nil] at *; omega⟩

/-- A reading that accepts what another one does has no more literals: the other accepts its shortest text,
with a rune of its own for every `_`. -/
theorem count_le_of_same {R S : Reading} (e : Rune) (hclean : R.Clean) (hR : ∀ r ∈ R.lits, IsRune r)
    (hS : ∀ r ∈ S.lits, IsRune r) (hrun : ∀ text, R.run text [] false = S.run text [] false) :
    S.Clean ∧ S.lits.count e ≤ R.lits.count e := by
  obtain ⟨f, hf, hne⟩ : ∃ f, IsRune f ∧ f ≠ e := by
    by_cases he : e = lit "x"
    · exact ⟨lit "y", isRune_ascii (by decide), by rw [he]; decide⟩
    · exact ⟨lit "x", isRune_ascii (by decide), Ne.symm he⟩
  have haccept := run_canon hf R hclean hR [] (by simp) false
  rw [List.flatten_nil, List.nil_append, hrun] at haccept
  obtain ⟨hcleanS, hle⟩ := count_le_of_run e S hS _ [] (by simp) false haccept
  rw [occurs_flatten_self (canon_isRune hf hR), count_canon hne] at hle
  exact ⟨hcleanS, by simpa using hle⟩

/-! ## Used escape characters -/

/-- The escape character is not used: it is no literal, and if it is `%` or `_` nothing follows it. -/
def Reading.Unused (e : Rune) : Reading → Prop
  | .done | .stop | .malformed => True
  | .lit r rest => r ≠ e ∧ rest.Unused e
  | .many rest => (e = percent → rest = .done) ∧ rest.Unused e
  | .one rest => (e = underscore → rest = .done) ∧ rest.Unused e

section Escape

variable {e : Rune} {patLen : ℕ}

theorem pattern_eq_nil {i : ℕ} {pattern : List (Rune × ℕ)} {fresh : Bool} {prev : Rune}
    (h : readPattern none patLen i pattern fresh prev = .done) : pattern = [] := by
  cases pattern with
  | nil => rfl
  | cons p pattern =>
    rw [readPattern] at h
    split_ifs at h <;> simp_all

theorem read_eq_of_unused (i : ℕ) (pattern : List (Rune × ℕ)) (fresh : Bool) (prev : Rune)
    (hprev : 0 < i → prev ≠ e) (h : (readPattern none patLen i pattern fresh prev).Unused e) :
    readPattern (some e) patLen i pattern fresh prev = readPattern none patLen i pattern fresh prev := by
  induction pattern generalizing i fresh prev with
  | nil => rfl
  | cons p pattern ih =>
    obtain ⟨r, width⟩ := p
    have hbefore : ¬ (0 < i ∧ some prev = some e) := fun h => hprev h.1 (Option.some.inj h.2)
    -- after a `%` or `_` that is the escape character there is no more pattern
    have hwild : ∀ fresh, (e = r → readPattern none patLen (i + width) pattern fresh r = .done) →
        (readPattern none patLen (i + width) pattern fresh r).Unused e →
        readPattern (some e) patLen (i + width) pattern fresh r =
          readPattern none patLen (i + width) pattern fresh r := by
      intro fresh hdone hrest
      by_cases hr : e = r
      · rw [pattern_eq_nil (hdone hr)]
        rfl
      · exact ih _ _ _ (fun _ => Ne.symm hr) hrest
    rw [readPattern] at h
    rw [readPattern, readPattern, if_neg hbefore]
    split_ifs at h ⊢ <;> simp_all [Reading.Unused]

/-- An escape character that is not in the pattern is not used. -/
theorem unused_of_notMem (i : ℕ) (pattern : List (Rune × ℕ)) (hno : e ∉ pattern.map Prod.fst)
    (fresh : Bool) (prev : Rune) : (readPattern none patLen i pattern fresh prev).Unused e := by
  induction pattern generalizing i fresh prev with
  | nil => trivial
  | cons p pattern ih =>
    obtain ⟨r, width⟩ := p
    rw [List.map_cons, List.mem_cons, not_or] at hno
    have hrest := fun fresh => ih (i + width) hno.2 fresh r
    simp only [readPattern, reduceCtorEq, and_false, if_false]
    split_ifs with hpct _ hund
    · trivial
    · exact ⟨fun he => absurd (he.trans hpct.symm) hno.1, hrest true⟩
    · exact ⟨fun he => absurd (he.trans hund.symm) hno.1, hrest true⟩
    · exact ⟨Ne.symm hno.1, hrest false⟩

/-- Nothing is malformed, and no `%` or `_` is a literal. -/
structure Reading.Plain (R : Reading) : Prop where
  clean : R.Clean
  percent : percent ∉ R.lits
  underscore : underscore ∉ R.lits

theorem Reading.Plain.rest {r : Rune} {R : Reading} (h : (Reading.lit r R).Plain) :
    r ≠ S3Select.percent ∧ r ≠ S3Select.underscore ∧ R.Plain := by
  obtain ⟨hclean, hpct, hund⟩ := h
  simp only [Reading.lits, List.mem_cons, not_or] at hpct hund
  exact ⟨Ne.symm hpct.1, Ne.symm hund.1, hclean, hpct.2, hund.2⟩

theorem plain_read_none (i : ℕ) (pattern : List (Rune × ℕ)) (fresh : Bool) (prev : Rune) :
    (readPattern none patLen i pattern fresh prev).Plain := by
  suffices h : (readPattern none patLen i pattern fresh prev).Clean ∧
      percent ∉ (readPattern none patLen i pattern fresh prev).lits ∧
      underscore ∉ (readPattern none patLen i pattern fresh prev).lits from ⟨h.1, h.2.1, h.2.2⟩
  induction pattern generalizing i fresh prev with
  | nil => simp [readPattern, Reading.Clean, Reading.lits]
  | cons p pattern ih =>
    rw [readPattern]
    split_ifs <;> simp_all [Reading.Clean, Reading.lits, eq_comm]

/-- Right after the escape character only the escape character can come. -/
theorem read_pending {i width : ℕ} {r : Rune} {pattern : List (Rune × ℕ)} {fresh : Bool} (hi : 0 < i)
    (h : (readPattern (some e) patLen i ((r, width) :: pattern) fresh e).Plain) :
    r = e ∧ r ≠ percent ∧ r ≠ underscore ∧
      readPattern (some e) patLen i ((r, width) :: pattern) fresh e =
        .lit r (readPattern (some e) patLen (i + width) pattern false runeZero) := by
  rw [readPattern, if_pos ⟨hi, rfl⟩] at h ⊢
  split at h
  · next hr =>
    obtain ⟨hpct, hund, -⟩ := h.rest
    have he : some r = some e := (hr.resolve_left hpct).resolve_right hund
    exact ⟨Option.some.inj he, hpct, hund, by rw [if_pos hr, if_pos he]⟩
  · exact h.clean.elim

/-- A `%` or `_` that is the escape character is the last rune. -/
theorem nil_of_plain {i : ℕ} {pattern : List (Rune × ℕ)} {fresh : Bool} (hi : 0 < i)
    (he : e = percent ∨ e = underscore) (h : (readPattern (some e) patLen i pattern fresh e).Plain) :
    pattern = [] := by
  cases pattern with
  | nil => rfl
  | cons q pattern =>
    obtain ⟨rfl, hpct, hund, -⟩ := read_pending hi h
    exact (he.elim hpct hund).elim

/-- **An escape character that is used takes away literals of itself.**  The induction goes over the
states in which a rune is escaped, too. -/
theorem count_of_plain (i : ℕ) (pattern : List (Rune × ℕ)) (hwidth : ∀ p ∈ pattern, 0 < p.2)
    (freshA freshB : Bool) (prev prevB : Rune) (hfresh : ¬ (0 < i ∧ prev = e) → freshA = freshB)
    (h : (readPattern (some e) patLen i pattern freshA prev).Plain) :
    (readPattern (some e) patLen i pattern freshA prev).lits.count e ≤
        (readPattern none patLen i pattern freshB prevB).lits.count e ∧
      (¬ (0 < i ∧ prev = e) → (readPattern none patLen i pattern freshB prevB).lits.count e ≤
          (readPattern (some e) patLen i pattern freshA prev).lits.count e →
        (readPattern none patLen i pattern freshB prevB).Unused e) := by
  induction pattern generalizing i freshA freshB prev prevB with
  | nil => simp [readPattern, Reading.lits, Reading.Unused]
  | cons p pattern ih =>
    obtain ⟨r, width⟩ := p
    have hpos : 0 < i + width := Nat.add_pos_right i (hwidth (r, width) (by simp))
    have ih := ih (i + width) fun p hp => hwidth p (by simp [hp])
    have hnone : ∀ q, ¬ (0 < i ∧ some q = (none : Option Rune)) := by simp
    by_cases hpend : 0 < i ∧ prev = e
    · obtain ⟨hi, rfl⟩ := hpend
      obtain ⟨rfl, hpct, hund, hA⟩ := read_pending hi h
      rw [hA] at h ⊢
      rw [readPattern, if_neg (hnone _), if_neg hpct, if_neg hund, if_neg (by simp)]
      have hrest := (ih false false runeZero r (fun _ => rfl) h.rest.2.2).1
      exact ⟨by simpa [Reading.lits] using hrest, fun hno => absurd ⟨hi, rfl⟩ hno⟩
    · obtain rfl := hfresh hpend
      have hbefore : ¬ (0 < i ∧ some prev = some e) := fun h => hpend ⟨h.1, Option.some.inj h.2⟩
      have hrest : (readPattern (some e) patLen (i + width) pattern true r).Plain →
          r = percent ∨ r = underscore →
          (readPattern (some e) patLen (i + width) pattern true r).lits.count e ≤
              (readPattern none patLen (i + width) pattern true r).lits.count e ∧
            ((readPattern none patLen (i + width) pattern true r).lits.count e ≤
                (readPattern (some e) patLen (i + width) pattern true r).lits.count e →
              (e = r → readPattern none patLen (i + width) pattern true r = .done) ∧
                (readPattern none patLen (i + width) pattern true r).Unused e) := by
        intro hp hr
        by_cases he : e = r
        · subst he
          rw [nil_of_plain hpos hr hp]
          simp [readPattern, Reading.lits, Reading.Unused]
        · obtain ⟨hle, hunused⟩ := ih true true r r (fun _ => rfl) hp
          exact ⟨hle, fun hge => ⟨fun h => absurd h he, hunused (fun h => he h.2.symm) hge⟩⟩
      rw [readPattern, if_neg hbefore] at h ⊢
      rw [readPattern, if_neg (hnone _)]
      by_cases hpct : r = percent
      · rw [if_pos hpct] at h ⊢
        rw [if_pos hpct]
        split_ifs at h ⊢
        · simp [Reading.lits, Reading.Unused]
        · obtain ⟨hle, hunused⟩ := hrest ⟨h.clean, h.percent, h.underscore⟩ (.inl hpct)
          exact ⟨hle, fun _ hge => hpct ▸ hunused hge⟩
      · rw [if_neg hpct] at h ⊢
        rw [if_neg hpct]
        by_cases hund : r = underscore
        · rw [if_pos hund] at h ⊢
          rw [if_pos hund]
          obtain ⟨hle, hunused⟩ := hrest ⟨h.clean, h.percent, h.underscore⟩ (.inr hund)
          exact ⟨hle, fun _ hge => hund ▸ hunused hge⟩
        · rw [if_neg hund] at h ⊢
          rw [if_neg hund, if_neg (show some r ≠ none by simp)]
          by_cases he : r = e
          · rw [if_pos (congrArg some he)] at h ⊢
            split at h
            · exact h.clean.elim
            · next hlast =>
              rw [if_neg hlast]
              have hle := (ih freshA false r r (fun hno => absurd ⟨hpos, he⟩ hno) h).1
              rw [Reading.lits, List.count_cons, if_pos (by simp [he])]
              exact ⟨by omega, fun _ hge => by omega⟩
          · rw [if_neg (by simpa using he)] at h ⊢
            obtain ⟨hle, hunused⟩ := ih false false r r (fun _ => rfl) h.rest.2.2
            rw [Reading.lits, Reading.lits, List.count_cons_of_ne he, List.count_cons_of_ne he]
            exact ⟨hle, fun _ hge => ⟨he, hunused (fun h => he h.2) hge⟩⟩

end Escape

/-- The reading of a pattern without an escape character. -/
def reading (pattern : GoString) : Reading :=
  readPattern none (runes pattern).length 0 (runes pattern) true runeZero

/-- **An escape character makes no difference to any text exactly when it is not used.**  Texts that tell the
readings apart are the shortest ones of either. -/
theorem escape_unused_iff (pattern : GoString) (e : Rune) :
    (∀ text, evalSQLLike text pattern e = evalWithoutEscape text pattern) ↔ (reading pattern).Unused e := by
  have hA : ∀ text, evalSQLLike text pattern e = Reading.run
      (readPattern (some e) (runes pattern).length 0 (runes pattern) true runeZero) text [] false :=
    fun text => likeLoop_eq_read (some e) _ 0 (runes pattern) text [] runeZero false
  have hB : ∀ text, evalWithoutEscape text pattern = (reading pattern).run text [] false :=
    fun text => likeLoop_eq_read none _ 0 (runes pattern) text [] runeZero false
  simp only [hA, hB]
  constructor
  · intro hall
    generalize hread : readPattern (some e) (runes pattern).length 0 (runes pattern) true runeZero = A at hall
    have hrune : ∀ escape, ∀ r ∈ (readPattern escape (runes pattern).length 0 (runes pattern) true
        runeZero).lits, IsRune r := by
      intro escape r hr
      obtain ⟨p, hp, rfl⟩ := List.mem_map.mp (mem_lits 0 true runeZero hr)
      exact (isRune_of_mem hp).1
    have hlitsA : ∀ r ∈ A.lits, IsRune r := hread ▸ hrune (some e)
    have hlitsB : ∀ r ∈ (reading pattern).lits, IsRune r := hrune none
    have hplainB : (reading pattern).Plain := plain_read_none 0 _ true runeZero
    obtain ⟨hclean, hpct⟩ := count_le_of_same percent hplainB.clean hlitsB hlitsA fun text => (hall text).symm
    obtain ⟨-, hund⟩ := count_le_of_same underscore hplainB.clean hlitsB hlitsA fun text => (hall text).symm
    obtain ⟨-, hle⟩ := count_le_of_same e hclean hlitsA hlitsB hall
    have hplainA : A.Plain := by
      rw [List.count_eq_zero.mpr hplainB.percent, Nat.le_zero, List.count_eq_zero] at hpct
      rw [List.count_eq_zero.mpr hplainB.underscore, Nat.le_zero, List.count_eq_zero] at hund
      exact ⟨hclean, hpct, hund⟩
    subst hread
    exact (count_of_plain 0 _ (fun p hp => (isRune_of_mem hp).2) true true runeZero runeZero (fun _ => rfl)
      hplainA).2 (by simp) hle
  · intro hunused text
    rw [read_eq_of_unused 0 _ true runeZero (by simp) hunused]
    rfl

/-- **An escape character that is not in the pattern changes nothing.** -/
theorem evalSQLLike_eq_without {escape : Rune} {pattern : GoString}
    (hno : escape ∉ (runes pattern).map Prod.fst) (text : GoString) :
    evalSQLLike text pattern escape = evalWithoutEscape text pattern :=
  (escape_unused_iff pattern escape).mpr (unused_of_notMem 0 _ hno true runeZero) text

theorem evalSQLLike_eq_without_percent :
    evalSQLLike (lit "ab") (lit "a%") (lit "!") = evalWithoutEscape (lit "ab") (lit "a%") :=
  evalSQLLike_eq_without (by decide +kernel) (lit "ab")

end Zs3Server.S3Select
