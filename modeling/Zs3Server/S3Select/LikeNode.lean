import Zs3Server.S3Select.LikePattern

/-!
# The `LIKE` node

`text LIKE pattern ESCAPE c` evaluates its three parts, makes strings of them and calls
`evalSQLLike`.  The escape character is checked and then not passed on: the matcher always gets U+0000.

* `evalLikeNode_eq` — what the node computes;
* `like_applies_escape_iff` — for which patterns and escape characters that is what the query asks for.
-/

namespace Zs3Server.S3Select

open Lib.ByteString Lib.GoUtf8

/-! ## The node -/

/-- A float is an integer here: no number is looked into. -/
inductive Value where
  | null
  | bool (b : Bool)
  | int (i : ℤ)
  | float (f : ℤ)
  | string (s : GoString)
  | bytes (b : GoString)
  | timestamp (t : ℤ)
  | array (elems : List Value)

/-- The parts, as functions of the record. -/
structure Like (ρ : Type) where
  not : Bool
  pattern : ρ → Except SqlError Value
  escapeChar : Option (ρ → Except SqlError Value)

/-- `inferTypeAsString` and `ToString`. -/
def asString : Value → Option GoString
  | .bytes b => some b
  | .string s => some s
  | _ => none

def toStringArg (v : Value) : Except SqlError GoString :=
  match asString v with
  | none => .error .likeNonStrArg
  | some s => .ok s

/-- The part for `ESCAPE`; nothing is made of the character. -/
def checkEscape {ρ : Type} (e : Like ρ) (r : ρ) : Except SqlError Unit :=
  match e.escapeChar with
  | none => .ok ()
  | some escapeChar => do
    let escapeStr ← toStringArg (← escapeChar r)
    if (runes escapeStr).length > 1 then .error .likeInvalidEscape else .ok ()

def evalLikeNode {ρ : Type} (e : Like ρ) (r : ρ) (arg : Value) : Except SqlError Value := do
  let s ← toStringArg arg
  let patternStr ← toStringArg (← e.pattern r)
  let escape := runeZero
  checkEscape e r
  let matchResult ← evalSQLLike s patternStr escape
  return .bool (if e.not then !matchResult else matchResult)

/-- The value of a match, or of none with `NOT`. -/
def result (not matched : Bool) : Value := .bool (if not then !matched else matched)

/-- **What the node computes** once its parts are strings and the escape string is short enough. -/
theorem evalLikeNode_eq {ρ : Type} {e : Like ρ} {r : ρ} {arg pv : Value} {text pat : GoString}
    (htext : asString arg = some text) (hpattern : e.pattern r = .ok pv)
    (hpat : asString pv = some pat) (hescape : checkEscape e r = .ok ()) :
    evalLikeNode e r arg = (evalSQLLike text pat runeZero).map (result e.not) := by
  have harg : toStringArg arg = .ok text := by simp [toStringArg, htext]
  have hpv : toStringArg pv = .ok pat := by simp [toStringArg, hpat]
  simp only [evalLikeNode, harg, hpattern, hpv, hescape, bind, Except.bind]
  cases evalSQLLike text pat runeZero with
  | error err => rfl
  | ok b => rfl

theorem map_result_inj {not : Bool} {x y : Except SqlError Bool} :
    x.map (result not) = y.map (result not) ↔ x = y := by
  constructor
  · intro h
    cases x with
    | error e =>
      cases y with
      | error e' => simpa [Except.map] using h
      | ok b => simp [Except.map] at h
    | ok a =>
      cases y with
      | error e => simp [Except.map] at h
      | ok b => cases not <;> simpa [Except.map, result] using h
  · intro h
    rw [h]

/-- **When the node applies the escape character.**  With `ESCAPE c` and without it, with `NOT` and
without it, the answer is the one asked for, for every text, exactly when the pattern uses neither U+0000 nor
the escape character. -/
theorem like_applies_escape_iff {ρ : Type} (r : ρ) (pv ev : Value)
    (pattern escapeChar : ρ → Except SqlError Value) (pat esc : GoString) (c : Rune)
    (hpattern : pattern r = .ok pv) (hpat : asString pv = some pat) (hescape : escapeChar r = .ok ev)
    (hesc : asString ev = some esc) (hc : (runes esc).map Prod.fst = [c]) :
    (∀ arg text, asString arg = some text →
      (∀ not, evalLikeNode ⟨not, pattern, some escapeChar⟩ r arg =
        (evalSQLLike text pat c).map (result not)) ∧
      ∀ not, evalLikeNode ⟨not, pattern, none⟩ r arg =
        (evalWithoutEscape text pat).map (result not)) ↔
      (reading pat).Unused runeZero ∧ (reading pat).Unused c := by
  have hlen : (runes esc).length = 1 := by rw [← List.length_map (f := Prod.fst), hc]; rfl
  have hcheck : ∀ not, checkEscape ⟨not, pattern, some escapeChar⟩ r = .ok () := by
    intro not
    simp [checkEscape, hescape, toStringArg, hesc, hlen, bind, Except.bind]
  have hnode : ∀ arg text, asString arg = some text →
      (((∀ not, evalLikeNode ⟨not, pattern, some escapeChar⟩ r arg =
          (evalSQLLike text pat c).map (result not)) ∧
        ∀ not, evalLikeNode ⟨not, pattern, none⟩ r arg =
          (evalWithoutEscape text pat).map (result not)) ↔
        evalSQLLike text pat runeZero = evalSQLLike text pat c ∧
          evalSQLLike text pat runeZero = evalWithoutEscape text pat) := by
    intro arg text htext
    have hwith : ∀ not, evalLikeNode ⟨not, pattern, some escapeChar⟩ r arg =
        (evalSQLLike text pat runeZero).map (result not) := fun not =>
      evalLikeNode_eq htext hpattern hpat (hcheck not)
    have hwithout : ∀ not, evalLikeNode ⟨not, pattern, none⟩ r arg =
        (evalSQLLike text pat runeZero).map (result not) := fun not =>
      evalLikeNode_eq htext hpattern hpat rfl
    simp only [hwith, hwithout, map_result_inj, forall_const]
  rw [← escape_unused_iff, ← escape_unused_iff]
  constructor
  · intro h
    have hsame := fun text => (hnode (.string text) text rfl).mp (h (.string text) text rfl)
    exact ⟨fun text => (hsame text).2, fun text => (hsame text).1.symm.trans (hsame text).2⟩
  · rintro ⟨hzero, hc⟩ arg text htext
    exact (hnode arg text htext).mpr ⟨(hzero text).trans (hc text).symm, hzero text⟩

/-- A pattern that uses neither the escape character nor U+0000. -/
theorem like_applies_unused_escape :
    (reading (lit "a_")).Unused runeZero ∧ (reading (lit "a_")).Unused (lit "!") ∧
    evalLikeNode (⟨true, fun _ => .ok (.string (lit "a_")), some fun _ => .ok (.string (lit "!"))⟩ :
        Like Unit) () (.bytes (lit "ab")) =
      (evalSQLLike (lit "ab") (lit "a_") (lit "!")).map (result true) := by
  have hruns : runes (lit "a_") = [(lit "a", 1), (underscore, 1)] := by decide +kernel
  have hread : reading (lit "a_") = .lit (lit "a") (.one .done) := by
    rw [reading, hruns]
    rfl
  have hunused : (reading (lit "a_")).Unused runeZero ∧ (reading (lit "a_")).Unused (lit "!") := by
    rw [hread]
    simp only [Reading.Unused]
    decide
  exact ⟨hunused.1, hunused.2, ((like_applies_escape_iff () (.string (lit "a_")) (.string (lit "!"))
    (fun _ => .ok (.string (lit "a_"))) (fun _ => .ok (.string (lit "!"))) (lit "a_")
    (lit "!") (lit "!") rfl rfl rfl rfl (by decide +kernel)).mpr hunused (.bytes (lit "ab")) (lit "ab") rfl).1 true⟩

/-- `'%' LIKE '!%' ESCAPE '!'` is true, and the node says that it is not; and without `ESCAPE` a
U+0000 in the pattern is taken for one. -/
theorem like_ignores_escape :
    evalLikeNode (⟨false, fun _ => .ok (.string (lit "!%")), some fun _ => .ok (.string (lit "!"))⟩ :
        Like Unit) () (.string (lit "%")) = .ok (.bool false) ∧
      evalSQLLike (lit "%") (lit "!%") (lit "!") = .ok true ∧
      evalLikeNode (⟨false, fun _ => .ok (.string [0]), none⟩ : Like Unit) () (.string [0]) =
        .error .malformedEscapeSequence ∧ evalWithoutEscape [0] [0] = .ok true := by
  have hfalse : evalSQLLike (lit "%") (lit "!%") runeZero = .ok false := by decide +kernel
  have hzero : evalSQLLike [0] [0] runeZero = .error .malformedEscapeSequence := by decide +kernel
  have hshort : (runes (lit "!")).length = 1 := by decide +kernel
  refine ⟨?_, by decide +kernel, ?_, by decide +kernel⟩
  · rw [evalLikeNode_eq rfl rfl rfl, hfalse]
    · rfl
    · simp [checkEscape, toStringArg, asString, hshort, bind, Except.bind]
  · rw [evalLikeNode_eq rfl rfl rfl rfl, hzero]
    rfl

end Zs3Server.S3Select
