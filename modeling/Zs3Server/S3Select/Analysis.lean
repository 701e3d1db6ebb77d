import Zs3Server.Lib.ByteString

/-!
# Query analysis

Before a query runs, `analyze` goes through its expressions: it initialises the accumulator of every
aggregate call, and refuses aggregates inside aggregates and aggregates next to columns.

* `Node` — the syntax tree, with the node kinds of the source built from a few forms;
* `analyze` — the properties of a tree and the calls that are initialised;
* `contents` — what is in a tree: its aggregate calls, its columns, and those analysis passes over;
* `analyze_visited` — what holds of the part that is visited;
* `analysis_sound_iff` — when the whole tree is as analysis says.
-/

namespace Zs3Server.S3Select.Analysis

open Lib.ByteString

/-- `SimpleArgFunc.FunctionName`. -/
inductive FuncName where
  | avg | max | min | sum | coalesce | nullIf | toString | toTimestamp | utcNow | charLength
  | characterLength | lower | upper
  deriving DecidableEq

def FuncName.isAggregate : FuncName → Bool
  | .avg | .max | .min | .sum => true
  | _ => false

/-- A call has an address, where its accumulator is. -/
inductive Node where
  | value
  | path (baseKey : GoString) (pathExpr : ℕ)
  | star
  -- no alternative of the node is set
  | invalid
  -- the node is analysed as its only child
  | pass (child : Node)
  -- the children are combined from left to right
  | all (children : List Node)
  | simple (name : FuncName) (address : ℕ) (argsList : List Node)
  | count (address : ℕ) (starArg : Bool) (exprArg : Option Node)
  | substringFrom (expr start : Node) (length : Option Node)
  | substringOnly (expr : Node)

/-! ## The node kinds of the source -/

namespace Node

def selectExpression (expressions : List Node) : Node := .all expressions

def aliasedExpression (expression : Node) : Node := .pass expression

def expression (and : List Node) : Node := .all and

def andCondition (condition : List Node) : Node := .all condition

/-- An operand, or `NOT` and a condition. -/
def condition (operand : Node) : Node := .pass operand

def listExpr (elements : List Node) : Node := .all elements

def conditionOperand (operand : Node) : Option Node → Node
  | none => .pass operand
  | some conditionRHS => .all [operand, conditionRHS]

def compare (operand : Node) : Node := .pass operand

def between (start stop : Node) : Node := .all [start, stop]

def inList (listExpression : Node) : Node := .all [listExpression]

def like (pattern : Node) (escapeChar : Option Node) : Node := .all (pattern :: escapeChar.toList)

def operand (left : Node) (right : List Node) : Node := .all (left :: right)

def multOp (left : Node) (right : List Node) : Node := .all (left :: right)

/-- A primary term, with a minus sign or without. -/
def unaryTerm (term : Node) : Node := .pass term

/-- A list, a sub-expression or a function call as a term. -/
def primaryTerm (term : Node) : Node := .pass term

def cast (expr : Node) : Node := .pass expr

def extract (source : Node) : Node := .pass source

def dateAdd (quantity timestamp : Node) : Node := .all [quantity, timestamp]

def dateDiff (timestamp1 timestamp2 : Node) : Node := .all [timestamp1, timestamp2]

def trim (trimChars trimFrom : Option Node) : Node := .all (trimChars.toList ++ trimFrom.toList)

/-- The form with commas. -/
def substringArgs (expr arg2 : Node) (arg3 : Option Node) : Node := .all (expr :: arg2 :: arg3.toList)

end Node

/-! ## The code -/

inductive AnalysisError where
  -- Cannot nest aggregations
  | nestedAggregation
  -- Function is not yet implemented
  | functionNotImplemented
  -- Unexpected node value
  | unexpectedInvalidNode
  -- A provided keypath is invalid
  | invalidKeypath
  -- %s takes exactly one argument
  | takesOne (name : FuncName)
  -- %s needs at least one argument
  | needsOne (name : FuncName)
  -- %s needs exactly 2 arguments
  | needsTwo (name : FuncName)
  -- Invalid argument(s) to SUBSTRING
  | invalidArguments
  -- %s() takes no arguments
  | takesNone (name : FuncName)
  -- no error but a panic, on a missing argument that the grammar requires
  | nilArgument
  deriving DecidableEq

structure QProp where
  isAggregation : Bool
  isRowFunc : Bool
  err : Option AnalysisError
  deriving DecidableEq

def QProp.none : QProp := ⟨false, false, .none⟩

def QProp.error (e : AnalysisError) : QProp := ⟨false, false, some e⟩

def QProp.combine (p q : QProp) : QProp :=
  if p.err.isSome then p
  else if q.err.isSome then { p with err := q.err }
  else
    let isAggregation := p.isAggregation || q.isAggregation
    let isRowFunc := p.isRowFunc || q.isRowFunc
    ⟨isAggregation, isRowFunc, if isAggregation && isRowFunc then some .nestedAggregation else .none⟩

/-- The property of a node, and the calls initialised on the way. -/
structure Result where
  prop : QProp
  initialised : List ℕ
  deriving DecidableEq

def Result.combine (p q : Result) : Result := ⟨p.prop.combine q.prop, p.initialised ++ q.initialised⟩

/-- `result.combine(child.analyze(s))` for each child. -/
def combineAll (results : List Result) : Result := results.foldl Result.combine ⟨QProp.none, []⟩

/-- An aggregate call with its argument. -/
def aggregate (address : ℕ) (exprA : Result) : Result :=
  ⟨if exprA.prop.err.isSome then exprA.prop
    else if exprA.prop.isAggregation then QProp.error .nestedAggregation
    else ⟨true, false, .none⟩,
    address :: exprA.initialised⟩

/-- The aggregates take one argument. -/
def analyzeAggregate (name : FuncName) (address : ℕ) : List Result → Result
  | [exprA] => aggregate address exprA
  | _ => ⟨QProp.error (.takesOne name), [address]⟩

/-- The others check the number of their arguments and combine them. -/
def analyzeArgs (wrong : Bool) (e : AnalysisError) (args : List Result) : Result :=
  if wrong then ⟨QProp.error e, []⟩ else combineAll args

/-- The functions with simple arguments. -/
def analyzeSimple (name : FuncName) (address : ℕ) (args : List Result) : Result :=
  match name with
  | .avg | .max | .min | .sum => analyzeAggregate name address args
  | .coalesce => analyzeArgs (args.length == 0) (.needsOne name) args
  | .nullIf => analyzeArgs (args.length != 2) (.needsTwo name) args
  | .charLength | .characterLength | .lower | .upper =>
    analyzeArgs (args.length != 1) (.needsTwo name) args
  | .utcNow => analyzeArgs (args.length != 0) (.takesNone name) args
  | .toString | .toTimestamp => ⟨QProp.error .functionNotImplemented, []⟩

def analyzeCount (address : ℕ) (starArg : Bool) (exprArg : Option Result) : Result :=
  if starArg then ⟨⟨true, false, .none⟩, [address]⟩
  else
    match exprArg with
    | some exprA => aggregate address exprA
    | .none => ⟨QProp.error .nilArgument, [address]⟩

/-- `strings.EqualFold` with `s3object`: of other letters, only `ſ` folds to one of these. -/
def isBaseTable : GoString → GoString → Bool
  | [], [] => true
  | 0xc5 :: 0xbf :: key, 115 :: rest => isBaseTable key rest
  | c :: key, d :: rest => (c == d || (97 ≤ d && d ≤ 122 && c + 32 == d)) && isBaseTable key rest
  | _, _ => false

def analyzePath (as : GoString) (baseKey : GoString) (pathExpr : ℕ) : Result :=
  if pathExpr > 0 ∧ baseKey ≠ as ∧ isBaseTable baseKey (lit "s3object") = false then
    ⟨QProp.error .invalidKeypath, []⟩
  else ⟨⟨false, true, .none⟩, []⟩

mutual
/-- `as` is the table's name in the `FROM` clause. -/
def analyze (as : GoString) : Node → Result
  | .value => ⟨QProp.none, []⟩
  | .path baseKey pathExpr => analyzePath as baseKey pathExpr
  | .star => ⟨⟨false, true, .none⟩, []⟩
  | .invalid => ⟨QProp.error .unexpectedInvalidNode, []⟩
  | .pass child => analyze as child
  | .all children => combineAll (analyzeList as children)
  | .simple name address argsList => analyzeSimple name address (analyzeList as argsList)
  | .count address starArg exprArg => analyzeCount address starArg (analyzeOption as exprArg)
  | .substringFrom expr start length =>
    -- for the length, it is the first operand that is analysed again
    combineAll ([analyze as expr, analyze as start] ++ if length.isSome then [analyze as expr] else [])
  | .substringOnly expr =>
    let result := combineAll [analyze as expr]
    { result with prop := { result.prop with err := some .invalidArguments } }

def analyzeList (as : GoString) : List Node → List Result
  | [] => []
  | node :: rest => analyze as node :: analyzeList as rest

def analyzeOption (as : GoString) : Option Node → Option Result
  | .none => .none
  | some node => some (analyze as node)
end

/-! ## What is in a tree -/

/-- Of a tree: its aggregate calls, those that analysis comes to and those it passes over; whether one
is inside another; and whether there are columns outside the calls, and in parts passed over. -/
structure Contents where
  calls : List ℕ
  visited : List ℕ
  omitted : List ℕ
  nested : Bool
  columns : Bool
  omittedColumns : Bool
  deriving DecidableEq

def Contents.append (c d : Contents) : Contents :=
  ⟨c.calls ++ d.calls, c.visited ++ d.visited, c.omitted ++ d.omitted, c.nested || d.nested,
    c.columns || d.columns, c.omittedColumns || d.omittedColumns⟩

def Contents.nothing : Contents := ⟨[], [], [], false, false, false⟩

def Contents.join (cs : List Contents) : Contents := cs.foldr Contents.append Contents.nothing

/-- A part that is passed over. -/
def Contents.omit (c : Contents) : Contents :=
  { c with visited := [], omitted := c.calls, omittedColumns := c.columns }

/-- Inside a call: its columns do not count, and any call is nested. -/
def Contents.within (address : ℕ) (c : Contents) : Contents :=
  ⟨address :: c.calls, address :: c.visited, c.omitted, !c.calls.isEmpty, false, false⟩

mutual
def contents : Node → Contents
  | .value | .invalid => Contents.nothing
  | .path _ _ | .star => { Contents.nothing with columns := true }
  | .pass child => contents child
  | .all children => Contents.join (contentsList children)
  | .simple name address argsList =>
    let c := Contents.join (contentsList argsList)
    if name.isAggregate then c.within address else c
  | .count address starArg exprArg =>
    let c := Contents.join (contentsOption exprArg)
    if starArg then c.omit.within address else c.within address
  | .substringFrom expr start length =>
    ((contents expr).append (contents start)).append (Contents.join (contentsOption length)).omit
  | .substringOnly expr => contents expr

def contentsList : List Node → List Contents
  | [] => []
  | node :: rest => contents node :: contentsList rest

def contentsOption : Option Node → List Contents
  | .none => []
  | some node => [contents node]
end

theorem analyzeList_eq (as : GoString) (nodes : List Node) :
    analyzeList as nodes = nodes.map (analyze as) := by
  induction nodes with
  | nil => rfl
  | cons node rest ih => rw [analyzeList, ih, List.map_cons]

theorem contentsList_eq (nodes : List Node) : contentsList nodes = nodes.map contents := by
  induction nodes with
  | nil => rfl
  | cons node rest ih => rw [contentsList, ih, List.map_cons]

/-- **Induction over a tree**, with a hypothesis for every child. -/
theorem node_induction {P : Node → Prop} (value : P .value) (path : ∀ key n, P (.path key n))
    (star : P .star) (invalid : P .invalid) (pass : ∀ child, P child → P (.pass child))
    (all : ∀ children, (∀ c ∈ children, P c) → P (.all children))
    (simple : ∀ name address args, (∀ c ∈ args, P c) → P (.simple name address args))
    (count : ∀ address starArg arg, (∀ c ∈ arg, P c) → P (.count address starArg arg))
    (substringFrom : ∀ expr start length, P expr → P start → (∀ c ∈ length, P c) →
      P (.substringFrom expr start length))
    (substringOnly : ∀ expr, P expr → P (.substringOnly expr)) (node : Node) : P node := by
  induction hn : sizeOf node using Nat.strongRecOn generalizing node with
  | _ n ih =>
    have hlist : ∀ (nodes : List Node), sizeOf nodes < n → ∀ c ∈ nodes, P c := by
      intro nodes hsize c hc
      exact ih _ (Nat.lt_trans (List.sizeOf_lt_of_mem hc) hsize) c rfl
    have hoption : ∀ (node : Option Node), sizeOf node < n → ∀ c ∈ node, P c := by
      intro node hsize c hc
      refine ih _ (Nat.lt_trans ?_ hsize) c rfl
      rw [Option.mem_def.mp hc, Option.some.sizeOf_spec]
      omega
    cases node with
    | value => exact value
    | path key m => exact path key m
    | star => exact star
    | invalid => exact invalid
    | pass child => exact pass child (ih _ (by simp [← hn]) child rfl)
    | all children => exact all children (hlist _ (by simp [← hn]))
    | simple name address args => exact simple name address args (hlist _ (by simp [← hn]))
    | count address starArg arg =>
      exact count address starArg arg (hoption _ (by simp [← hn]))
    | substringFrom expr start length =>
      exact substringFrom expr start length (ih _ (by simp [← hn]; omega) expr rfl)
        (ih _ (by simp [← hn]; omega) start rfl) (hoption _ (by simp [← hn]))
    | substringOnly expr => exact substringOnly expr (ih _ (by simp [← hn]) expr rfl)

theorem join_option (o : Option Node) :
    Contents.join (contentsOption o) = Contents.join (o.toList.map contents) := by
  cases o <;> rfl

@[simp] theorem append_nothing (c : Contents) : c.append Contents.nothing = c := by
  simp [Contents.append, Contents.nothing]

@[simp] theorem nothing_append (c : Contents) : Contents.nothing.append c = c := by
  simp [Contents.append, Contents.nothing]

theorem append_assoc (c d e : Contents) : (c.append d).append e = c.append (d.append e) := by
  simp [Contents.append, List.append_assoc, Bool.or_assoc]

/-! ### Visited and omitted -/

/-- Every call is visited or omitted, and where there is none, none is nested. -/
structure Contents.Split (c : Contents) : Prop where
  perm : c.calls.Perm (c.visited ++ c.omitted)
  flat : c.calls = [] → c.nested = false

theorem Contents.Split.append {c d : Contents} (hc : c.Split) (hd : d.Split) : (c.append d).Split := by
  refine ⟨(hc.perm.append hd.perm).trans ?_, ?_⟩
  · show (c.visited ++ c.omitted ++ (d.visited ++ d.omitted)).Perm
      (c.visited ++ d.visited ++ (c.omitted ++ d.omitted))
    rw [List.append_assoc, List.append_assoc]
    refine List.Perm.append_left _ ?_
    rw [← List.append_assoc, ← List.append_assoc]
    exact List.Perm.append_right _ List.perm_append_comm
  · intro h
    obtain ⟨h1, h2⟩ := List.append_eq_nil_iff.mp h
    show (c.nested || d.nested) = false
    rw [hc.flat h1, hd.flat h2]
    rfl

theorem split_nothing : Contents.nothing.Split := ⟨List.Perm.refl _, fun _ => rfl⟩

theorem split_join {nodes : List Node} (h : ∀ n ∈ nodes, (contents n).Split) :
    (Contents.join (nodes.map contents)).Split := by
  induction nodes with
  | nil => exact split_nothing
  | cons n rest ih =>
    exact (h n List.mem_cons_self).append (ih fun m hm => h m (List.mem_cons_of_mem _ hm))

theorem Contents.Split.omit {c : Contents} (hc : c.Split) : c.omit.Split := ⟨List.Perm.refl _, hc.flat⟩

theorem Contents.Split.within {c : Contents} (hc : c.Split) (address : ℕ) :
    (c.within address).Split :=
  ⟨hc.perm.cons address, fun h => absurd h (List.cons_ne_nil _ _)⟩

theorem contents_split (node : Node) : (contents node).Split := by
  have hoption : ∀ o : Option Node, (∀ c ∈ o, (contents c).Split) →
      (Contents.join (contentsOption o)).Split := by
    intro o ho
    rw [join_option]
    exact split_join fun n hn => ho n (Option.mem_toList.mp hn)
  induction node using node_induction with
  | value => exact split_nothing
  | path key n => exact ⟨List.Perm.refl _, fun _ => rfl⟩
  | star => exact ⟨List.Perm.refl _, fun _ => rfl⟩
  | invalid => exact split_nothing
  | pass child ih => exact ih
  | all children ih =>
    rw [contents, contentsList_eq]
    exact split_join ih
  | simple name address args ih =>
    rw [contents, contentsList_eq]
    split
    · exact (split_join ih).within address
    · exact split_join ih
  | count address starArg arg ih =>
    rw [contents]
    split
    · exact (hoption arg ih).omit.within address
    · exact (hoption arg ih).within address
  | substringFrom expr start length ihe ihs ihl =>
    exact (ihe.append ihs).append (hoption length ihl).omit
  | substringOnly expr ih => exact ih

/-! ### The part that is visited -/

/-- The result says of the visited part what is in it. -/
structure Fits (r : Result) (c : Contents) : Prop where
  aggregation : r.prop.isAggregation = true ↔ r.initialised ≠ []
  initialised : ∀ x, x ∈ r.initialised ↔ x ∈ c.visited
  columns : c.columns = (r.prop.isRowFunc || c.omittedColumns)
  apart : r.prop.isAggregation = true → r.prop.isRowFunc = false
  flat : c.omitted = [] → c.nested = false

theorem combine_ok {p q : QProp} (h : (p.combine q).err = none) :
    p.err = none ∧ q.err = none ∧
      p.combine q = ⟨p.isAggregation || q.isAggregation, p.isRowFunc || q.isRowFunc, none⟩ ∧
        ((p.isAggregation || q.isAggregation) = true → (p.isRowFunc || q.isRowFunc) = false) := by
  unfold QProp.combine at h ⊢
  split at h
  · next hp => simp [h] at hp
  · next hp =>
    split at h
    · next hq =>
      dsimp only at h
      simp [h] at hq
    · next hq =>
      dsimp only at h
      rw [if_neg hp, if_neg hq]
      split at h
      · cases h
      · next hboth =>
        simp only [Option.not_isSome_iff_eq_none] at hp hq
        refine ⟨hp, hq, by simp only [if_neg hboth], fun hagg => ?_⟩
        rw [hagg, Bool.true_and, Bool.not_eq_true] at hboth
        exact hboth

theorem fits_none : Fits ⟨QProp.none, []⟩ Contents.nothing :=
  ⟨by simp [QProp.none], by simp [Contents.nothing], rfl, fun _ => rfl, fun _ => rfl⟩

theorem fits_combine {r r' : Result} {c c' : Contents} (h : Fits r c)
    (h' : r'.prop.err = none → Fits r' c') (hok : (r.combine r').prop.err = none) :
    Fits (r.combine r') (c.append c') := by
  obtain ⟨-, hq, heq, hapart⟩ := combine_ok hok
  have h' := h' hq
  have hprop : (r.combine r').prop = ⟨_, _, none⟩ := heq
  refine ⟨?_, ?_, ?_, ?_, ?_⟩
  · rw [hprop]
    show _ ↔ r.initialised ++ r'.initialised ≠ []
    rw [Bool.or_eq_true, h.aggregation, h'.aggregation, ne_eq, ne_eq, ne_eq, List.append_eq_nil_iff]
    tauto
  · intro x
    show x ∈ r.initialised ++ r'.initialised ↔ x ∈ c.visited ++ c'.visited
    rw [List.mem_append, List.mem_append, h.initialised, h'.initialised]
  · rw [hprop]
    show (c.columns || c'.columns) = _
    rw [h.columns, h'.columns]
    show _ = (r.prop.isRowFunc || r'.prop.isRowFunc || (c.omittedColumns || c'.omittedColumns))
    cases r.prop.isRowFunc <;> cases r'.prop.isRowFunc <;> simp
  · rw [hprop]
    exact hapart
  · intro homit
    obtain ⟨h1, h2⟩ := List.append_eq_nil_iff.mp homit
    show (c.nested || c'.nested) = false
    rw [h.flat h1, h'.flat h2]
    rfl

theorem foldl_ok {results : List Result} {r : Result}
    (h : (results.foldl Result.combine r).prop.err = none) : r.prop.err = none := by
  induction results generalizing r with
  | nil => exact h
  | cons q rest ih => exact (combine_ok (ih h)).1

/-- **The loop over the children.** -/
theorem fits_foldl {as : GoString} {nodes : List Node}
    (hnodes : ∀ n ∈ nodes, (analyze as n).prop.err = none → Fits (analyze as n) (contents n))
    {r : Result} {c : Contents} (h : Fits r c)
    (hok : ((nodes.map (analyze as)).foldl Result.combine r).prop.err = none) :
    Fits ((nodes.map (analyze as)).foldl Result.combine r)
      (c.append (Contents.join (nodes.map contents))) := by
  induction nodes generalizing r c with
  | nil =>
    show Fits r (c.append Contents.nothing)
    rwa [append_nothing]
  | cons n rest ih =>
    have hround := fits_combine h (hnodes n List.mem_cons_self) (foldl_ok hok)
    have hrest := ih (fun m hm => hnodes m (List.mem_cons_of_mem _ hm)) hround hok
    rw [append_assoc] at hrest
    exact hrest

theorem fits_combineAll {as : GoString} {nodes : List Node}
    (hnodes : ∀ n ∈ nodes, (analyze as n).prop.err = none → Fits (analyze as n) (contents n))
    (hok : (combineAll (nodes.map (analyze as))).prop.err = none) :
    Fits (combineAll (nodes.map (analyze as))) (Contents.join (nodes.map contents)) := by
  have h := fits_foldl hnodes fits_none hok
  rwa [nothing_append] at h

/-- An aggregate call initialises itself and nothing inside it. -/
theorem fits_aggregate {r : Result} {c : Contents} (h : r.prop.err = none → Fits r c) (hc : c.Split)
    {address : ℕ} (hok : (aggregate address r).prop.err = none) :
    Fits (aggregate address r) (c.within address) := by
  unfold aggregate at hok ⊢
  dsimp only at hok ⊢
  split at hok
  · next herr => simp [hok] at herr
  · next herr =>
    split at hok
    · cases hok
    · next hagg =>
      have h := h (by simpa using herr)
      have hempty : r.initialised = [] := by
        by_contra hne
        exact hagg (h.aggregation.mpr hne)
      rw [if_neg herr, if_neg hagg, hempty]
      have hvisited : c.visited = [] := by
        rw [List.eq_nil_iff_forall_not_mem]
        intro x hx
        rw [← h.initialised, hempty] at hx
        cases hx
      refine ⟨by simp, ?_, rfl, fun _ => rfl, ?_⟩
      · intro x
        simp [Contents.within, hvisited]
      · intro homit
        have hcalls := hc.perm
        rw [hvisited, show c.omitted = [] from homit] at hcalls
        show (!c.calls.isEmpty) = false
        rw [List.Perm.eq_nil hcalls]
        rfl

theorem analyzeAggregate_ok {name : FuncName} {address : ℕ} {args : List Result}
    (h : (analyzeAggregate name address args).prop.err = none) :
    ∃ r, args = [r] ∧ analyzeAggregate name address args = aggregate address r := by
  cases args with
  | nil => cases h
  | cons r rest =>
    cases rest with
    | nil => exact ⟨r, rfl, rfl⟩
    | cons _ _ => cases h

theorem analyzeArgs_ok {wrong : Bool} {e : AnalysisError} {args : List Result}
    (h : (analyzeArgs wrong e args).prop.err = none) : analyzeArgs wrong e args = combineAll args := by
  cases wrong with
  | true => cases h
  | false => rfl

/-- A simple function without an error is an aggregate of one argument or combines its arguments. -/
theorem analyzeSimple_ok {name : FuncName} {address : ℕ} {args : List Result}
    (h : (analyzeSimple name address args).prop.err = none) :
    (name.isAggregate = true ∧ ∃ r, args = [r] ∧ analyzeSimple name address args = aggregate address r) ∨
      (name.isAggregate = false ∧ analyzeSimple name address args = combineAll args) := by
  cases name with
  | avg | max | min | sum => exact .inl ⟨rfl, analyzeAggregate_ok h⟩
  | toString | toTimestamp => cases h
  | _ => exact .inr ⟨rfl, analyzeArgs_ok h⟩

theorem fits_omitted {r : Result} {c d : Contents} (h : Fits r c) (hd : d.Split) :
    Fits r (c.append d.omit) := by
  refine ⟨h.aggregation, ?_, ?_, h.apart, ?_⟩
  · intro x
    show _ ↔ x ∈ c.visited ++ []
    rw [List.append_nil, h.initialised]
  · show (c.columns || d.columns) = (r.prop.isRowFunc || (c.omittedColumns || d.columns))
    rw [h.columns, Bool.or_assoc]
  · intro homit
    obtain ⟨h1, h2⟩ := List.append_eq_nil_iff.mp homit
    show (c.nested || d.nested) = false
    rw [h.flat h1, hd.flat h2]
    rfl

/-- To combine with an operand once more changes nothing. -/
theorem fits_again {q r : Result} {c : Contents} (h : Fits r c)
    (hagg : q.prop.isAggregation = true → r.prop.isAggregation = true)
    (hrow : q.prop.isRowFunc = true → r.prop.isRowFunc = true)
    (hinit : ∀ x ∈ q.initialised, x ∈ r.initialised) (hok : (r.combine q).prop.err = none) :
    Fits (r.combine q) c := by
  obtain ⟨-, -, heq, -⟩ := combine_ok hok
  have hprop : (r.combine q).prop = ⟨r.prop.isAggregation, r.prop.isRowFunc, none⟩ := by
    show r.prop.combine q.prop = _
    rw [heq, Bool.or_eq_left_iff_imp.mpr hagg, Bool.or_eq_left_iff_imp.mpr hrow]
  have hmem : ∀ x, x ∈ (r.combine q).initialised ↔ x ∈ r.initialised := by
    intro x
    show x ∈ r.initialised ++ q.initialised ↔ _
    rw [List.mem_append]
    exact or_iff_left_of_imp (hinit x)
  refine ⟨?_, fun x => (hmem x).trans (h.initialised x), ?_, ?_, h.flat⟩
  · rw [hprop, h.aggregation]
    simp only [ne_eq, List.eq_nil_iff_forall_not_mem, hmem]
  · rw [hprop]
    exact h.columns
  · rw [hprop]
    exact h.apart

/-- Combined operands are part of the whole. -/
theorem left_of_combine {p q : Result} (hok : (p.combine q).prop.err = none) :
    (p.prop.isAggregation = true → (p.combine q).prop.isAggregation = true) ∧
      (p.prop.isRowFunc = true → (p.combine q).prop.isRowFunc = true) ∧
        ∀ x ∈ p.initialised, x ∈ (p.combine q).initialised := by
  obtain ⟨-, -, heq, -⟩ := combine_ok hok
  have hprop : (p.combine q).prop = _ := heq
  rw [hprop]
  refine ⟨fun h => ?_, fun h => ?_, fun x hx => List.mem_append_left _ hx⟩
  · rw [h]
    rfl
  · rw [h]
    rfl

theorem none_combine {p : Result} (hok : ((⟨QProp.none, []⟩ : Result).combine p).prop.err = none) :
    (⟨QProp.none, []⟩ : Result).combine p = p := by
  obtain ⟨-, herr, heq, -⟩ := combine_ok hok
  obtain ⟨⟨agg, row, err⟩, init⟩ := p
  obtain rfl : err = none := herr
  exact congrArg (fun prop => (⟨prop, init⟩ : Result)) heq

/-- **The visited part**: an analysis without an error says of it what is in it. -/
theorem analyze_visited (as : GoString) (node : Node) (hok : (analyze as node).prop.err = none) :
    Fits (analyze as node) (contents node) := by
  induction node using node_induction with
  | value => exact fits_none
  | path key n =>
    rw [analyze, analyzePath] at hok ⊢
    split at hok
    · cases hok
    · next hvalid =>
      rw [if_neg hvalid]
      exact ⟨by simp, by simp [contents, Contents.nothing], rfl, by simp, fun _ => rfl⟩
  | star => exact ⟨by simp [analyze], by simp [analyze, contents, Contents.nothing], rfl,
      by simp [analyze], fun _ => rfl⟩
  | invalid => cases hok
  | pass child ih => exact ih hok
  | all children ih =>
    rw [analyze, analyzeList_eq] at hok ⊢
    rw [contents, contentsList_eq]
    exact fits_combineAll ih hok
  | simple name address args ih =>
    rw [analyze, analyzeList_eq] at hok ⊢
    rw [contents, contentsList_eq]
    rcases analyzeSimple_ok hok with hagg | hargs
    · obtain ⟨hname, r, hr, heq⟩ := hagg
      obtain ⟨n, rfl, rfl⟩ := List.map_eq_singleton_iff.mp hr
      rw [heq] at hok ⊢
      rw [if_pos hname]
      show Fits _ (((contents n).append Contents.nothing).within address)
      rw [append_nothing]
      exact fits_aggregate (ih n List.mem_cons_self) (contents_split n) hok
    · obtain ⟨hname, heq⟩ := hargs
      rw [heq] at hok ⊢
      rw [if_neg (by simp [hname])]
      exact fits_combineAll ih hok
  | count address starArg arg ih =>
    cases starArg with
    | true =>
      rw [analyze, contents]
      refine ⟨by simp [analyzeCount], by simp [analyzeCount, Contents.within, Contents.omit], rfl,
        fun _ => rfl, ?_⟩
      intro homit
      show (!(Contents.join (contentsOption arg)).calls.isEmpty) = false
      rw [show (Contents.join (contentsOption arg)).calls = [] from homit]
      rfl
    | false =>
      cases arg with
      | none => cases hok
      | some n =>
        show Fits _ (((contents n).append Contents.nothing).within address)
        rw [append_nothing]
        exact fits_aggregate (ih n rfl) (contents_split n) hok
  | substringFrom expr start length ihe ihs ihl =>
    have hlength : (Contents.join (contentsOption length)).Split := by
      rw [join_option]
      exact split_join fun n _ => contents_split n
    have htwo : (combineAll [analyze as expr, analyze as start]).prop.err = none →
        Fits (combineAll [analyze as expr, analyze as start])
          ((contents expr).append (contents start)) := by
      intro h
      have hfits : Fits (combineAll ([expr, start].map (analyze as)))
          (Contents.join ([expr, start].map contents)) := fits_combineAll (by simpa using ⟨ihe, ihs⟩) h
      have hjoin : Contents.join ([expr, start].map contents) =
          (contents expr).append (contents start) :=
        congrArg (contents expr).append (append_nothing _)
      rwa [hjoin] at hfits
    rw [analyze] at hok ⊢
    rw [contents]
    refine fits_omitted ?_ hlength
    cases length with
    | none => exact htwo hok
    | some n =>
      -- the first operand is combined a second time, in place of the length
      have hagain : ((combineAll [analyze as expr, analyze as start]).combine
          (analyze as expr)).prop.err = none := hok
      have hfirst : (((⟨QProp.none, []⟩ : Result).combine (analyze as expr)).combine
          (analyze as start)).prop.err = none := (combine_ok hagain).1
      have hexpr := none_combine (combine_ok hfirst).1
      obtain ⟨hagg, hrow, hinit⟩ := left_of_combine hfirst
      refine fits_again (htwo hfirst) (fun h => hagg ?_) (fun h => hrow ?_)
        (fun x hx => hinit x ?_) hagain
      · rwa [hexpr]
      · rwa [hexpr]
      · rwa [hexpr]
  | substringOnly expr ih => cases hok

/-! ## Soundness -/

/-- **When analysis is sound.**  For a tree analysed without an error: every aggregate call is
initialised, none is inside another, the result says whether there is one, and then no column is
outside of them — exactly when the parts that are passed over have no calls, and next to a call no
columns. -/
theorem analysis_sound_iff (as : GoString) (node : Node) (hdistinct : (contents node).calls.Nodup)
    (hok : (analyze as node).prop.err = none) :
    ((∀ x ∈ (contents node).calls, x ∈ (analyze as node).initialised) ∧
      (contents node).nested = false ∧
      ((analyze as node).prop.isAggregation = true ↔ (contents node).calls ≠ []) ∧
      ((analyze as node).prop.isAggregation = true → (contents node).columns = false)) ↔
      (contents node).omitted = [] ∧
        ((contents node).calls ≠ [] → (contents node).omittedColumns = false) := by
  have hfits := analyze_visited as node hok
  have hperm := (contents_split node).perm
  constructor
  · intro h
    obtain ⟨hinit, -, hagg, hcols⟩ := h
    refine ⟨?_, fun hne => ?_⟩
    · -- an omitted call would have to be one of the visited ones too
      rw [List.eq_nil_iff_forall_not_mem]
      intro x hx
      have hin : x ∈ (contents node).calls := hperm.mem_iff.mpr (List.mem_append_right _ hx)
      have hvisited := (hfits.initialised x).mp (hinit x hin)
      have hdisjoint := (List.nodup_append'.mp (hperm.nodup_iff.mp hdistinct)).2.2
      exact hdisjoint hvisited hx
    · have hnone := hcols (hagg.mpr hne)
      rw [hfits.columns, Bool.or_eq_false_iff] at hnone
      exact hnone.2
  · intro h
    obtain ⟨homit, hcols⟩ := h
    rw [homit, List.append_nil] at hperm
    have hmem : ∀ x, x ∈ (contents node).calls ↔ x ∈ (analyze as node).initialised := fun x =>
      hperm.mem_iff.trans (hfits.initialised x).symm
    have hagg : (analyze as node).prop.isAggregation = true ↔ (contents node).calls ≠ [] := by
      rw [hfits.aggregation]
      simp only [ne_eq, List.eq_nil_iff_forall_not_mem, hmem]
    refine ⟨fun x hx => (hmem x).mp hx, hfits.flat homit, hagg, fun hisAgg => ?_⟩
    rw [hfits.columns, hfits.apart hisAgg, hcols (hagg.mp hisAgg)]
    rfl

/-- An item of one term. -/
def Node.item (term : Node) : Node :=
  .aliasedExpression (.expression [.andCondition [.condition (.conditionOperand
    (.operand (.multOp (.unaryTerm (.primaryTerm term)) []) []) none)]])

/-- An expression of one term. -/
def Node.single (term : Node) : Node := .selectExpression [.item term]

/-- `SELECT SUBSTRING(CAST(SUM(s.a) AS STRING) FROM 1 FOR 2), COUNT(*), MAX(s.b)`. -/
def totals : Node :=
  .selectExpression [.item (.substringFrom (.cast (.simple .sum 0 [.path (lit "s") 1])) .value (some .value)),
    .item (.count 1 true none), .item (.simple .max 2 [.path (lit "s") 1])]

theorem analysis_sound_totals :
    (analyze (lit "s") totals).prop.err = none ∧ (contents totals).calls = [0, 1, 2] ∧
      (contents totals).omitted = [] ∧ (contents totals).omittedColumns = false ∧
      ∀ x ∈ (contents totals).calls, x ∈ (analyze (lit "s") totals).initialised := by
  have hok : (analyze (lit "s") totals).prop.err = none := by decide +kernel
  have hnone : (contents totals).omitted = [] ∧ (contents totals).omittedColumns = false := by decide +kernel
  exact ⟨hok, by decide +kernel, hnone.1, hnone.2,
    ((analysis_sound_iff (lit "s") totals (by decide +kernel) hok).mpr ⟨hnone.1, fun _ => hnone.2⟩).1⟩

/-- `SELECT SUBSTRING('a' FROM 1 FOR COUNT(*))`: no error, no aggregation, and a call without an
accumulator. -/
theorem substring_length_not_analysed :
    (analyze [] (.single (.substringFrom .value .value (some (.count 0 true none))))) =
        ⟨QProp.none, []⟩ ∧
      (contents (.single (.substringFrom .value .value (some (.count 0 true none))))).calls = [0] := by
  decide +kernel

end Zs3Server.S3Select.Analysis
