import Zs3Server.Lifecycle.ComputeAction

/-!
# The expiry that is advertised

`PredictExpiryTime` gives the rule and the time for the `x-amz-expiration` header: the earliest expiry of
the rules that apply.  `ComputeAction` deletes an object when one of them is due.  The two agree on the
time; but a rule may have no ID, since the one that its validation makes is not kept, and such a rule
deletes objects without being advertised.

* `predictExpiryTime` — the search for the earliest expiry;
* `expiry`, `computeAction_delete_iff` — the expiry of a rule, and when the latest version is deleted;
* `Earliest`, `predictLoop_picked` — the rule that the search ends with;
* `advertised_iff` — when the advertised expiry and the action agree;
* `deletes_unadvertised` — a rule without an ID.
-/

namespace Zs3Server.Lifecycle

open Lib.ByteString
open Lib.GoTime (zeroTime second)

/-! ### The search -/

/-- A time that is found for a rule, with the rule ID and the time so far; the zero time is none. -/
def sooner (rule : Rule) (t : ℤ) (final : GoString × ℤ) : GoString × ℤ :=
  if final.2 = zeroTime ∨ t < final.2 then (rule.id, t) else final

/-- The date and the days of a rule. -/
def predictRound (obj : ObjectOpts) (final : GoString × ℤ) (rule : Rule) : GoString × ℤ :=
  let dated := if !rule.expiration.isDateNull then sooner rule rule.expiration.date final else final
  if !rule.expiration.isDaysNull then
    sooner rule (expectedExpiryTime obj.modTime rule.expiration.days) dated
  else dated

def predictLoop (obj : ObjectOpts) : GoString × ℤ → List Rule → GoString × ℤ
  | final, [] => final
  | final, rule :: rules =>
    if !obj.isLatest && 0 < rule.noncurrentVersionExpiration.newerNoncurrentVersions then
      predictLoop obj final rules
    else if !rule.noncurrentVersionExpiration.isDaysNull && !obj.isLatest && obj.versionID ≠ [] then
      (rule.id, expectedExpiryTime obj.successorModTime rule.noncurrentVersionExpiration.noncurrentDays)
    else predictLoop obj (predictRound obj final rule) rules

def predictExpiryTime (lc : LifecycleConfiguration) (obj : ObjectOpts) : GoString × ℤ :=
  if obj.deleteMarker then ([], zeroTime)
  else predictLoop obj ([], zeroTime) (filterActionableRules lc obj)

/-! ### The expiry of a rule -/

/-- The time at which a rule expires the latest version. -/
def expiry (obj : ObjectOpts) (rule : Rule) : Option ℤ :=
  if !rule.expiration.isDateNull then some rule.expiration.date
  else if !rule.expiration.isDaysNull then some (expectedExpiryTime obj.modTime rule.expiration.days)
  else none

section Latest

variable {obj : ObjectOpts} {now : ℤ} (hlatest : obj.isLatest = true) (hmarker : obj.deleteMarker = false)
include hlatest hmarker

theorem stopAction_latest (rule : Rule) :
    stopAction obj now rule = if (expiry obj rule).any (· < now) then some .delete else none := by
  have hexpired : obj.expiredObjectDeleteMarker = false := by
    unfold ObjectOpts.expiredObjectDeleteMarker
    rw [hmarker]
    rfl
  have hskipped : skipped obj rule = false := by
    unfold skipped
    rw [hlatest]
    simp
  have hnoncurrent : obj.noncurrent = false := by
    unfold ObjectOpts.noncurrent
    rw [hlatest]
    simp
  have hcurrent : obj.current = true := by
    unfold ObjectOpts.current
    rw [hlatest, hmarker]
    simp
  unfold stopAction expiry
  simp only [hexpired, hskipped, hnoncurrent, hcurrent, Bool.false_and, Bool.and_false, Bool.false_eq_true,
    if_false, if_true]
  cases rule.expiration.isDateNull with
  | false => simp
  | true =>
    cases rule.expiration.isDaysNull with
    | false => simp
    | true => simp

/-- **When the latest version is deleted**: some rule that applies is due. -/
theorem computeAction_delete_iff (hmod : obj.modTime ≠ zeroTime) (lc : LifecycleConfiguration) :
    computeAction lc obj now = .delete ↔
      ∃ rule ∈ filterActionableRules lc obj, ∃ t, expiry obj rule = some t ∧ t < now := by
  have hstop : ∀ rule a, stopAction obj now rule = some a →
      a = .delete ∧ ∃ t, expiry obj rule = some t ∧ t < now := by
    intro rule a ha
    rw [stopAction_latest hlatest hmarker] at ha
    split at ha
    · next hany =>
      rw [Option.any_eq_true] at hany
      obtain ⟨t, ht, hlt⟩ := hany
      exact ⟨(Option.some.inj ha).symm, t, ht, of_decide_eq_true hlt⟩
    · cases ha
  unfold computeAction
  rw [if_neg hmod]
  constructor
  · intro hdelete
    rcases computeLoop_cases (filterActionableRules lc obj) .none with
      ⟨pre, r, post, a, hrules, -, ha, -⟩ | ⟨-, hfold⟩
    · refine ⟨r, ?_, (hstop r a ha).2⟩
      rw [hrules]
      exact List.mem_append_right pre List.mem_cons_self
    · -- without a rule that is due no action is remembered but a transition
      rw [hfold] at hdelete
      rcases remembered_foldl (filterActionableRules lc obj) (fun _ h => h) (Or.inl (Or.inl rfl)) with
        hquiet | ⟨htrans, -⟩
      · rw [hdelete] at hquiet
        rcases hquiet with h | h | h <;> cases h
      · rw [hdelete] at htrans
        cases htrans
  · intro hex
    obtain ⟨rule, hrule, t, ht, hlt⟩ := hex
    rcases computeLoop_cases (filterActionableRules lc obj) .none with
      ⟨pre, r, post, a, -, -, ha, hres⟩ | ⟨hnone, -⟩
    · rw [hres]
      exact (hstop r a ha).1
    · have hstopped := hnone rule hrule
      rw [stopAction_latest hlatest hmarker, ht, Option.any_some, if_pos (decide_eq_true hlt)] at hstopped
      cases hstopped

omit hmarker in
theorem predictLoop_latest (rules : List Rule) (final : GoString × ℤ) :
    predictLoop obj final rules = rules.foldl (predictRound obj) final := by
  induction rules generalizing final with
  | nil => rfl
  | cons rule rules ih =>
    rw [predictLoop, List.foldl_cons, hlatest]
    simp only [Bool.not_true, Bool.false_and, Bool.and_false, Bool.false_eq_true, if_false]
    exact ih _

end Latest

/-- A rule with days or a date, but not both. -/
theorem predictRound_eq {obj : ObjectOpts} {rule : Rule}
    (hone : rule.expiration.isDaysNull = true ∨ rule.expiration.isDateNull = true) (final : GoString × ℤ) :
    predictRound obj final rule =
      match expiry obj rule with
      | none => final
      | some t => sooner rule t final := by
  unfold predictRound expiry
  rcases hone with h | h
  · rw [h]
    cases rule.expiration.isDateNull <;> rfl
  · rw [h]
    cases rule.expiration.isDaysNull <;> rfl

/-! ### The earliest expiry -/

/-- The rule between `pre` and `post` is the first with the earliest expiry. -/
structure Earliest (obj : ObjectOpts) (pre : List Rule) (rule : Rule) (post : List Rule) (t : ℤ) : Prop where
  own : expiry obj rule = some t
  before : ∀ q ∈ pre, ∀ t', expiry obj q = some t' → t < t'
  behind : ∀ q ∈ post, ∀ t', expiry obj q = some t' → t ≤ t'

theorem Earliest.le {obj : ObjectOpts} {pre post : List Rule} {rule q : Rule} {t t' : ℤ}
    (h : Earliest obj pre rule post t) (hq : q ∈ pre ++ rule :: post) (ht' : expiry obj q = some t') :
    t ≤ t' := by
  rcases List.mem_append.mp hq with hpre | hrest
  · exact (h.before q hpre t' ht').le
  · rcases List.mem_cons.mp hrest with rfl | hpost
    · exact (Option.some.inj (h.own.symm.trans ht')).le
    · exact h.behind q hpost t' ht'

/-- A rule behind the others that is not earlier changes nothing. -/
theorem Earliest.concat {obj : ObjectOpts} {pre post : List Rule} {rule r : Rule} {t : ℤ}
    (h : Earliest obj pre rule post t) (hr : ∀ t', expiry obj r = some t' → t ≤ t') :
    Earliest obj pre rule (post ++ [r]) t := by
  refine ⟨h.own, h.before, ?_⟩
  intro q hq t' ht'
  rcases List.mem_append.mp hq with hpost | hlast
  · exact h.behind q hpost t' ht'
  · rw [List.mem_singleton.mp hlast] at ht'
    exact hr t' ht'

/-- Some rule is due exactly when the earliest is. -/
theorem Earliest.due_iff {obj : ObjectOpts} {pre post rules : List Rule} {rule : Rule} {t : ℤ}
    (h : Earliest obj pre rule post t) (hrules : rules = pre ++ rule :: post) (now : ℤ) :
    (∃ r ∈ rules, ∃ t', expiry obj r = some t' ∧ t' < now) ↔ t < now := by
  constructor
  · intro hex
    obtain ⟨r, hr, t', ht', hlt⟩ := hex
    rw [hrules] at hr
    exact (h.le hr ht').trans_lt hlt
  · intro hlt
    refine ⟨rule, ?_, t, h.own, hlt⟩
    rw [hrules]
    exact List.mem_append_right pre List.mem_cons_self

/-- There is only one. -/
theorem Earliest.unique {obj : ObjectOpts} {pre post pre' post' : List Rule} {rule rule' : Rule} {t t' : ℤ}
    (h : Earliest obj pre rule post t) (h' : Earliest obj pre' rule' post' t')
    (heq : pre ++ rule :: post = pre' ++ rule' :: post') : rule = rule' ∧ t = t' := by
  have ht : t = t' := by
    apply le_antisymm
    · apply h.le _ h'.own
      rw [heq]
      exact List.mem_append_right pre' List.mem_cons_self
    · apply h'.le _ h.own
      rw [← heq]
      exact List.mem_append_right pre List.mem_cons_self
  refine ⟨?_, ht⟩
  -- the rule that stands further behind would not be the first
  rcases List.append_eq_append_iff.mp heq with ⟨a, hpre', hrest⟩ | ⟨a, hpre, hrest⟩
  · cases a with
    | nil => exact (List.cons.inj hrest).1
    | cons x a =>
      obtain rfl := (List.cons.inj hrest).1
      have hlt := h'.before rule (by rw [hpre']; simp) t h.own
      omega
  · cases a with
    | nil => exact (List.cons.inj hrest).1.symm
    | cons x a =>
      obtain rfl := (List.cons.inj hrest).1
      have hlt := h.before rule' (by rw [hpre]; simp) t' h'.own
      omega

/-- What the search has after some rules: nothing, or the first of them with the earliest expiry. -/
def Picked (obj : ObjectOpts) (rules : List Rule) (final : GoString × ℤ) : Prop :=
  (final = ([], zeroTime) ∧ ∀ q ∈ rules, expiry obj q = none) ∨
    ∃ pre rule post t, rules = pre ++ rule :: post ∧ Earliest obj pre rule post t ∧ final = (rule.id, t)

/-- One more rule. -/
theorem Picked.concat {obj : ObjectOpts} {rules : List Rule} {r : Rule} {final : GoString × ℤ}
    (h : Picked obj rules final) (hzero : ∀ q ∈ rules, expiry obj q ≠ some zeroTime)
    (hone : r.expiration.isDaysNull = true ∨ r.expiration.isDateNull = true) :
    Picked obj (rules ++ [r]) (predictRound obj final r) := by
  rw [predictRound_eq hone]
  cases hexp : expiry obj r with
  | none =>
    rcases h with ⟨hfinal, hnone⟩ | ⟨pre, rule, post, t, rfl, hearliest, hfinal⟩
    · refine Or.inl ⟨hfinal, ?_⟩
      intro q hq
      rcases List.mem_append.mp hq with hq | hq
      · exact hnone q hq
      · rw [List.mem_singleton.mp hq]
        exact hexp
    · refine Or.inr ⟨pre, rule, post ++ [r], t, by simp, hearliest.concat ?_, hfinal⟩
      intro t' ht'
      rw [hexp] at ht'
      cases ht'
  | some s =>
    rcases h with ⟨hfinal, hnone⟩ | ⟨pre, rule, post, t, rfl, hearliest, hfinal⟩
    · refine Or.inr ⟨rules, r, [], s, rfl, ⟨hexp, ?_, by simp⟩, ?_⟩
      · intro q hq t' ht'
        rw [hnone q hq] at ht'
        cases ht'
      · rw [hfinal]
        exact if_pos (Or.inl rfl)
    · have hnonzero : t ≠ zeroTime := by
        intro ht
        apply hzero rule (by simp)
        rw [← ht]
        exact hearliest.own
      rw [hfinal]
      by_cases hlt : s < t
      · -- the new rule is earlier than all
        refine Or.inr ⟨pre ++ rule :: post, r, [], s, rfl, ⟨hexp, ?_, by simp⟩, if_pos (Or.inr hlt)⟩
        intro q hq t' ht'
        exact hlt.trans_le (hearliest.le hq ht')
      · refine Or.inr ⟨pre, rule, post ++ [r], t, by simp, hearliest.concat ?_, ?_⟩
        · intro t' ht'
          rw [← Option.some.inj (hexp.symm.trans ht')]
          exact not_lt.mp hlt
        · apply if_neg
          intro hor
          rcases hor with h | h
          · exact hnonzero h
          · exact hlt h

/-- **The search ends with the earliest expiry**, where no expiry is the zero time. -/
theorem predictLoop_picked {obj : ObjectOpts} (hlatest : obj.isLatest = true) (rules : List Rule)
    (hone : ∀ r ∈ rules, r.expiration.isDaysNull = true ∨ r.expiration.isDateNull = true)
    (hzero : ∀ r ∈ rules, expiry obj r ≠ some zeroTime) :
    Picked obj rules (predictLoop obj ([], zeroTime) rules) := by
  rw [predictLoop_latest hlatest]
  -- the rules are added at the end, as the search meets them
  induction rules using List.reverseRecOn with
  | nil => exact Or.inl ⟨rfl, by simp⟩
  | append_singleton rules r ih =>
    have hprev := ih (fun q hq => hone q (List.mem_append_left _ hq))
      fun q hq => hzero q (List.mem_append_left _ hq)
    have hr : r ∈ rules ++ [r] := List.mem_append_right _ (List.mem_singleton_self r)
    rw [List.foldl_append, List.foldl_cons, List.foldl_nil]
    exact hprev.concat (fun q hq => hzero q (List.mem_append_left _ hq)) (hone r hr)

/-! ### The header and the action -/

/-- A configuration as it is read from a document: an expiration that is not there is empty. -/
def LifecycleConfiguration.Parsed (lc : LifecycleConfiguration) : Prop :=
  ∀ r ∈ lc.rules, r.expiration.set = false →
    r.expiration.isDaysNull = true ∧ r.expiration.isDateNull = true

/-- The first rule with the earliest expiry has an ID, or is not due. -/
def NamedEarliest (lc : LifecycleConfiguration) (obj : ObjectOpts) (now : ℤ) : Prop :=
  ∀ pre rule post t, filterActionableRules lc obj = pre ++ rule :: post → Earliest obj pre rule post t →
    t < now → rule.id ≠ []

/-- No expiry of a rule is the zero time if none is that is computed from days. -/
theorem expiry_ne_zeroTime {obj : ObjectOpts} {r : Rule}
    (h : r.expiration.isDaysNull = false → expectedExpiryTime obj.modTime r.expiration.days ≠ zeroTime) :
    expiry obj r ≠ some zeroTime := by
  unfold expiry
  split
  · next hdate =>
    intro heq
    unfold Expiration.isDateNull at hdate
    simp only [Bool.not_eq_true', decide_eq_false_iff_not] at hdate
    exact hdate (Option.some.inj heq)
  · split
    · next hdays =>
      intro heq
      exact h (by simpa using hdays) (Option.some.inj heq)
    · simp

/-- **When the advertised expiry is the action taken.** -/
theorem advertised_iff (lc : LifecycleConfiguration) (hvalid : lc.validate = none) (hparsed : lc.Parsed)
    (obj : ObjectOpts) (hlatest : obj.isLatest = true) (hmarker : obj.deleteMarker = false)
    (hmod : obj.modTime ≠ zeroTime)
    (hzero : ∀ r ∈ lc.rules, r.expiration.isDaysNull = false →
      expectedExpiryTime obj.modTime r.expiration.days ≠ zeroTime) (now : ℤ) :
    (computeAction lc obj now = .delete ↔
      (predictExpiryTime lc obj).1 ≠ [] ∧ (predictExpiryTime lc obj).2 < now) ↔
    NamedEarliest lc obj now := by
  have hone : ∀ r ∈ filterActionableRules lc obj,
      r.expiration.isDaysNull = true ∨ r.expiration.isDateNull = true := by
    intro r hr
    have hmem := (mem_filterActionableRules hr).1
    cases hset : r.expiration.set with
    | true => exact expiration_of_validate hvalid hmem hset
    | false => exact Or.inl (hparsed r hmem hset).1
  have hnonzero : ∀ r ∈ filterActionableRules lc obj, expiry obj r ≠ some zeroTime := by
    intro r hr
    exact expiry_ne_zeroTime (hzero r (mem_filterActionableRules hr).1)
  have hpredict : predictExpiryTime lc obj =
      predictLoop obj ([], zeroTime) (filterActionableRules lc obj) := by
    unfold predictExpiryTime
    rw [hmarker]
    rfl
  rw [computeAction_delete_iff hlatest hmarker hmod, hpredict]
  rcases predictLoop_picked hlatest _ hone hnonzero with
    ⟨hfinal, hnone⟩ | ⟨pre, rule, post, t, hrules, hearliest, hfinal⟩
  · -- no rule expires the object
    rw [hfinal]
    refine iff_of_true (iff_of_false ?_ ?_) ?_
    · intro hex
      obtain ⟨r, hr, t, ht, -⟩ := hex
      rw [hnone r hr] at ht
      cases ht
    · intro hand
      exact hand.1 rfl
    · intro pre rule post t hrules hearliest _
      have hown := hearliest.own
      rw [hnone rule (by rw [hrules]; simp)] at hown
      cases hown
  · rw [hfinal, hearliest.due_iff hrules]
    constructor
    · intro hiff pre' rule' post' t' hrules' hearliest' hlt
      obtain ⟨rfl, rfl⟩ := hearliest.unique hearliest' (hrules.symm.trans hrules')
      exact (hiff.mp hlt).1
    · intro hnamed
      exact ⟨fun hlt => ⟨hnamed pre rule post t hrules hearliest hlt, hlt⟩, fun hand => hand.2⟩

/-! ### A rule without an ID -/

/-- A rule that expires every object after a day. -/
def afterOneDay (id : GoString) : Rule :=
  { id := id
    status := .enabled
    filter := ⟨true, ⟨[], false⟩, ⟨⟨[], false⟩, []⟩, ⟨[], []⟩⟩
    pre := ⟨[], false⟩
    expiration := ⟨1, zeroTime, false, false, true⟩
    transition := ⟨0, zeroTime, [], false⟩
    noncurrentVersionExpiration := ⟨0, 0, false⟩
    noncurrentVersionTransition := ⟨0, [], false⟩ }

/-- The latest version of an object from 1970. -/
def oldObject : ObjectOpts := ⟨lit "a", [], 0, [], true, false, 1, zeroTime, [], zeroTime⟩

theorem parsed_afterOneDay (id : GoString) : LifecycleConfiguration.Parsed ⟨[afterOneDay id]⟩ := by
  intro r hr hset
  rw [List.mem_singleton.mp hr] at hset
  cases hset

/-- With an ID the expiry is advertised. -/
theorem advertised_named :
    computeAction ⟨[afterOneDay (lit "r")]⟩ oldObject (3 * day) = .delete ∧
      (predictExpiryTime ⟨[afterOneDay (lit "r")]⟩ oldObject).1 ≠ [] ∧
      (predictExpiryTime ⟨[afterOneDay (lit "r")]⟩ oldObject).2 < 3 * day := by
  have hiff := (advertised_iff ⟨[afterOneDay (lit "r")]⟩ (by decide +kernel) (parsed_afterOneDay _) oldObject
    rfl rfl (by decide) (by decide +kernel) (3 * day)).mpr
  have hdelete : computeAction ⟨[afterOneDay (lit "r")]⟩ oldObject (3 * day) = .delete := by
    decide +kernel
  refine ⟨hdelete, (hiff ?_).mp hdelete⟩
  intro pre rule post t hrules _ _
  have hmem : rule ∈ filterActionableRules ⟨[afterOneDay (lit "r")]⟩ oldObject := by
    rw [hrules]
    exact List.mem_append_right pre List.mem_cons_self
  rw [List.mem_singleton.mp (mem_filterActionableRules hmem).1]
  decide

/-- **A rule without an ID is not advertised.**  The configuration is accepted, and on the third day the
object of the first is deleted; the header names no rule. -/
theorem deletes_unadvertised :
    LifecycleConfiguration.validate ⟨[afterOneDay []]⟩ = none ∧
      computeAction ⟨[afterOneDay []]⟩ oldObject (3 * day) = .delete ∧
      predictExpiryTime ⟨[afterOneDay []]⟩ oldObject = ([], 2 * day) := by
  decide +kernel

end Zs3Server.Lifecycle
