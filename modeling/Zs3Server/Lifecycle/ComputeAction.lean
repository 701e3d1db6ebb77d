import Zs3Server.Lifecycle.Rule

/-!
# The action of a lifecycle configuration

`FilterActionableRules` keeps the rules that may apply to an object, and `ComputeAction` goes through them
in their order: an expiry or a noncurrent transition that is due ends the search, a transition that is due
is remembered.  Rules with a delete marker, noncurrent or transition action are kept before their tags are
looked at.

* `computeAction` — the search; `Due` — when a rule has an action of a kind due;
* `stopAction_eq_some_iff` — the rules that end the search, by their fields and due times;
* `computeLoop_cases`, `computeLoop_rules` — what the result can be;
* `acts_on_matching_iff` — the configurations, objects and times at which the action is due in a rule that
  the object matches;
* `deletes_untagged` — an object that is deleted by a rule for other tags.
-/

namespace Zs3Server.Lifecycle

open Lib.ByteString
open Lib.GoTime (zeroTime)

inductive Action where
  | none
  | delete
  | deleteVersion
  | transition
  | transitionVersion
  | deleteRestored
  | deleteRestoredVersion
  deriving DecidableEq

/-- `strings.Split(obj.UserTags, "&")`. -/
def ObjectOpts.tags (obj : ObjectOpts) : List GoString := obj.userTags.splitOn 38

/-- One round of `FilterActionableRules`: a rule with a transition may be kept twice. -/
def actionable (obj : ObjectOpts) (rule : Rule) : List Rule :=
  if rule.status = .disabled then []
  else if !rule.getPrefix.isPrefixOf obj.name then []
  else if rule.expiration.deleteMarkerVal then [rule]
  else if !rule.noncurrentVersionExpiration.isDaysNull then [rule]
  else if 0 < rule.noncurrentVersionExpiration.newerNoncurrentVersions then [rule]
  else if !rule.noncurrentVersionTransition.isNull then [rule]
  else
    (if rule.filter.testTags obj.tags then [rule] else []) ++
      if !rule.transition.isNull then [rule] else []

def filterActionableRules (lc : LifecycleConfiguration) (obj : ObjectOpts) : List Rule :=
  if obj.name = [] then [] else lc.rules.flatMap (actionable obj)

def ObjectOpts.expiredObjectDeleteMarker (obj : ObjectOpts) : Bool := obj.deleteMarker && obj.numVersions = 1

def transitionComplete : GoString := lit "complete"

/-- A version with a successor. -/
def ObjectOpts.noncurrent (obj : ObjectOpts) : Bool :=
  obj.versionID ≠ [] && !obj.isLatest && obj.successorModTime ≠ zeroTime

/-- An object, or the latest version of one that is not a delete marker. -/
def ObjectOpts.current (obj : ObjectOpts) : Bool := obj.versionID = [] || obj.isLatest && !obj.deleteMarker

def ObjectOpts.restoreExpired (obj : ObjectOpts) (now : ℤ) : Bool :=
  obj.restoreExpires ≠ zeroTime && obj.restoreExpires < now

/-- The rule limits the number of noncurrent versions, which is not decided for a single version. -/
def skipped (obj : ObjectOpts) (rule : Rule) : Bool :=
  !rule.noncurrentVersionExpiration.isDaysNull && !obj.isLatest &&
    0 < rule.noncurrentVersionExpiration.newerNoncurrentVersions

section

variable (obj : ObjectOpts) (now : ℤ)

/-- The action with which a round of `ComputeAction` returns. -/
def stopAction (rule : Rule) : Option Action :=
  if obj.expiredObjectDeleteMarker && rule.expiration.deleteMarkerVal then some .deleteVersion
  else if obj.expiredObjectDeleteMarker && !rule.expiration.isDaysNull &&
      expectedExpiryTime obj.modTime rule.expiration.days < now then some .deleteVersion
  else if skipped obj rule then none
  else if !rule.noncurrentVersionExpiration.isDaysNull && obj.noncurrent &&
      expectedExpiryTime obj.successorModTime rule.noncurrentVersionExpiration.noncurrentDays < now then
    some .deleteVersion
  else if !rule.noncurrentVersionTransition.isNull && obj.noncurrent && !obj.deleteMarker &&
      obj.transitionStatus ≠ transitionComplete &&
      (rule.noncurrentVersionTransition.nextDue obj).any (· < now) then some .transitionVersion
  else if obj.current then
    if !rule.expiration.isDateNull then if rule.expiration.date < now then some .delete else none
    else if !rule.expiration.isDaysNull then
      if expectedExpiryTime obj.modTime rule.expiration.days < now then some .delete else none
    else none
  else none

def restored (action : Action) : Action :=
  if obj.restoreExpired now then
    if obj.versionID ≠ [] then .deleteRestoredVersion else .deleteRestored
  else action

/-- The action after a round that does not return.  The restored copy is looked at twice unless the
transition is complete. -/
def passAction (rule : Rule) (action : Action) : Action :=
  if skipped obj rule then action
  else if obj.current then
    restored obj now
      (if obj.transitionStatus ≠ transitionComplete then
        restored obj now
          (if (rule.transition.nextDue obj).any (· < now) then .transition else action)
      else action)
  else action

def computeLoop : Action → List Rule → Action
  | action, [] => action
  | action, rule :: rules =>
    match stopAction obj now rule with
    | some a => a
    | none => computeLoop (passAction obj now rule action) rules

end

/-- `ComputeAction` at a given time. -/
def computeAction (lc : LifecycleConfiguration) (obj : ObjectOpts) (now : ℤ) : Action :=
  if obj.modTime = zeroTime then .none else computeLoop obj now .none (filterActionableRules lc obj)

/-! ### What is due -/

/-- A rule has an action of this kind due for the object. -/
def Due (obj : ObjectOpts) (now : ℤ) (rule : Rule) : Action → Prop
  | .deleteVersion =>
    obj.expiredObjectDeleteMarker = true ∧ (rule.expiration.deleteMarkerVal = true ∨
      rule.expiration.isDaysNull = false ∧ expectedExpiryTime obj.modTime rule.expiration.days < now) ∨
    obj.noncurrent = true ∧ rule.noncurrentVersionExpiration.isDaysNull = false ∧
      ¬ 0 < rule.noncurrentVersionExpiration.newerNoncurrentVersions ∧
      expectedExpiryTime obj.successorModTime rule.noncurrentVersionExpiration.noncurrentDays < now
  | .transitionVersion =>
    obj.noncurrent = true ∧ obj.deleteMarker = false ∧ obj.transitionStatus ≠ transitionComplete ∧
      ∃ due, rule.noncurrentVersionTransition.nextDue obj = some due ∧ due < now
  | .delete =>
    obj.current = true ∧ (rule.expiration.isDateNull = false ∧ rule.expiration.date < now ∨
      rule.expiration.isDaysNull = false ∧ expectedExpiryTime obj.modTime rule.expiration.days < now)
  | .transition =>
    obj.current = true ∧ obj.transitionStatus ≠ transitionComplete ∧
      ∃ due, rule.transition.nextDue obj = some due ∧ due < now
  | _ => False

section

variable {obj : ObjectOpts} {now : ℤ} {rule : Rule}

theorem stopAction_of_deleteVersion (h : Due obj now rule .deleteVersion) :
    stopAction obj now rule = some .deleteVersion := by
  unfold stopAction
  rcases h with ⟨hmarker, hval | ⟨hdays, hlt⟩⟩ | ⟨hnoncurrent, hdays, hnewer, hlt⟩
  · simp [hmarker, hval]
  · simp [hmarker, hdays, hlt]
  · have hskip : skipped obj rule = false := by simp [skipped, hnewer]
    simp [hskip, hnoncurrent, hdays, hlt]

/-- Apart from the removal of a version, a round looks at the other kinds in their order. -/
theorem stopAction_of_not_deleteVersion (h : ¬ Due obj now rule .deleteVersion) :
    stopAction obj now rule =
      if skipped obj rule then none
      else if !rule.noncurrentVersionTransition.isNull && obj.noncurrent && !obj.deleteMarker &&
          obj.transitionStatus ≠ transitionComplete &&
          (rule.noncurrentVersionTransition.nextDue obj).any (· < now) then some .transitionVersion
      else if obj.current then
        if !rule.expiration.isDateNull then if rule.expiration.date < now then some .delete else none
        else if !rule.expiration.isDaysNull then
          if expectedExpiryTime obj.modTime rule.expiration.days < now then some .delete else none
        else none
      else none := by
  unfold stopAction
  split
  · next hmarker =>
    simp only [Bool.and_eq_true] at hmarker
    exact absurd (Or.inl ⟨hmarker.1, Or.inl hmarker.2⟩) h
  · split
    · next hdays =>
      simp only [Bool.and_eq_true, Bool.not_eq_true', decide_eq_true_eq] at hdays
      exact absurd (Or.inl ⟨hdays.1.1, Or.inr ⟨hdays.1.2, hdays.2⟩⟩) h
    · split
      · rfl
      · next hskip =>
        split
        · next hnon =>
          simp only [Bool.and_eq_true, Bool.not_eq_true', decide_eq_true_eq] at hnon
          refine absurd (Or.inr ⟨hnon.1.2, hnon.1.1, fun hnewer => hskip ?_, hnon.2⟩) h
          have hnoncurrent := hnon.1.2
          simp only [ObjectOpts.noncurrent, Bool.and_eq_true, Bool.not_eq_true'] at hnoncurrent
          simp [skipped, hnon.1.1, hnoncurrent.1.2, hnewer]
        · rfl

theorem nextVersion_iff :
    (!rule.noncurrentVersionTransition.isNull && obj.noncurrent && !obj.deleteMarker &&
        obj.transitionStatus ≠ transitionComplete &&
        (rule.noncurrentVersionTransition.nextDue obj).any (· < now)) = true ↔
      Due obj now rule .transitionVersion := by
  have hnull : ∀ due, rule.noncurrentVersionTransition.nextDue obj = some due →
      rule.noncurrentVersionTransition.isNull = false := by
    intro due hnext
    unfold NoncurrentVersionTransition.nextDue at hnext
    unfold NoncurrentVersionTransition.isNull
    split at hnext
    · cases hnext
    · next h => simp_all
  simp only [Bool.and_eq_true, Bool.not_eq_true', decide_eq_true_eq, Option.any_eq_true]
  constructor
  · rintro ⟨⟨⟨⟨-, hnoncurrent⟩, hmarker⟩, hstatus⟩, hdue⟩
    exact ⟨hnoncurrent, hmarker, hstatus, hdue⟩
  · rintro ⟨hnoncurrent, hmarker, hstatus, due, hnext, hlt⟩
    exact ⟨⟨⟨⟨hnull due hnext, hnoncurrent⟩, hmarker⟩, hstatus⟩, due, hnext, hlt⟩

/-- **The rules that end the search**, by their fields and the times at which their actions are due: the
removal of a version comes before its transition, and that before the removal of the object, for which a
date comes before the days.  A rule that is skipped can only remove a delete marker. -/
def Ends (obj : ObjectOpts) (now : ℤ) (rule : Rule) : Action → Prop
  | .deleteVersion => Due obj now rule .deleteVersion
  | .transitionVersion =>
    ¬ Due obj now rule .deleteVersion ∧ skipped obj rule = false ∧ Due obj now rule .transitionVersion
  | .delete =>
    ¬ Due obj now rule .deleteVersion ∧ skipped obj rule = false ∧ ¬ Due obj now rule .transitionVersion ∧
      obj.current = true ∧ (rule.expiration.isDateNull = false ∧ rule.expiration.date < now ∨
        rule.expiration.isDateNull = true ∧ rule.expiration.isDaysNull = false ∧
          expectedExpiryTime obj.modTime rule.expiration.days < now)
  | _ => False

theorem stopAction_eq_some_iff {a : Action} : stopAction obj now rule = some a ↔ Ends obj now rule a := by
  by_cases hversion : Due obj now rule .deleteVersion
  · rw [stopAction_of_deleteVersion hversion]
    cases a <;> simp [Ends, hversion]
  · rw [stopAction_of_not_deleteVersion hversion]
    cases hskip : skipped obj rule with
    | true => cases a <;> simp [Ends, hversion, hskip]
    | false =>
      by_cases htrans : Due obj now rule .transitionVersion
      · rw [if_neg Bool.false_ne_true, if_pos (nextVersion_iff.mpr htrans)]
        cases a <;> simp [Ends, hversion, hskip, htrans]
      · rw [if_neg Bool.false_ne_true, if_neg (mt nextVersion_iff.mp htrans)]
        -- what is left is the removal of the object
        cases hcurrent : obj.current <;> cases hdate : rule.expiration.isDateNull <;>
          cases hdays : rule.expiration.isDaysNull <;> cases a <;>
          simp [Ends, hversion, hskip, htrans, hcurrent, hdate, hdays]

theorem due_of_ends {a : Action} (h : Ends obj now rule a) : Due obj now rule a := by
  cases a with
  | deleteVersion => exact h
  | transitionVersion => exact h.2.2
  | delete =>
    obtain ⟨-, -, -, hcurrent, hdate | hdays⟩ := h
    · exact ⟨hcurrent, Or.inl hdate⟩
    · exact ⟨hcurrent, Or.inr hdays.2⟩
  | none | transition | deleteRestored | deleteRestoredVersion => exact False.elim h

/-- A round returns with an action that the rule has due. -/
theorem due_of_stopAction {a : Action} (h : stopAction obj now rule = some a) : Due obj now rule a :=
  due_of_ends (stopAction_eq_some_iff.mp h)

/-- A transition is due only for a latest version, and such a rule is not skipped. -/
theorem passAction_of_due (hdue : Due obj now rule .transition) (hrestore : obj.restoreExpired now = false)
    (action : Action) : passAction obj now rule action = .transition := by
  obtain ⟨hcurrent, hstatus, due, hnext, hlt⟩ := hdue
  have hlatest : obj.isLatest = true := by
    unfold Transition.nextDue at hnext
    split at hnext
    · cases hnext
    · next h => simp_all
  have hskip : skipped obj rule = false := by
    unfold skipped
    rw [hlatest]
    simp
  have hany : (rule.transition.nextDue obj).any (· < now) = true := by
    rw [hnext]
    exact decide_eq_true hlt
  unfold passAction restored
  simp [hskip, hcurrent, hrestore, hstatus, hany]

/-- Nothing is done, or a restored copy is removed. -/
def Action.Quiet (a : Action) : Prop := a = .none ∨ a = .deleteRestored ∨ a = .deleteRestoredVersion

/-- A round that goes on leaves the action, or makes it a transition that is due, unless a restored copy
has expired. -/
theorem passAction_cases (obj : ObjectOpts) (now : ℤ) (rule : Rule) (action : Action) : passAction obj now rule action = action ∨
    (obj.restoreExpired now = true ∧ (passAction obj now rule action).Quiet) ∨
    (passAction obj now rule action = .transition ∧ obj.restoreExpired now = false ∧
      Due obj now rule .transition) := by
  unfold passAction
  split
  · exact Or.inl rfl
  · split
    · next hcurrent =>
      by_cases hrestore : obj.restoreExpired now = true
      · refine Or.inr (Or.inl ⟨hrestore, ?_⟩)
        unfold restored
        rw [if_pos hrestore]
        split
        · exact Or.inr (Or.inr rfl)
        · exact Or.inr (Or.inl rfl)
      · unfold restored
        rw [if_neg hrestore, if_neg hrestore]
        split
        · next hstatus =>
          split
          · next hany =>
            rw [Option.any_eq_true] at hany
            obtain ⟨due, hnext, hlt⟩ := hany
            exact Or.inr (Or.inr ⟨rfl, by simpa using hrestore, hcurrent, hstatus, due, hnext,
              of_decide_eq_true hlt⟩)
          · exact Or.inl rfl
        · exact Or.inl rfl
    · exact Or.inl rfl

/-- What the action is between two rounds. -/
def Remembered (obj : ObjectOpts) (now : ℤ) (rules : List Rule) (action : Action) : Prop :=
  action.Quiet ∨
    action = .transition ∧ obj.restoreExpired now = false ∧ ∃ r ∈ rules, Due obj now r .transition

theorem remembered_pass {rules : List Rule} (hrule : rule ∈ rules) {action : Action}
    (h : Remembered obj now rules action) : Remembered obj now rules (passAction obj now rule action) := by
  rcases passAction_cases obj now rule action with hsame | ⟨-, hquiet⟩ | ⟨htrans, hrestore, hdue⟩
  · rw [hsame]
    exact h
  · exact Or.inl hquiet
  · exact Or.inr ⟨htrans, hrestore, rule, hrule, hdue⟩

/-- **Rounds that go on**: a transition at the end is due in one of the rules. -/
theorem remembered_foldl {all : List Rule} (rules : List Rule) : ∀ {action : Action}, rules ⊆ all →
    Remembered obj now all action →
      Remembered obj now all (rules.foldl (fun a r => passAction obj now r a) action) := by
  induction rules with
  | nil =>
    intro action _ h
    exact h
  | cons r rules ih =>
    intro action hsub h
    exact ih (fun r' hr' => hsub (List.mem_cons_of_mem r hr'))
      (remembered_pass (hsub List.mem_cons_self) h)

/-- A transition that is due is remembered to the end, unless a restored copy has expired. -/
theorem foldl_of_due (rules : List Rule) (hrestore : obj.restoreExpired now = false) :
    ∀ {action : Action}, action = .transition ∨ (∃ r ∈ rules, Due obj now r .transition) →
      rules.foldl (fun a r => passAction obj now r a) action = .transition := by
  induction rules with
  | nil =>
    rintro action (h | ⟨r, hr, -⟩)
    · exact h
    · cases hr
  | cons r rules ih =>
    intro action h
    rw [List.foldl_cons]
    rcases h with rfl | ⟨r', hr', hdue⟩
    · refine ih (Or.inl ?_)
      rcases passAction_cases obj now r .transition with hsame | ⟨hexpired, -⟩ | ⟨htrans, -⟩
      · exact hsame
      · rw [hrestore] at hexpired
        cases hexpired
      · exact htrans
    · rcases List.mem_cons.mp hr' with rfl | hr'
      · exact ih (Or.inl (passAction_of_due hdue hrestore action))
      · exact ih (Or.inr ⟨r', hr', hdue⟩)

/-- Rounds that go on. -/
theorem computeLoop_append {pre : List Rule} (hpre : ∀ q ∈ pre, stopAction obj now q = none)
    (rules : List Rule) : ∀ action : Action, computeLoop obj now action (pre ++ rules) =
      computeLoop obj now (pre.foldl (fun a r => passAction obj now r a) action) rules := by
  induction pre with
  | nil =>
    intro action
    rfl
  | cons r pre ih =>
    intro action
    have hstop := hpre r List.mem_cons_self
    simp only [List.cons_append, computeLoop, hstop, List.foldl_cons]
    exact ih (fun q hq => hpre q (List.mem_cons_of_mem r hq)) _

theorem computeLoop_of_none {rules : List Rule} (hrules : ∀ q ∈ rules, stopAction obj now q = none)
    {action : Action} : computeLoop obj now action rules =
      rules.foldl (fun a r => passAction obj now r a) action := by
  have happend := computeLoop_append hrules [] action
  rw [List.append_nil] at happend
  exact happend

/-- **The rounds of `ComputeAction`**: the first that returns decides, and otherwise what is remembered. -/
theorem computeLoop_cases (rules : List Rule) (action : Action) :
    (∃ pre r post a, rules = pre ++ r :: post ∧ (∀ q ∈ pre, stopAction obj now q = none) ∧
      stopAction obj now r = some a ∧ computeLoop obj now action rules = a) ∨
    ((∀ q ∈ rules, stopAction obj now q = none) ∧
      computeLoop obj now action rules = rules.foldl (fun a r => passAction obj now r a) action) := by
  cases hfind : rules.find? fun q => (stopAction obj now q).isSome with
  | none =>
    have hall : ∀ q ∈ rules, stopAction obj now q = none := by
      intro q hq
      simpa using List.find?_eq_none.mp hfind q hq
    exact Or.inr ⟨hall, computeLoop_of_none hall⟩
  | some r =>
    obtain ⟨hr, pre, post, rfl, hpre⟩ := List.find?_eq_some_iff_append.mp hfind
    obtain ⟨a, ha⟩ := Option.isSome_iff_exists.mp hr
    have hnone : ∀ q ∈ pre, stopAction obj now q = none := by
      intro q hq
      simpa using hpre q hq
    refine Or.inl ⟨pre, r, post, a, rfl, hnone, ha, ?_⟩
    rw [computeLoop_append hnone]
    simp only [computeLoop, ha]

end

/-! ### Rules that an object matches -/

/-- An enabled rule whose prefix and tags the object has. -/
structure Matches (lc : LifecycleConfiguration) (obj : ObjectOpts) (rule : Rule) : Prop where
  mem : rule ∈ lc.rules
  enabled : rule.status = .enabled
  named : rule.getPrefix <+: obj.name
  tagged : rule.filter.testTags obj.tags = true

/-- A rule that the object matches has an action of this kind due. -/
def Backed (lc : LifecycleConfiguration) (obj : ObjectOpts) (now : ℤ) (a : Action) : Prop :=
  ∃ rule, Matches lc obj rule ∧ Due obj now rule a

/-- What a round keeps is the rule itself, not disabled and with the object's prefix. -/
theorem mem_actionable {obj : ObjectOpts} {rule r : Rule} (h : rule ∈ actionable obj r) :
    rule = r ∧ r.status ≠ .disabled ∧ r.getPrefix <+: obj.name := by
  unfold actionable at h
  split at h
  · cases h
  · next hstatus =>
    split at h
    · cases h
    · next hprefix =>
      have hrule : rule = r := by
        split_ifs at h <;> simp_all
      refine ⟨hrule, hstatus, ?_⟩
      rw [← List.isPrefixOf_iff_prefix]
      simpa using hprefix

/-- A kept rule is in the configuration. -/
theorem mem_filterActionableRules {lc : LifecycleConfiguration} {obj : ObjectOpts} {rule : Rule}
    (h : rule ∈ filterActionableRules lc obj) :
    rule ∈ lc.rules ∧ rule.status ≠ .disabled ∧ rule.getPrefix <+: obj.name := by
  unfold filterActionableRules at h
  split at h
  · cases h
  · obtain ⟨r, hr, hkept⟩ := List.mem_flatMap.mp h
    obtain ⟨rfl, hstatus, hnamed⟩ := mem_actionable hkept
    exact ⟨hr, hstatus, hnamed⟩

/-- A rule with an action for which it is kept before its tags are looked at. -/
def Rule.keptUntagged (rule : Rule) : Bool :=
  rule.expiration.deleteMarkerVal || !rule.noncurrentVersionExpiration.isDaysNull ||
    decide (0 < rule.noncurrentVersionExpiration.newerNoncurrentVersions) ||
    !rule.noncurrentVersionTransition.isNull || !rule.transition.isNull

/-- The rule is looked at for the object: it is not disabled, it has the object's prefix, and its tags are
the object's or do not matter. -/
structure LookedAt (obj : ObjectOpts) (rule : Rule) : Prop where
  status : rule.status ≠ .disabled
  named : rule.getPrefix <+: obj.name
  tags : rule.filter.testTags obj.tags = true ∨ rule.keptUntagged = true

/-- A round of `FilterActionableRules` keeps the rule, once or twice, if it is looked at. -/
theorem actionable_of_lookedAt {obj : ObjectOpts} {rule : Rule} (h : LookedAt obj rule) :
    ∃ more, actionable obj rule = rule :: more := by
  unfold actionable
  rw [if_neg h.status, if_neg (by simpa using List.isPrefixOf_iff_prefix.mpr h.named)]
  have htags := h.tags
  unfold Rule.keptUntagged at htags
  split_ifs <;> simp_all

theorem lookedAt_of_mem {obj : ObjectOpts} {rule r : Rule} (h : r ∈ actionable obj rule) :
    r = rule ∧ LookedAt obj rule := by
  obtain ⟨hrule, hstatus, hnamed⟩ := mem_actionable h
  refine ⟨hrule, hstatus, hnamed, ?_⟩
  unfold actionable at h
  unfold Rule.keptUntagged
  split_ifs at h <;> simp_all

section

variable {obj : ObjectOpts} {now : ℤ}

/-- No rule of the list that is looked at ends the search. -/
def NoneEnds (obj : ObjectOpts) (now : ℤ) (rules : List Rule) : Prop :=
  ∀ q ∈ rules, LookedAt obj q → ∀ a, ¬ Ends obj now q a

theorem stopAction_of_noneEnds {rules : List Rule} (h : NoneEnds obj now rules) :
    ∀ q ∈ rules.flatMap (actionable obj), stopAction obj now q = none := by
  intro q hq
  obtain ⟨r, hr, hkept⟩ := List.mem_flatMap.mp hq
  obtain ⟨rfl, hlooked⟩ := lookedAt_of_mem hkept
  cases hstop : stopAction obj now q with
  | none => rfl
  | some a => exact absurd (stopAction_eq_some_iff.mp hstop) (h q hr hlooked a)

/-- The first rule that ends the search decides. -/
theorem computeLoop_of_ends {pre : List Rule} (post : List Rule) {rule : Rule} {a : Action}
    (hpre : NoneEnds obj now pre) (hlooked : LookedAt obj rule) (hends : Ends obj now rule a)
    (action : Action) :
    computeLoop obj now action ((pre ++ rule :: post).flatMap (actionable obj)) = a := by
  obtain ⟨more, hmore⟩ := actionable_of_lookedAt hlooked
  rw [List.flatMap_append, computeLoop_append (stopAction_of_noneEnds hpre), List.flatMap_cons, hmore,
    List.cons_append]
  simp only [computeLoop, stopAction_eq_some_iff.mpr hends]

/-- **`ComputeAction` by the rules of the configuration.** -/
theorem computeLoop_rules (obj : ObjectOpts) (now : ℤ) (rules : List Rule) (action : Action) :
    (∃ pre rule post a, rules = pre ++ rule :: post ∧ NoneEnds obj now pre ∧ LookedAt obj rule ∧
      Ends obj now rule a ∧ computeLoop obj now action (rules.flatMap (actionable obj)) = a) ∨
    NoneEnds obj now rules ∧ computeLoop obj now action (rules.flatMap (actionable obj)) =
      (rules.flatMap (actionable obj)).foldl (fun a r => passAction obj now r a) action := by
  classical
  cases hfind : rules.find? fun q => LookedAt obj q ∧ ∃ a, Ends obj now q a with
  | none =>
    have hnone : NoneEnds obj now rules := by
      intro q hq hlooked a hends
      have hq := List.find?_eq_none.mp hfind q hq
      rw [decide_eq_true_eq] at hq
      exact hq ⟨hlooked, a, hends⟩
    exact Or.inr ⟨hnone, computeLoop_of_none (stopAction_of_noneEnds hnone)⟩
  | some rule =>
    obtain ⟨hrule, pre, post, rfl, hpre⟩ := List.find?_eq_some_iff_append.mp hfind
    obtain ⟨hlooked, a, hends⟩ := of_decide_eq_true hrule
    have hnone : NoneEnds obj now pre := by
      intro q hq hlooked a hends
      have hq := hpre q hq
      simp only [Bool.not_eq_true', decide_eq_false_iff_not] at hq
      exact hq ⟨hlooked, a, hends⟩
    exact Or.inl ⟨pre, rule, post, a, rfl, hnone, hlooked, hends,
      computeLoop_of_ends post hnone hlooked hends action⟩

end

/-- **The condition.**  Take a rule that is looked at though the object does not have its tags, and before
which no rule that is looked at ends the search.  If it ends the search, a rule that the object matches has
the same kind of action due.  If no rule ends the search, no restored copy has expired and it has a
transition due, a rule that the object matches has one due too. -/
def Guarded (lc : LifecycleConfiguration) (obj : ObjectOpts) (now : ℤ) : Prop :=
  obj.name ≠ [] → obj.modTime ≠ zeroTime → ∀ pre rule post, lc.rules = pre ++ rule :: post →
    LookedAt obj rule → rule.filter.testTags obj.tags = false → NoneEnds obj now pre →
    (∀ a, Ends obj now rule a → ∃ other, Matches lc obj other ∧ Due obj now other a) ∧
    (NoneEnds obj now (rule :: post) → obj.restoreExpired now = false → Due obj now rule .transition →
      ∃ other, Matches lc obj other ∧ Due obj now other .transition)

theorem not_quiet_of_due {obj : ObjectOpts} {now : ℤ} {rule : Rule} {a : Action} (h : Due obj now rule a) :
    ¬ a.Quiet := by
  rintro (rfl | rfl | rfl)
  · exact h
  · exact h
  · exact h

/-- **When the lifecycle acts only on matching objects.** -/
theorem acts_on_matching_iff (lc : LifecycleConfiguration) (hvalid : lc.validate = none) (obj : ObjectOpts)
    (now : ℤ) :
    (¬ (computeAction lc obj now).Quiet → Backed lc obj now (computeAction lc obj now)) ↔
      Guarded lc obj now := by
  have hcompute : obj.name ≠ [] → obj.modTime ≠ zeroTime → computeAction lc obj now =
      computeLoop obj now .none (lc.rules.flatMap (actionable obj)) := by
    intro hname hmod
    unfold computeAction filterActionableRules
    rw [if_neg hmod, if_neg hname]
  -- what is looked at with its tags is matched
  have hmatches : ∀ rule ∈ lc.rules, LookedAt obj rule → rule.filter.testTags obj.tags = true →
      Matches lc obj rule := fun rule hr hlooked htags =>
    ⟨hr, status_of_validate hvalid hr hlooked.status, hlooked.named, htags⟩
  constructor
  · intro h hname hmod pre rule post hrules hlooked _ hpre
    rw [hcompute hname hmod] at h
    constructor
    · intro a hends
      have ha := computeLoop_of_ends post hpre hlooked hends .none
      rw [← hrules] at ha
      rw [ha] at h
      exact h (not_quiet_of_due (due_of_ends hends))
    · intro hrest hrestore hdue
      obtain ⟨more, hmore⟩ := actionable_of_lookedAt hlooked
      have hmem : rule ∈ lc.rules.flatMap (actionable obj) :=
        List.mem_flatMap.mpr ⟨rule, by rw [hrules]; simp, by rw [hmore]; exact List.mem_cons_self⟩
      have hnone : NoneEnds obj now lc.rules := by
        intro q hq
        rw [hrules] at hq
        rcases List.mem_append.mp hq with hq | hq
        · exact hpre q hq
        · exact hrest q hq
      have ha : computeLoop obj now .none (lc.rules.flatMap (actionable obj)) = .transition := by
        rw [computeLoop_of_none (stopAction_of_noneEnds hnone)]
        exact foldl_of_due _ hrestore (Or.inr ⟨rule, hmem, hdue⟩)
      rw [ha] at h
      exact h (not_quiet_of_due hdue)
  · intro h hloud
    have hmod : obj.modTime ≠ zeroTime := by
      intro hzero
      refine hloud (Or.inl ?_)
      unfold computeAction
      rw [if_pos hzero]
    have hname : obj.name ≠ [] := by
      intro hnil
      refine hloud (Or.inl ?_)
      unfold computeAction filterActionableRules
      rw [if_neg hmod, if_pos hnil]
      rfl
    rw [hcompute hname hmod] at hloud ⊢
    rcases computeLoop_rules obj now lc.rules .none with
      ⟨pre, rule, post, a, hrules, hpre, hlooked, hends, ha⟩ | ⟨hnone, hfold⟩
    · rw [ha]
      cases htags : rule.filter.testTags obj.tags with
      | true =>
        have hmem : rule ∈ lc.rules := by rw [hrules]; simp
        exact ⟨rule, hmatches rule hmem hlooked htags, due_of_ends hends⟩
      | false => exact (h hname hmod pre rule post hrules hlooked htags hpre).1 a hends
    · rw [hfold] at hloud ⊢
      have hfinal : Remembered obj now (lc.rules.flatMap (actionable obj))
          ((lc.rules.flatMap (actionable obj)).foldl (fun a r => passAction obj now r a) .none) :=
        remembered_foldl _ (List.Subset.refl _) (Or.inl (Or.inl rfl))
      rcases hfinal with hquiet | ⟨htrans, hrestore, rule, hkept, hdue⟩
      · exact absurd hquiet hloud
      · rw [htrans]
        obtain ⟨r, hr, hact⟩ := List.mem_flatMap.mp hkept
        obtain ⟨rfl, hlooked⟩ := lookedAt_of_mem hact
        cases htags : rule.filter.testTags obj.tags with
        | true => exact ⟨rule, hmatches rule hr hlooked htags, hdue⟩
        | false =>
          obtain ⟨pre, post, hrules⟩ := List.append_of_mem hr
          rw [hrules] at hnone
          refine (h hname hmod pre rule post hrules hlooked htags ?_).2 ?_ hrestore hdue
          · intro q hq
            exact hnone q (List.mem_append_left _ hq)
          · intro q hq
            exact hnone q (List.mem_append_right _ hq)

/-- An expiry after one day for the objects with the tag `a=b`, with one for their noncurrent versions. -/
def taggedRule : Rule where
  id := []
  status := .enabled
  filter := ⟨true, ⟨[], false⟩, ⟨⟨[], false⟩, []⟩, ⟨lit "a", lit "b"⟩⟩
  pre := ⟨[], false⟩
  expiration := ⟨1, zeroTime, false, false, true⟩
  transition := ⟨0, zeroTime, [], false⟩
  noncurrentVersionExpiration := ⟨1, 0, true⟩
  noncurrentVersionTransition := ⟨0, [], false⟩

/-- An object of the epoch with the given tags. -/
def epochObject (tags : GoString) : ObjectOpts :=
  ⟨lit "report", tags, 0, [], true, false, 1, zeroTime, [], zeroTime⟩

/-- An object with the tags of the only rule: it is deleted, and the rule has that due. -/
theorem acts_on_matching_iff_tagged :
    LifecycleConfiguration.validate ⟨[taggedRule]⟩ = none ∧
      computeAction ⟨[taggedRule]⟩ (epochObject (lit "a=b")) (3 * day) = .delete ∧
      Guarded ⟨[taggedRule]⟩ (epochObject (lit "a=b")) (3 * day) ∧
      Backed ⟨[taggedRule]⟩ (epochObject (lit "a=b")) (3 * day) .delete := by
  have hguarded : Guarded ⟨[taggedRule]⟩ (epochObject (lit "a=b")) (3 * day) := by
    intro _ _ pre rule post hrules _ htags
    have hrule : rule ∈ [taggedRule] := by
      rw [show [taggedRule] = pre ++ rule :: post from hrules]
      simp
    rw [List.mem_singleton.mp hrule] at htags
    exact absurd htags (by decide)
  have hdelete : computeAction ⟨[taggedRule]⟩ (epochObject (lit "a=b")) (3 * day) = .delete := by decide
  have hbacked := (acts_on_matching_iff _ (by decide) _ _).mpr hguarded
  rw [hdelete] at hbacked
  exact ⟨by decide, hdelete, hguarded, hbacked (by rintro (h | h | h) <;> cases h)⟩

/-- **An object without the tags of the rule is deleted**: the rule is kept for its noncurrent versions. -/
theorem deletes_untagged :
    LifecycleConfiguration.validate ⟨[taggedRule]⟩ = none ∧
      computeAction ⟨[taggedRule]⟩ (epochObject []) (3 * day) = .delete ∧
      ¬ Backed ⟨[taggedRule]⟩ (epochObject []) (3 * day) .delete := by
  refine ⟨by decide, by decide, ?_⟩
  rintro ⟨rule, hmatch, -⟩
  have htags := hmatch.tagged
  rw [List.mem_singleton.mp hmatch.mem] at htags
  exact absurd htags (by decide)

end Zs3Server.Lifecycle
