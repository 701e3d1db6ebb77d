import Zs3Server.Lib.GoUtf8
import Zs3Server.Lifecycle.ExpiryTime

/-!
# Lifecycle configurations

The rules of a lifecycle configuration and what its validation checks of them.

* `LifecycleConfiguration.validate` — the first error of a configuration;
* `Filter.testTags`, `Rule.getPrefix` — to which objects a rule applies;
* `Transition.nextDue`, `NoncurrentVersionTransition.nextDue` — when a transition is due;
* `status_of_validate` — in a configuration that is accepted a rule that is not disabled is enabled.
-/

namespace Zs3Server.Lifecycle

open Lib.ByteString
open Lib.GoUtf8
open Lib.GoTime (zeroTime)

inductive LifecycleError where
  | tooManyRules
  | noRule
  | duplicateID
  | xmlNotWellFormed
  | invalidRuleID
  | emptyRuleStatus
  | invalidRuleStatus
  | invalidDeleteMarker
  | invalidExpiration
  | transitionInvalid
  | invalidFilter
  | duplicateTagKey
  | invalidTagKey
  | invalidTagValue
  deriving DecidableEq

/-! ### Filters -/

/-- A prefix, which may be present and empty. -/
structure RulePrefix where
  text : GoString
  set : Bool

structure Tag where
  key : GoString
  value : GoString

def Tag.isEmpty (tag : Tag) : Bool := tag.key.isEmpty

def Tag.string (tag : Tag) : GoString := tag.key ++ lit "=" ++ tag.value

def Tag.validate (tag : Tag) : Option LifecycleError :=
  if tag.key.length = 0 ∨ 128 < runeCount tag.key then some .invalidTagKey
  else if 256 < runeCount tag.value then some .invalidTagValue
  else none

structure And where
  pre : RulePrefix
  tags : List Tag

def And.isEmpty (a : And) : Bool := a.tags.isEmpty && !a.pre.set

def containsDuplicateTag : List Tag → Bool
  | [] => false
  | t :: ts => ts.any (fun u => u.key = t.key) || containsDuplicateTag ts

def And.validate (a : And) : Option LifecycleError :=
  if !a.pre.set && a.tags.isEmpty then none
  else if !a.pre.set || a.tags.isEmpty then some .xmlNotWellFormed
  else if containsDuplicateTag a.tags then some .duplicateTagKey
  else a.tags.findSome? Tag.validate

structure Filter where
  set : Bool
  pre : RulePrefix
  and : And
  tag : Tag

def Filter.validate (f : Filter) : Option LifecycleError :=
  if !f.set then some .xmlNotWellFormed
  else if !f.and.isEmpty && (f.pre.set || !f.tag.isEmpty) then some .invalidFilter
  else
    (if !f.and.isEmpty then f.and.validate else none).or <|
    (if f.pre.set && !f.tag.isEmpty then some .invalidFilter else none).or <|
    if !f.tag.isEmpty then f.tag.validate else none

/-- `TestTags`: every tag of the filter is one of the given texts. -/
def Filter.testTags (f : Filter) (tags : List GoString) : Bool :=
  ((f.and.tags ++ [f.tag]).filter fun t => !t.isEmpty).all fun t => tags.contains t.string

/-! ### Actions -/

/-- What is read of an object. -/
structure ObjectOpts where
  name : GoString
  userTags : GoString
  modTime : ℤ
  versionID : GoString
  isLatest : Bool
  deleteMarker : Bool
  numVersions : ℤ
  successorModTime : ℤ
  transitionStatus : GoString
  restoreExpires : ℤ

structure Expiration where
  days : ℤ
  date : ℤ
  deleteMarkerVal : Bool
  deleteMarkerSet : Bool
  set : Bool

def Expiration.isDaysNull (e : Expiration) : Bool := e.days = 0

def Expiration.isDateNull (e : Expiration) : Bool := e.date = zeroTime

def Expiration.validate (e : Expiration) : Option LifecycleError :=
  if !e.set then none
  else if (!e.isDaysNull || !e.isDateNull) && e.deleteMarkerSet then some .invalidDeleteMarker
  else if !e.deleteMarkerSet && e.isDaysNull && e.isDateNull then some .xmlNotWellFormed
  else if !e.isDaysNull && !e.isDateNull then some .invalidExpiration
  else none

structure Transition where
  days : ℤ
  date : ℤ
  storageClass : GoString
  set : Bool

def Transition.isDateNull (t : Transition) : Bool := t.date = zeroTime

def Transition.isNull (t : Transition) : Bool := t.storageClass = []

def Transition.validate (t : Transition) : Option LifecycleError :=
  if !t.set then none
  else if !t.isDateNull && 0 < t.days then some .transitionInvalid
  else if t.storageClass = [] then some .xmlNotWellFormed
  else none

/-- `NextDue`; with `Days` 0 the object is due since it was made. -/
def Transition.nextDue (t : Transition) (obj : ObjectOpts) : Option ℤ :=
  if !obj.isLatest || t.isNull then none
  else if !t.isDateNull then some t.date
  else if t.days = 0 then some obj.modTime
  else some (expectedExpiryTime obj.modTime t.days)

structure NoncurrentVersionExpiration where
  noncurrentDays : ℤ
  newerNoncurrentVersions : ℤ
  set : Bool

def NoncurrentVersionExpiration.isDaysNull (n : NoncurrentVersionExpiration) : Bool := n.noncurrentDays = 0

def NoncurrentVersionExpiration.validate (n : NoncurrentVersionExpiration) : Option LifecycleError :=
  if !n.set then none
  else if n.noncurrentDays = 0 ∧ n.newerNoncurrentVersions = 0 then some .xmlNotWellFormed
  else if n.noncurrentDays < 0 ∨ n.newerNoncurrentVersions < 0 then some .xmlNotWellFormed
  else none

structure NoncurrentVersionTransition where
  noncurrentDays : ℤ
  storageClass : GoString
  set : Bool

def NoncurrentVersionTransition.isNull (n : NoncurrentVersionTransition) : Bool := n.storageClass = []

def NoncurrentVersionTransition.validate (n : NoncurrentVersionTransition) : Option LifecycleError :=
  if !n.set then none
  else if n.storageClass = [] then some .xmlNotWellFormed
  else none

def NoncurrentVersionTransition.nextDue (n : NoncurrentVersionTransition) (obj : ObjectOpts) : Option ℤ :=
  if obj.isLatest || n.storageClass = [] then none
  else if n.noncurrentDays = 0 then some obj.successorModTime
  else some (expectedExpiryTime obj.successorModTime n.noncurrentDays)

/-! ### Rules -/

/-- The status of a rule, which may be any text before it is validated. -/
inductive Status where
  | enabled
  | disabled
  | other (text : GoString)
  deriving DecidableEq

structure Rule where
  id : GoString
  status : Status
  filter : Filter
  pre : RulePrefix
  expiration : Expiration
  transition : Transition
  noncurrentVersionExpiration : NoncurrentVersionExpiration
  noncurrentVersionTransition : NoncurrentVersionTransition

/-- A rule without an ID is accepted: the one that is made for it is not kept. -/
def Rule.validateID (r : Rule) : Option LifecycleError :=
  if 255 < r.id.length then some .invalidRuleID else none

def Rule.validateStatus (r : Rule) : Option LifecycleError :=
  match r.status with
  | .enabled => none
  | .disabled => none
  | .other text => if text = [] then some .emptyRuleStatus else some .invalidRuleStatus

def Rule.validatePrefixAndFilter (r : Rule) : Option LifecycleError :=
  if !r.pre.set && !r.filter.set || r.pre.set && r.filter.set then some .xmlNotWellFormed
  else if !r.pre.set then r.filter.validate
  else none

/-- The prefix from where the rule has it. -/
def Rule.getPrefix (r : Rule) : GoString :=
  if r.pre.text ≠ [] then r.pre.text
  else if r.filter.pre.text ≠ [] then r.filter.pre.text
  else r.filter.and.pre.text

def Rule.validate (r : Rule) : Option LifecycleError :=
  r.validateID.or <| r.validateStatus.or <| r.expiration.validate.or <|
  r.noncurrentVersionExpiration.validate.or <| r.validatePrefixAndFilter.or <| r.transition.validate.or <|
  r.noncurrentVersionTransition.validate.or <|
  if !r.expiration.set && !r.transition.set && !r.noncurrentVersionExpiration.set &&
    !r.noncurrentVersionTransition.set then some .xmlNotWellFormed else none

structure LifecycleConfiguration where
  rules : List Rule

def duplicateID : List Rule → Bool
  | [] => false
  | r :: rs => rs.any (fun other => r.id = other.id) || duplicateID rs

/-- `Validate`; `none` is a valid configuration. -/
def LifecycleConfiguration.validate (lc : LifecycleConfiguration) : Option LifecycleError :=
  if 1000 < lc.rules.length then some .tooManyRules
  else if lc.rules.length = 0 then some .noRule
  else (lc.rules.findSome? Rule.validate).or <| if duplicateID lc.rules then some .duplicateID else none

/-- Every rule of an accepted configuration is accepted. -/
theorem rule_of_validate {lc : LifecycleConfiguration} (h : lc.validate = none) {r : Rule}
    (hr : r ∈ lc.rules) : r.validate = none := by
  unfold LifecycleConfiguration.validate at h
  split at h
  · cases h
  · split at h
    · cases h
    · exact List.findSome?_eq_none_iff.mp (Option.or_eq_none_iff.mp h).1 r hr

/-- **In an accepted configuration a rule is enabled or disabled.** -/
theorem status_of_validate {lc : LifecycleConfiguration} (h : lc.validate = none) {r : Rule} (hr : r ∈ lc.rules)
    (hstatus : r.status ≠ .disabled) : r.status = .enabled := by
  have hrule := rule_of_validate h hr
  have hvalid : r.validateStatus = none := by
    unfold Rule.validate at hrule
    exact (Option.or_eq_none_iff.mp (Option.or_eq_none_iff.mp hrule).2).1
  unfold Rule.validateStatus at hvalid
  cases hs : r.status with
  | enabled => rfl
  | disabled => exact absurd hs hstatus
  | other text =>
    rw [hs] at hvalid
    simp only at hvalid
    split at hvalid
    · cases hvalid
    · cases hvalid

/-- **In an accepted configuration an expiration has days or a date, not both.** -/
theorem expiration_of_validate {lc : LifecycleConfiguration} (h : lc.validate = none) {r : Rule}
    (hr : r ∈ lc.rules) (hset : r.expiration.set = true) :
    r.expiration.isDaysNull = true ∨ r.expiration.isDateNull = true := by
  have hrule := rule_of_validate h hr
  have hvalid : r.expiration.validate = none := by
    unfold Rule.validate at hrule
    exact (Option.or_eq_none_iff.mp
      (Option.or_eq_none_iff.mp (Option.or_eq_none_iff.mp hrule).2).2).1
  by_contra hboth
  rw [not_or, Bool.not_eq_true, Bool.not_eq_true] at hboth
  unfold Expiration.validate at hvalid
  rw [hset, hboth.1, hboth.2] at hvalid
  revert hvalid
  cases r.expiration.deleteMarkerSet <;> simp

end Zs3Server.Lifecycle
