import Zs3Server.Lib.GoSort
import Zs3Server.Lib.GoUtf8

/-!
# The replication rules for an object

A replication configuration has rules with different priorities.  `FilterActionableRules` keeps those
that match an object and sorts them by a comparison that relates rules of one destination only.

* `matching_iff` — the rules kept are the enabled ones that match;
* `strictWeakOrderOn_iff` — the comparison is a strict weak order only if the rules have one
  destination, or each its own;
* `applied_by_priority_iff` — when every sorting function puts each destination's rules by priority;
* `replicate_highest` — with one destination, the rule of highest priority decides.
-/

namespace Zs3Server.Replication

open Lib.ByteString Lib.GoSort Lib.GoUtf8

inductive Status where
  | enabled | disabled | unset | other
  deriving DecidableEq

structure Tag where
  key : GoString
  value : GoString
  deriving DecidableEq

structure And where
  pre : GoString
  tags : List Tag
  deriving DecidableEq

structure Filter where
  pre : GoString
  and : And
  tag : Tag
  deriving DecidableEq

structure Destination where
  bucket : GoString
  arn : GoString
  deriving DecidableEq

structure Rule where
  id : GoString
  status : Status
  priority : ℤ
  deleteMarkerReplication : Status
  deleteReplication : Status
  destination : Destination
  replicaModifications : Status
  filter : Filter
  existingObjectReplication : Status
  deriving DecidableEq

structure Config where
  rules : List Rule
  roleArn : GoString

inductive OpType where
  | unset | object | delete | metadata | heal | existingObject | resync
  deriving DecidableEq

structure ObjectOpts where
  name : GoString
  userTags : GoString
  versionID : GoString
  ssec : Bool
  opType : OpType
  replica : Bool
  existingObject : Bool
  targetArn : GoString

/-! ## Validation -/

inductive ConfigError where
  | tooManyRules | noRule | uniquePriority | destinationArnMissing | roleArnPresentForMultipleTargets
  | roleArnMissingLegacy | invalidRuleID | emptyRuleStatus | invalidRuleStatus | invalidFilter
  | duplicateTagKey | invalidTagKey | invalidTagValue | deleteMarkerReplicationMissing
  | invalidDeleteMarkerReplicationStatus | deleteReplicationMissing | invalidDeleteReplicationStatus
  | invalidSourceSelectionCriteria | priorityMissing | destinationSourceIdentical
  | invalidExistingObjectReplicationStatus
  deriving DecidableEq

def Tag.isEmpty (t : Tag) : Bool := t.key == []

def Tag.text (t : Tag) : GoString := t.key ++ lit "=" ++ t.value

def Tag.validate (t : Tag) : Option ConfigError :=
  if t.key = [] ∨ runeCount t.key > 128 then some .invalidTagKey
  else if runeCount t.value > 256 then some .invalidTagValue
  else none

def And.isEmpty (a : And) : Bool := a.tags.isEmpty && a.pre == []

def And.validate (a : And) : Option ConfigError :=
  if ¬ (a.tags.map Tag.key).Nodup then some .duplicateTagKey else a.tags.findSome? Tag.validate

def Filter.validate (f : Filter) : Option ConfigError :=
  let and := if f.and.isEmpty then none
    else if f.pre ≠ [] ∨ ¬ f.tag.isEmpty then some .invalidFilter
    else f.and.validate
  and.or <| if f.pre ≠ [] ∧ ¬ f.tag.isEmpty then some .invalidFilter
    else if f.tag.isEmpty then none else f.tag.validate

/-- A status that has to be set, with the errors for none and for another one. -/
def Status.validate (missing invalid : ConfigError) : Status → Option ConfigError
  | .enabled | .disabled => none
  | .unset => some missing
  | .other => some invalid

/-- A status that may be left out. -/
def Status.validateOptional (invalid : ConfigError) : Status → Option ConfigError
  | .other => some invalid
  | _ => none

def Rule.validate (r : Rule) (bucket : GoString) (sameTarget : Bool) : Option ConfigError :=
  (if r.id.length > 255 then some .invalidRuleID else none).or <|
  (r.status.validate .emptyRuleStatus .invalidRuleStatus).or <|
  r.filter.validate.or <|
  (r.deleteMarkerReplication.validate .deleteMarkerReplicationMissing
    .invalidDeleteMarkerReplicationStatus).or <|
  (r.deleteReplication.validate .deleteReplicationMissing .invalidDeleteReplicationStatus).or <|
  (r.replicaModifications.validateOptional .invalidSourceSelectionCriteria).or <|
  (if r.priority < 0 then some .priorityMissing else none).or <|
  (if r.destination.bucket = bucket ∧ sameTarget then some .destinationSourceIdentical else none).or <|
  r.existingObjectReplication.validateOptional .invalidExistingObjectReplicationStatus

def Destination.legacyArn (d : Destination) : Bool := (lit "arn:aws:s3:::").isPrefixOf d.arn

def Destination.isTargetArn (d : Destination) : Bool := (lit "arn:minio:replication:").isPrefixOf d.arn

/-- The loop over the rules, with the priorities seen so far. -/
def validateRules (roleArn bucket : GoString) (sameTarget : Bool) : List ℤ → List Rule → Option ConfigError
  | _, [] => none
  | seen, r :: rest =>
    (r.validate bucket sameTarget).or <|
    if r.priority ∈ seen then some .uniquePriority
    else if roleArn = [] ∧ ¬ r.destination.isTargetArn then some .destinationArnMissing
    else validateRules roleArn bucket sameTarget (r.priority :: seen) rest

def Config.validate (c : Config) (bucket : GoString) (sameTarget : Bool) : Option ConfigError :=
  if c.rules.length > 1000 then some .tooManyRules
  else if c.rules = [] then some .noRule
  else (validateRules c.roleArn bucket sameTarget [] c.rules).or <|
    if c.roleArn ≠ [] ∧ (c.rules.map fun r => r.destination.bucket).dedup.length > 1 then
      some .roleArnPresentForMultipleTargets
    else if c.roleArn = [] ∧ c.rules.any (fun r => r.destination.legacyArn) then some .roleArnMissingLegacy
    else none

/-! ## The rules for an object -/

def Rule.getPrefix (r : Rule) : GoString := if r.filter.pre ≠ [] then r.filter.pre else r.filter.and.pre

/-- All tags of the filter are among those of the object. -/
def Filter.testTags (f : Filter) (ttags : List GoString) : Bool :=
  ((f.and.tags ++ [f.tag]).filter fun t => !t.isEmpty).all fun t => ttags.contains t.text

/-- The loop's test of one rule. -/
def Config.keeps (c : Config) (obj : ObjectOpts) (rule : Rule) : Bool :=
  if rule.status = .disabled then false
  else if obj.targetArn ≠ [] ∧ rule.destination.arn ≠ obj.targetArn ∧ c.roleArn ≠ obj.targetArn then false
  else if obj.opType = .resync then true
  else if obj.existingObject ∧ rule.existingObjectReplication = .disabled then false
  else if ¬ rule.getPrefix.isPrefixOf obj.name then false
  else rule.filter.testTags (obj.userTags.splitOn 38)

/-- The comparison given to `sort.Slice`. -/
def comesFirst (a b : Rule) : Bool :=
  decide (a.priority > b.priority) && decide (a.destination.arn = b.destination.arn)

def Config.filterActionableRules (c : Config) (S : SliceSort Rule) (obj : ObjectOpts) : List Rule :=
  if obj.name = [] ∧ obj.opType ≠ .resync then []
  else S.sort comesFirst (c.rules.filter (c.keeps obj))

def Rule.metadataReplicate (r : Rule) (obj : ObjectOpts) : Bool :=
  if !obj.replica then true else r.replicaModifications == .enabled

/-- What the first rule that is not disabled says. -/
def Rule.replicates (r : Rule) (obj : ObjectOpts) : Bool :=
  if obj.existingObject ∧ r.existingObjectReplication = .disabled then false
  else if obj.opType = .delete then
    if obj.versionID ≠ [] then r.deleteReplication == .enabled else r.deleteMarkerReplication == .enabled
  else r.metadataReplicate obj

def replicateLoop (obj : ObjectOpts) : List Rule → Bool
  | [] => false
  | r :: rest => if r.status = .disabled then replicateLoop obj rest else r.replicates obj

def Config.replicate (c : Config) (S : SliceSort Rule) (obj : ObjectOpts) : Bool :=
  if obj.ssec then false else replicateLoop obj (c.filterActionableRules S obj)

/-! ## What is wanted -/

/-- A rule is enabled and matches the object. -/
def Config.Matches (c : Config) (obj : ObjectOpts) (r : Rule) : Prop :=
  r.status = .enabled ∧
    (obj.targetArn = [] ∨ r.destination.arn = obj.targetArn ∨ c.roleArn = obj.targetArn) ∧
      (obj.opType = .resync ∨
        obj.name ≠ [] ∧ ¬ (obj.existingObject = true ∧ r.existingObjectReplication = .disabled) ∧
          r.getPrefix <+: obj.name ∧
            ∀ t ∈ r.filter.and.tags ++ [r.filter.tag], t.key ≠ [] → t.text ∈ obj.userTags.splitOn 38)

/-- **The rules are applied by priority**: those of one destination come in decreasing priority, they
are the matching ones, each once, and the first for a destination is the one of highest priority. -/
structure AppliedByPriority (c : Config) (obj : ObjectOpts) (l : List Rule) : Prop where
  decreasing : l.Pairwise fun a b => a.destination.arn = b.destination.arn → b.priority < a.priority
  nodup : l.Nodup
  matching : ∀ r, r ∈ l ↔ r ∈ c.rules ∧ c.Matches obj r
  first : ∀ arn r, l.find? (fun r => decide (r.destination.arn = arn)) = some r →
    ∀ r' ∈ c.rules, c.Matches obj r' → r'.destination.arn = arn → r'.priority ≤ r.priority

/-- The matching rules have one destination. -/
def Config.OneDestination (c : Config) (obj : ObjectOpts) : Prop :=
  ∀ a ∈ c.rules, ∀ b ∈ c.rules, c.Matches obj a → c.Matches obj b →
    a.destination.arn = b.destination.arn

/-- Every matching rule has a destination of its own. -/
def Config.OwnDestinations (c : Config) (obj : ObjectOpts) : Prop :=
  ∀ a ∈ c.rules, ∀ b ∈ c.rules, c.Matches obj a → c.Matches obj b →
    a.destination.arn = b.destination.arn → a = b

/-! ## A validated configuration -/

theorem Status.eq_of_validate {missing invalid : ConfigError} {s : Status}
    (h : s.validate missing invalid = none) : s = .enabled ∨ s = .disabled := by
  cases s <;> simp [Status.validate] at h ⊢

theorem Rule.status_of_validate {r : Rule} {bucket : GoString} {sameTarget : Bool}
    (h : r.validate bucket sameTarget = none) : r.status = .enabled ∨ r.status = .disabled := by
  simp only [Rule.validate, Option.or_eq_none_iff] at h
  exact Status.eq_of_validate h.2.1

theorem validateRules_none {roleArn bucket : GoString} {sameTarget : Bool} {seen : List ℤ}
    {rules : List Rule} (h : validateRules roleArn bucket sameTarget seen rules = none) :
    (rules.map Rule.priority).Nodup ∧
      ∀ r ∈ rules, r.priority ∉ seen ∧ (r.status = .enabled ∨ r.status = .disabled) := by
  induction rules generalizing seen with
  | nil => simp
  | cons r rest ih =>
    simp only [validateRules, Option.or_eq_none_iff] at h
    obtain ⟨hr, hrest⟩ := h
    split at hrest
    · cases hrest
    next hseen =>
    split at hrest
    · cases hrest
    obtain ⟨hnodup, hall⟩ := ih hrest
    refine ⟨List.nodup_cons.mpr ⟨?_, hnodup⟩, ?_⟩
    · intro hmem
      obtain ⟨r', hr', hp⟩ := List.mem_map.mp hmem
      exact (hall r' hr').1 (hp ▸ List.mem_cons_self)
    · intro r' hr'
      rcases List.mem_cons.mp hr' with rfl | hr'
      · exact ⟨hseen, Rule.status_of_validate hr⟩
      · exact ⟨fun hmem => (hall r' hr').1 (List.mem_cons_of_mem _ hmem), (hall r' hr').2⟩

theorem Config.validate_none {c : Config} {bucket : GoString} {sameTarget : Bool}
    (h : c.validate bucket sameTarget = none) :
    (c.rules.map Rule.priority).Nodup ∧ ∀ r ∈ c.rules, r.status = .enabled ∨ r.status = .disabled := by
  rw [Config.validate] at h
  split at h
  · cases h
  split at h
  · cases h
  obtain ⟨hnodup, hall⟩ := validateRules_none (Option.or_eq_none_iff.mp h).1
  exact ⟨hnodup, fun r hr => (hall r hr).2⟩

/-! ## The rules kept -/

theorem Filter.testTags_iff (f : Filter) (ttags : List GoString) :
    f.testTags ttags = true ↔ ∀ t ∈ f.and.tags ++ [f.tag], t.key ≠ [] → t.text ∈ ttags := by
  simp [Filter.testTags, Tag.isEmpty, List.all_filter]
  grind

/-- The list before it is sorted. -/
def Config.kept (c : Config) (obj : ObjectOpts) : List Rule :=
  if obj.name = [] ∧ obj.opType ≠ .resync then [] else c.rules.filter (c.keeps obj)

theorem keeps_iff {c : Config} {obj : ObjectOpts} {r : Rule}
    (hstatus : r.status = .enabled ∨ r.status = .disabled)
    (hname : ¬ (obj.name = [] ∧ obj.opType ≠ .resync)) : c.keeps obj r = true ↔ c.Matches obj r := by
  simp only [Config.keeps, Config.Matches, ← Filter.testTags_iff, ← List.isPrefixOf_iff_prefix]
  rcases hstatus with h | h <;> grind

theorem matching_iff {c : Config} {bucket : GoString} {sameTarget : Bool}
    (hc : c.validate bucket sameTarget = none) (obj : ObjectOpts) (r : Rule) :
    r ∈ c.kept obj ↔ r ∈ c.rules ∧ c.Matches obj r := by
  obtain ⟨-, hstatus⟩ := Config.validate_none hc
  rw [Config.kept]
  split
  · next hname =>
    constructor
    · intro hr
      cases hr
    · intro hr
      rcases hr.2.2.2 with hop | hn
      · exact absurd hop hname.2
      · exact absurd hname.1 hn.1
  · next hname =>
    rw [List.mem_filter]
    constructor
    · intro hr
      exact ⟨hr.1, (keeps_iff (hstatus r hr.1) hname).mp hr.2⟩
    · intro hr
      exact ⟨hr.1, (keeps_iff (hstatus r hr.1) hname).mpr hr.2⟩

theorem filterActionableRules_eq (c : Config) (S : SliceSort Rule) (obj : ObjectOpts) :
    c.filterActionableRules S obj = S.sort comesFirst (c.kept obj) := by
  rw [Config.filterActionableRules, Config.kept]
  split
  · exact (S.perm comesFirst []).eq_nil.symm
  · rfl

theorem kept_priorities {c : Config} (hc : (c.rules.map Rule.priority).Nodup) (obj : ObjectOpts) :
    ((c.kept obj).map Rule.priority).Nodup := by
  rw [Config.kept]
  split
  · exact List.nodup_nil
  · exact hc.sublist (List.filter_sublist.map _)

/-! ## The comparison -/

theorem comesFirst_eq_false_iff {a b : Rule} :
    comesFirst a b = false ↔ (a.destination.arn = b.destination.arn → a.priority ≤ b.priority) := by
  simp only [comesFirst, Bool.and_eq_false_iff, decide_eq_false_iff_not, gt_iff_lt, not_lt]
  tauto

theorem comesFirst_iff {a b : Rule} :
    comesFirst a b = true ↔ b.priority < a.priority ∧ a.destination.arn = b.destination.arn := by
  simp [comesFirst]

theorem eq_of_priority {l : List Rule} (hl : (l.map Rule.priority).Nodup) {a b : Rule} (ha : a ∈ l)
    (hb : b ∈ l) (h : a.priority = b.priority) : a = b :=
  List.inj_on_of_nodup_map hl ha hb h

/-- **The comparison is a strict weak order only if the rules have one destination, or each its own**:
a rule of another destination cannot be compared with either of two rules that can. -/
theorem strictWeakOrderOn_iff {l : List Rule} (hl : (l.map Rule.priority).Nodup) :
    StrictWeakOrderOn comesFirst l ↔
      (∀ a ∈ l, ∀ b ∈ l, a.destination.arn = b.destination.arn) ∨
        ∀ a ∈ l, ∀ b ∈ l, a.destination.arn = b.destination.arn → a = b := by
  constructor
  · intro hswo
    by_contra hcon
    push Not at hcon
    obtain ⟨⟨c, hc, d, hd, hcd⟩, a, ha, b, hb, hab, hne⟩ := hcon
    -- one of the two destinations is not that of the pair
    obtain ⟨x, hx, hxa⟩ : ∃ x ∈ l, x.destination.arn ≠ a.destination.arn := by
      by_cases hca : c.destination.arn = a.destination.arn
      · exact ⟨d, hd, fun hda => hcd (hca.trans hda.symm)⟩
      · exact ⟨c, hc, hca⟩
    have hout : ∀ y, y.destination.arn = a.destination.arn →
        comesFirst y x = false ∧ comesFirst x y = false := by
      intro y hy
      constructor
      · exact comesFirst_eq_false_iff.mpr fun h => absurd (h.symm.trans hy) hxa
      · exact comesFirst_eq_false_iff.mpr fun h => absurd (h.trans hy) hxa
    have h₁ := hswo.incomparable a ha x hx b hb (hout a rfl).1 (hout a rfl).2 (hout b hab.symm).2
      (hout b hab.symm).1
    have h₂ := hswo.incomparable b hb x hx a ha (hout b hab.symm).1 (hout b hab.symm).2 (hout a rfl).2
      (hout a rfl).1
    have hle := comesFirst_eq_false_iff.mp h₁ hab
    have hge := comesFirst_eq_false_iff.mp h₂ hab.symm
    exact hne (eq_of_priority hl ha hb (le_antisymm hle hge))
  · intro h
    refine ⟨?_, ?_, ?_⟩
    · intro a _
      exact comesFirst_eq_false_iff.mpr fun _ => le_refl _
    · intro a _ b _ c _ hab hbc
      have h₁ := comesFirst_iff.mp hab
      have h₂ := comesFirst_iff.mp hbc
      exact comesFirst_iff.mpr ⟨h₂.1.trans h₁.1, h₁.2.trans h₂.2⟩
    · intro a ha b hb c hc hab hba hbc hcb
      refine comesFirst_eq_false_iff.mpr fun hac => ?_
      rcases h with hone | hown
      · have h₁ := comesFirst_eq_false_iff.mp hab (hone a ha b hb)
        exact h₁.trans (comesFirst_eq_false_iff.mp hbc (hone b hb c hc))
      · rw [hown a ha c hc hac]

/-! ## The result -/

/-- What is wanted follows from the order of the list. -/
theorem appliedByPriority_of_pairwise {c : Config} {bucket : GoString} {sameTarget : Bool}
    (hc : c.validate bucket sameTarget = none) {obj : ObjectOpts} {l : List Rule}
    (hperm : l.Perm (c.kept obj))
    (hl : l.Pairwise fun a b => a.destination.arn = b.destination.arn → b.priority < a.priority) :
    AppliedByPriority c obj l where
  decreasing := hl
  nodup := (hperm.nodup_iff).mpr (kept_priorities (Config.validate_none hc).1 obj).of_map
  matching r := hperm.mem_iff.trans (matching_iff hc obj r)
  first := by
    intro arn r hfind r' hr' hm harn
    obtain ⟨hr, as, bs, rfl, has⟩ := List.find?_eq_some_iff_append.mp hfind
    have hmem : r' ∈ as ++ r :: bs := hperm.mem_iff.mpr ((matching_iff hc obj r').mpr ⟨hr', hm⟩)
    rcases List.mem_append.mp hmem with hmem | hmem
    · exact absurd harn (by simpa using has r' hmem)
    rcases List.mem_cons.mp hmem with rfl | hmem
    · exact le_refl _
    · have hcons := (List.pairwise_cons.mp (List.pairwise_append.mp hl).2.1).1 r' hmem
      exact le_of_lt (hcons ((of_decide_eq_true hr).trans harn.symm))

/-- A sorting function that gives up where nothing is promised, and returns increasing priorities. -/
noncomputable def increasingSliceSort : SliceSort Rule where
  sort less l := open Classical in
    if StrictWeakOrderOn less l then insertionSort less l
    else l.mergeSort fun a b => decide (a.priority ≤ b.priority)
  perm less l := by
    split
    · exact insertionSort_perm less l
    · exact List.mergeSort_perm _ _
  sorted less l h := by
    rw [if_pos h]
    exact insertionSliceSort.sorted less l h

theorem kept_strictWeakOrderOn_iff {c : Config} {bucket : GoString} {sameTarget : Bool}
    (hc : c.validate bucket sameTarget = none) (obj : ObjectOpts) :
    StrictWeakOrderOn comesFirst (c.kept obj) ↔ c.OneDestination obj ∨ c.OwnDestinations obj := by
  rw [strictWeakOrderOn_iff (kept_priorities (Config.validate_none hc).1 obj)]
  simp only [matching_iff hc obj, Config.OneDestination, Config.OwnDestinations]
  grind

theorem appliedByPriority_of_destinations {c : Config} {bucket : GoString} {sameTarget : Bool}
    (hc : c.validate bucket sameTarget = none) {obj : ObjectOpts}
    (h : c.OneDestination obj ∨ c.OwnDestinations obj) (S : SliceSort Rule) :
    AppliedByPriority c obj (c.filterActionableRules S obj) := by
  rw [filterActionableRules_eq]
  have hpri := kept_priorities (Config.validate_none hc).1 obj
  refine appliedByPriority_of_pairwise hc (S.perm _ _) ?_
  have hsorted := S.sorted comesFirst (c.kept obj) ((kept_strictWeakOrderOn_iff hc obj).mpr h)
  have hnodup : (S.sort comesFirst (c.kept obj)).Pairwise fun a b => a.priority ≠ b.priority :=
    List.pairwise_map.mp (((S.perm comesFirst (c.kept obj)).map Rule.priority).nodup_iff.mpr hpri)
  refine (hsorted.and hnodup).imp ?_
  intro a b hab heq
  exact lt_of_le_of_ne (comesFirst_eq_false_iff.mp hab.1 heq.symm) hab.2.symm

/-- **Two rules of one destination come in decreasing priority, with every sorting function, exactly
when the matching rules have one destination or each its own.** -/
theorem applied_by_priority_iff (c : Config) (bucket : GoString) (sameTarget : Bool)
    (hc : c.validate bucket sameTarget = none) (obj : ObjectOpts) :
    (∀ S : SliceSort Rule, AppliedByPriority c obj (c.filterActionableRules S obj)) ↔
      c.OneDestination obj ∨ c.OwnDestinations obj := by
  constructor
  · intro hall
    by_contra hcon
    have hswo := mt (kept_strictWeakOrderOn_iff hc obj).mp hcon
    have happ := hall increasingSliceSort
    rw [filterActionableRules_eq] at happ
    have hsort : increasingSliceSort.sort comesFirst (c.kept obj)
        = (c.kept obj).mergeSort fun a b => decide (a.priority ≤ b.priority) := if_neg hswo
    have hinc : (increasingSliceSort.sort comesFirst (c.kept obj)).Pairwise
        fun a b => decide (a.priority ≤ b.priority) = true := by
      rw [hsort]
      apply List.pairwise_mergeSort
      · intro a b d
        simpa using le_trans
      · intro a b
        simpa using le_total a.priority b.priority
    -- increasing and decreasing at once: no two rules share a destination
    have hdiff : ((increasingSliceSort.sort comesFirst (c.kept obj)).map
        fun r => r.destination.arn).Nodup := by
      refine List.pairwise_map.mpr ((hinc.and happ.decreasing).imp ?_)
      intro a b h heq
      exact absurd (h.2 heq) (not_lt.mpr (of_decide_eq_true h.1))
    refine hcon (Or.inr ?_)
    intro a ha b hb hma hmb heq
    exact List.inj_on_of_nodup_map hdiff ((happ.matching a).mpr ⟨ha, hma⟩)
      ((happ.matching b).mpr ⟨hb, hmb⟩) heq
  · intro h S
    exact appliedByPriority_of_destinations hc h S

/-- A rule of a test configuration: no filter, the destination `arn` and a priority. -/
def sampleRule (arn : GoString) (priority : ℤ) : Rule where
  id := []
  status := .enabled
  priority := priority
  deleteMarkerReplication := .enabled
  deleteReplication := .enabled
  destination := ⟨arn, lit "arn:minio:replication::" ++ arn⟩
  replicaModifications := .unset
  filter := ⟨[], ⟨[], []⟩, ⟨[], []⟩⟩
  existingObjectReplication := .unset

def sampleObject : ObjectOpts := ⟨lit "o", [], [], false, .object, false, false, []⟩

theorem applied_by_priority_one :
    (Config.mk [sampleRule (lit "a") 1, sampleRule (lit "a") 3] []).validate (lit "src") false = none ∧
      ∀ S : SliceSort Rule, AppliedByPriority ⟨[sampleRule (lit "a") 1, sampleRule (lit "a") 3], []⟩
        sampleObject (Config.filterActionableRules ⟨[sampleRule (lit "a") 1, sampleRule (lit "a") 3], []⟩
          S sampleObject) := by
  have hc : (Config.mk [sampleRule (lit "a") 1, sampleRule (lit "a") 3] []).validate (lit "src") false
      = none := by decide
  refine ⟨hc, (applied_by_priority_iff _ _ _ hc sampleObject).mpr (Or.inl ?_)⟩
  intro a ha b hb _ _
  simp only [List.mem_cons, List.not_mem_nil, or_false] at ha hb
  rcases ha with rfl | rfl <;> rcases hb with rfl | rfl <;> rfl

/-- **A rule of another destination in between**: three rules of the priorities 1, 2 and 3, the second
for another destination, stay in the order of the configuration. -/
theorem low_priority_first :
    (Config.mk [sampleRule (lit "a") 1, sampleRule (lit "b") 2, sampleRule (lit "a") 3] []).validate
        (lit "src") false = none ∧
      Config.filterActionableRules
          ⟨[sampleRule (lit "a") 1, sampleRule (lit "b") 2, sampleRule (lit "a") 3], []⟩
          insertionSliceSort sampleObject
        = [sampleRule (lit "a") 1, sampleRule (lit "b") 2, sampleRule (lit "a") 3] ∧
      ¬ AppliedByPriority ⟨[sampleRule (lit "a") 1, sampleRule (lit "b") 2, sampleRule (lit "a") 3], []⟩
        sampleObject [sampleRule (lit "a") 1, sampleRule (lit "b") 2, sampleRule (lit "a") 3] := by
  refine ⟨by decide, by decide, ?_⟩
  intro h
  have hlt := (List.pairwise_cons.mp h.decreasing).1 (sampleRule (lit "a") 3) (by simp) rfl
  exact absurd hlt (by decide)

/-- **What is replicated**: with one destination, the rule of highest priority decides. -/
theorem replicate_highest {c : Config} {bucket : GoString} {sameTarget : Bool}
    (hc : c.validate bucket sameTarget = none) {obj : ObjectOpts} (hone : c.OneDestination obj) {r : Rule}
    (hr : r ∈ c.rules) (hm : c.Matches obj r)
    (htop : ∀ r' ∈ c.rules, c.Matches obj r' → r'.priority ≤ r.priority) (S : SliceSort Rule) :
    c.replicate S obj = (!obj.ssec && r.replicates obj) := by
  have happ := appliedByPriority_of_destinations hc (Or.inl hone) S
  have hloop : replicateLoop obj (c.filterActionableRules S obj) = r.replicates obj := by
    cases hl : c.filterActionableRules S obj with
    | nil =>
      have hmem := (happ.matching r).mpr ⟨hr, hm⟩
      rw [hl] at hmem
      cases hmem
    | cons h rest =>
      rw [hl] at happ
      obtain ⟨hh, hmh⟩ := (happ.matching h).mp List.mem_cons_self
      have hfirst := happ.first h.destination.arn h (by simp) r hr hm (hone r hr h hh hm hmh)
      have heq : h = r := eq_of_priority (Config.validate_none hc).1 hh hr
        (le_antisymm (htop h hh hmh) hfirst)
      rw [replicateLoop, heq, if_neg (by rw [hm.1]; decide)]
  rw [Config.replicate, hloop]
  cases obj.ssec <;> rfl

theorem replicate_highest_three :
    (Config.mk [sampleRule (lit "a") 1, sampleRule (lit "a") 3] []).replicate insertionSliceSort
      sampleObject = true := by
  have hc : (Config.mk [sampleRule (lit "a") 1, sampleRule (lit "a") 3] []).validate (lit "src") false
      = none := by decide
  refine replicate_highest hc ?_ (r := sampleRule (lit "a") 3) (by decide) ?_ ?_ _
  · simp [Config.OneDestination, sampleRule]
  · unfold Config.Matches
    decide
  · simp [sampleRule]

end Zs3Server.Replication
