import Zs3Server.Lifecycle.ComputeAction

/-!
# The quick check for active rules

`HasActiveRules` looks at the rules alone, before the objects below a prefix are listed.  It passes over a
rule that only removes delete markers.

* `activeRule_iff` — the rules that the check sees;
* `seen_of_due` — a rule with an action due is one of them, unless it removes delete markers;
* `never_hides_iff` — the configurations in which the check is true wherever there is work;
* `hides_delete_marker` — one in which it is not.
-/

namespace Zs3Server.Lifecycle

open Lib.ByteString
open Lib.GoInt64
open Lib.GoTime (zeroTime hour)

def Expiration.isNull (e : Expiration) : Bool := e.isDaysNull && e.isDateNull

/-- One round of `HasActiveRules`. -/
def activeRule (pre : GoString) (recursive : Bool) (now : ℤ) (rule : Rule) : Bool :=
  if rule.status = .disabled then false
  else if 0 < pre.length ∧ 0 < rule.getPrefix.length ∧ !recursive ∧ !rule.getPrefix.isPrefixOf pre then false
  else if 0 < pre.length ∧ 0 < rule.getPrefix.length ∧ recursive ∧
      !rule.getPrefix.isPrefixOf pre ∧ !pre.isPrefixOf rule.getPrefix then false
  else if 0 < rule.noncurrentVersionExpiration.noncurrentDays then true
  else if 0 < rule.noncurrentVersionExpiration.newerNoncurrentVersions then true
  else if !rule.noncurrentVersionTransition.isNull then true
  else if rule.expiration.isNull && rule.transition.isNull then false
  else if !rule.expiration.isDateNull && rule.expiration.date < now then true
  else if !rule.expiration.isDaysNull then true
  else if !rule.transition.isDateNull && rule.transition.date < now then true
  else !rule.transition.isNull

/-- `HasActiveRules` at a given time. -/
def hasActiveRules (lc : LifecycleConfiguration) (pre : GoString) (recursive : Bool) (now : ℤ) : Bool :=
  lc.rules.any (activeRule pre recursive now)

/-! ### The rules that are seen -/

/-- The rule is seen at all times. -/
def Lasting (rule : Rule) : Prop :=
  0 < rule.noncurrentVersionExpiration.noncurrentDays ∨
    0 < rule.noncurrentVersionExpiration.newerNoncurrentVersions ∨
    rule.noncurrentVersionTransition.isNull = false ∨ rule.expiration.isDaysNull = false ∨
    rule.transition.isNull = false

/-- The rule has a date that has passed. -/
def Dated (now : ℤ) (rule : Rule) : Prop :=
  rule.expiration.isDateNull = false ∧
    (rule.expiration.date < now ∨ rule.transition.isDateNull = false ∧ rule.transition.date < now)

/-- One name is the start of the other. -/
def Comparable (a b : GoString) : Prop := a <+: b ∨ b <+: a

theorem Comparable.of_isPrefix {a b c : GoString} (h : Comparable a b) (hc : c <+: b) : Comparable a c := by
  rcases h with hab | hba
  · exact List.prefix_or_prefix_of_prefix hab hc
  · exact Or.inr (hc.trans hba)

/-- The prefix test of the recursive check. -/
theorem passes_prefix_iff (pre q : GoString) :
    ¬ (0 < pre.length ∧ 0 < q.length ∧ !q.isPrefixOf pre ∧ !pre.isPrefixOf q) ↔ Comparable q pre := by
  unfold Comparable
  rw [← List.isPrefixOf_iff_prefix, ← List.isPrefixOf_iff_prefix]
  cases pre with
  | nil => simp
  | cons c pre =>
    cases q with
    | nil => simp
    | cons d q =>
      simp only [List.length_cons, Nat.zero_lt_succ, true_and, Bool.not_eq_true', not_and, Bool.not_eq_false]
      constructor
      · intro h
        cases hq : (d :: q).isPrefixOf (c :: pre) with
        | true => exact Or.inl rfl
        | false => exact Or.inr (h hq)
      · intro h hq
        exact h.resolve_left (by rw [hq]; exact Bool.false_ne_true)

/-- **The rules that the check sees.** -/
theorem activeRule_iff (pre : GoString) (now : ℤ) (rule : Rule) :
    activeRule pre true now rule = true ↔
      rule.status ≠ .disabled ∧ Comparable rule.getPrefix pre ∧ (Lasting rule ∨ Dated now rule) := by
  unfold activeRule
  split
  · next hdisabled => simp [hdisabled]
  · next hstatus =>
    rw [if_neg (by simp), ← passes_prefix_iff]
    simp only [true_and]
    split
    · next hpre => exact iff_of_false Bool.false_ne_true (fun h => h.2.1 hpre)
    · next hpre =>
      have hsplit : (Lasting rule ∨ Dated now rule) ↔
          rule.status ≠ .disabled ∧ ¬ (0 < pre.length ∧ 0 < rule.getPrefix.length ∧
            !rule.getPrefix.isPrefixOf pre ∧ !pre.isPrefixOf rule.getPrefix) ∧
            (Lasting rule ∨ Dated now rule) :=
        ⟨fun h => ⟨hstatus, hpre, h⟩, fun h => h.2.2⟩
      rw [← hsplit]
      unfold Lasting Dated Expiration.isNull
      by_cases hdays : 0 < rule.noncurrentVersionExpiration.noncurrentDays
      · simp [hdays]
      · by_cases hnewer : 0 < rule.noncurrentVersionExpiration.newerNoncurrentVersions
        · simp [hdays, hnewer]
        · cases hnon : rule.noncurrentVersionTransition.isNull <;>
            cases hexp : rule.expiration.isDaysNull <;>
              cases hdate : rule.expiration.isDateNull <;>
                cases htrans : rule.transition.isNull <;> simp [hdays, hnewer]

/-! ### Rules that act unseen -/

/-- The rule removes delete markers, or has a negative number of days (which a configuration that was read
from a document does not have). -/
def Unseen (rule : Rule) : Prop :=
  rule.expiration.deleteMarkerVal = true ∨
    rule.noncurrentVersionExpiration.noncurrentDays < 0 ∧
      ¬ 0 < rule.noncurrentVersionExpiration.newerNoncurrentVersions

/-- A rule with an action due is seen, or acts unseen. -/
theorem seen_of_due {obj : ObjectOpts} {now : ℤ} {rule : Rule} {a : Action} (h : Due obj now rule a) :
    Unseen rule ∨ Lasting rule ∨ Dated now rule := by
  cases a with
  | deleteVersion =>
    rcases h with ⟨-, hmarker | ⟨hdays, -⟩⟩ | ⟨-, hdays, hnewer, -⟩
    · exact Or.inl (Or.inl hmarker)
    · exact Or.inr (Or.inl (Or.inr (Or.inr (Or.inr (Or.inl hdays)))))
    · have hne : rule.noncurrentVersionExpiration.noncurrentDays ≠ 0 := by
        simpa [NoncurrentVersionExpiration.isDaysNull] using hdays
      rcases lt_or_gt_of_ne hne with hneg | hpos
      · exact Or.inl (Or.inr ⟨hneg, hnewer⟩)
      · exact Or.inr (Or.inl (Or.inl hpos))
  | transitionVersion =>
    obtain ⟨-, -, -, due, hnext, -⟩ := h
    refine Or.inr (Or.inl (Or.inr (Or.inr (Or.inl ?_))))
    unfold NoncurrentVersionTransition.nextDue at hnext
    unfold NoncurrentVersionTransition.isNull
    split at hnext
    · cases hnext
    · next hclass => simp_all
  | delete =>
    rcases h with ⟨-, ⟨hdate, hlt⟩ | ⟨hdays, -⟩⟩
    · exact Or.inr (Or.inr ⟨hdate, Or.inl hlt⟩)
    · exact Or.inr (Or.inl (Or.inr (Or.inr (Or.inr (Or.inl hdays)))))
  | transition =>
    obtain ⟨-, -, due, hnext, -⟩ := h
    refine Or.inr (Or.inl (Or.inr (Or.inr (Or.inr (Or.inr ?_)))))
    unfold Transition.nextDue at hnext
    split at hnext
    · cases hnext
    · next hclass => simp_all
  | none => exact absurd h id
  | deleteRestored => exact absurd h id
  | deleteRestoredVersion => exact absurd h id

/-- Where there is work, a kept rule has it due. -/
theorem exists_due {lc : LifecycleConfiguration} {obj : ObjectOpts} {now : ℤ}
    (h : ¬ (computeAction lc obj now).Quiet) :
    ∃ rule ∈ filterActionableRules lc obj, ∃ a, Due obj now rule a := by
  unfold computeAction at h
  split at h
  · exact absurd (Or.inl rfl) h
  · rcases computeLoop_cases (filterActionableRules lc obj) .none with
      ⟨pre, r, post, a, hrules, -, hstop, -⟩ | ⟨-, hfold⟩
    · refine ⟨r, ?_, a, due_of_stopAction hstop⟩
      rw [hrules]
      exact List.mem_append_right pre List.mem_cons_self
    · rw [hfold] at h
      rcases remembered_foldl (filterActionableRules lc obj) (List.Subset.refl _)
        (Or.inl (Or.inl rfl)) with hquiet | ⟨-, -, r, hr, hdue⟩
      · exact absurd hquiet h
      · exact ⟨r, hr, .transition, hdue⟩

/-- A kept rule that returns an action makes work. -/
theorem not_quiet_of_stop {lc : LifecycleConfiguration} {obj : ObjectOpts} {now : ℤ} {rule : Rule}
    (hmod : obj.modTime ≠ zeroTime) (hmem : rule ∈ filterActionableRules lc obj) {a : Action}
    (hstop : stopAction obj now rule = some a) : ¬ (computeAction lc obj now).Quiet := by
  unfold computeAction
  rw [if_neg hmod]
  rcases computeLoop_cases (filterActionableRules lc obj) .none with
    ⟨pre, r, post, a', -, -, hstop', heq⟩ | ⟨hall, -⟩
  · rw [heq]
    exact not_quiet_of_due (due_of_stopAction hstop')
  · rw [hall rule hmem] at hstop
    cases hstop

theorem mem_filterActionableRules_of_unseen {lc : LifecycleConfiguration} {obj : ObjectOpts} {rule : Rule}
    (hmem : rule ∈ lc.rules) (hstatus : rule.status ≠ .disabled) (hunseen : Unseen rule)
    (hname : obj.name ≠ []) (hpre : rule.getPrefix <+: obj.name) : rule ∈ filterActionableRules lc obj := by
  unfold filterActionableRules
  rw [if_neg hname]
  refine List.mem_flatMap.mpr ⟨rule, hmem, ?_⟩
  unfold actionable
  rw [if_neg hstatus, if_neg (by rw [List.isPrefixOf_iff_prefix.mpr hpre]; decide)]
  split
  · exact List.mem_singleton_self rule
  · next hmarker =>
    have hdays := (hunseen.resolve_left hmarker).1
    rw [if_pos (by simp [NoncurrentVersionExpiration.isDaysNull]; omega)]
    exact List.mem_singleton_self rule

/-- A delete marker that is the only version of an object. -/
def loneMarker (name : GoString) : ObjectOpts := ⟨name, [], 0, [], true, true, 1, zeroTime, [], zeroTime⟩

/-- A version that was replaced at the given time. -/
def replacedAt (name : GoString) (t : ℤ) : ObjectOpts :=
  ⟨name, [], 0, lit "v", false, false, 2, t, [], zeroTime⟩

/-- A rule that acts unseen makes work at any time. -/
theorem unseen_acts {lc : LifecycleConfiguration} {rule : Rule} (hmem : rule ∈ lc.rules)
    (hstatus : rule.status ≠ .disabled) (hunseen : Unseen rule) {name : GoString} (hname : name ≠ [])
    (hpre : rule.getPrefix <+: name) (now : ℤ) :
    ∃ obj : ObjectOpts, obj.name = name ∧ ¬ (computeAction lc obj now).Quiet := by
  by_cases hmarker : rule.expiration.deleteMarkerVal = true
  · refine ⟨loneMarker name, rfl, ?_⟩
    have hkept : rule ∈ filterActionableRules lc (loneMarker name) :=
      mem_filterActionableRules_of_unseen hmem hstatus hunseen hname hpre
    refine not_quiet_of_stop (show (0 : ℤ) ≠ zeroTime by decide) hkept (a := .deleteVersion) ?_
    unfold stopAction
    rw [hmarker]
    rfl
  · obtain ⟨hdays, hnewer⟩ := hunseen.resolve_left hmarker
    -- replaced so long ago that the days have passed, whatever they wrap to
    obtain ⟨t, hzero, hold⟩ : ∃ t : ℤ, t < zeroTime ∧ t < now - 2 ^ 63 :=
      ⟨min zeroTime (now - 2 ^ 63) - 1, (sub_one_lt _).trans_le (min_le_left _ _),
        (sub_one_lt _).trans_le (min_le_right _ _)⟩
    have hexpired : expectedExpiryTime t rule.noncurrentVersionExpiration.noncurrentDays < now := by
      unfold expectedExpiryTime
      rw [if_neg hdays.ne]
      have hlt := (isInt64_wrap64
        (wrap64 (wrap64 (rule.noncurrentVersionExpiration.noncurrentDays + 1) * 24) * hour)).2
      exact (truncate_day _).2.1.trans_lt (by omega)
    refine ⟨replacedAt name t, rfl, ?_⟩
    have hkept : rule ∈ filterActionableRules lc (replacedAt name t) :=
      mem_filterActionableRules_of_unseen hmem hstatus hunseen hname hpre
    refine not_quiet_of_stop (show (0 : ℤ) ≠ zeroTime by decide) hkept (a := .deleteVersion) ?_
    have hnull : rule.noncurrentVersionExpiration.isDaysNull = false := by
      simp [NoncurrentVersionExpiration.isDaysNull, hdays.ne]
    have hnon : (replacedAt name t).noncurrent = true := by
      simp [ObjectOpts.noncurrent, replacedAt, hzero.ne, lit]
    have hmark : (replacedAt name t).expiredObjectDeleteMarker = false := rfl
    have hexpired' : expectedExpiryTime (replacedAt name t).successorModTime
        rule.noncurrentVersionExpiration.noncurrentDays < now := hexpired
    unfold stopAction skipped
    simp [hmark, hnull, hnon, hnewer, hexpired']

/-- A time at which no date has passed. -/
theorem exists_early (rules : List Rule) : ∃ now, ∀ rule ∈ rules, ¬ Dated now rule := by
  induction rules with
  | nil => exact ⟨0, by simp⟩
  | cons r rules ih =>
    obtain ⟨now, hnow⟩ := ih
    refine ⟨min now (min r.expiration.date r.transition.date), ?_⟩
    intro rule hrule hdated
    rcases List.mem_cons.mp hrule with rfl | hmem
    · rcases hdated.2 with h | h <;> omega
    · refine hnow rule hmem ⟨hdated.1, ?_⟩
      rcases hdated.2 with h | ⟨hnull, h⟩
      · exact Or.inl (by omega)
      · exact Or.inr ⟨hnull, by omega⟩

/-! ### The check and the work -/

/-- Every name that a rule acts on unseen is below or above the prefix of a rule that is always seen. -/
def Announced (lc : LifecycleConfiguration) : Prop :=
  ∀ rule ∈ lc.rules, rule.status ≠ .disabled → Unseen rule → ∀ name, name ≠ [] → rule.getPrefix <+: name →
    ∃ r ∈ lc.rules, r.status ≠ .disabled ∧ Lasting r ∧ Comparable r.getPrefix name

/-- **When the quick check never hides work.** -/
theorem never_hides_iff (lc : LifecycleConfiguration) :
    (∀ (pre : GoString) (obj : ObjectOpts) (now : ℤ), pre <+: obj.name →
      ¬ (computeAction lc obj now).Quiet → hasActiveRules lc pre true now = true) ↔ Announced lc := by
  unfold hasActiveRules
  simp only [List.any_eq_true, activeRule_iff]
  constructor
  · intro h rule hmem hstatus hunseen name hname hpre
    obtain ⟨now, hearly⟩ := exists_early lc.rules
    obtain ⟨obj, hobj, hwork⟩ := unseen_acts hmem hstatus hunseen hname hpre now
    obtain ⟨r, hr, hstatus', hcomp, hseen⟩ := h name obj now (by rw [hobj]) hwork
    exact ⟨r, hr, hstatus', hseen.resolve_right (hearly r hr), hcomp⟩
  · intro h pre obj now hpre hwork
    obtain ⟨rule, hkept, a, hdue⟩ := exists_due hwork
    obtain ⟨hmem, hstatus, hnamed⟩ := mem_filterActionableRules hkept
    rcases seen_of_due hdue with hunseen | hseen
    · have hname : obj.name ≠ [] := by
        intro hnil
        unfold filterActionableRules at hkept
        rw [if_pos hnil] at hkept
        cases hkept
      obtain ⟨r, hr, hstatus', hlasting, hcomp⟩ := h rule hmem hstatus hunseen obj.name hname hnamed
      exact ⟨r, hr, hstatus', hcomp.of_isPrefix hpre, Or.inl hlasting⟩
    · exact ⟨rule, hmem, hstatus, (show Comparable rule.getPrefix obj.name from Or.inl hnamed).of_isPrefix hpre,
        hseen⟩

/-- A rule that removes delete markers, and nothing else. -/
def markerRule : Rule where
  id := []
  status := .enabled
  filter := ⟨true, ⟨[], true⟩, ⟨⟨[], false⟩, []⟩, ⟨[], []⟩⟩
  pre := ⟨[], false⟩
  expiration := ⟨0, zeroTime, true, true, true⟩
  transition := ⟨0, zeroTime, [], false⟩
  noncurrentVersionExpiration := ⟨0, 0, false⟩
  noncurrentVersionTransition := ⟨0, [], false⟩

/-- **A delete marker is removed, and the check sees no active rule.** -/
theorem hides_delete_marker :
    LifecycleConfiguration.validate ⟨[markerRule]⟩ = none ∧
      computeAction ⟨[markerRule]⟩ (loneMarker (lit "a")) (3 * day) = .deleteVersion ∧
      hasActiveRules ⟨[markerRule]⟩ [] true (3 * day) = false := by
  refine ⟨by decide, by decide, by decide⟩

end Zs3Server.Lifecycle
