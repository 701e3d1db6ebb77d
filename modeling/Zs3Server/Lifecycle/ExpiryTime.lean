import Zs3Server.Lib.GoTime

/-!
# The time at which a rule is due

`ExpectedExpiryTime` adds whole days to a time and goes back to the midnight before.  The days are first
made a `time.Duration`, an `int64` of nanoseconds, which holds no more than 106751 days.

* `expectedExpiryTime` — the computation, with its wrap-around;
* `truncate_day` — the midnight before a time;
* `expiry_exact_iff` — the expiry is the midnight in the right day exactly for days that fit;
* `expiry_wraps` — an object of today that expired long before it was made.
-/

namespace Zs3Server.Lifecycle

open Lib.GoInt64
open Lib.GoTime (zeroTime second hour)

def day : ℤ := 24 * hour

/-- `Truncate(24 * time.Hour)`, back to a multiple of a day since the zero time. -/
def truncateDay (t : ℤ) : ℤ := t - (t - zeroTime) % day

/-- `ExpectedExpiryTime`. -/
def expectedExpiryTime (modTime days : ℤ) : ℤ :=
  if days = 0 then modTime
  else truncateDay (modTime + wrap64 (wrap64 (wrap64 (days + 1) * 24) * hour))

theorem day_eq : day = 86400000000000 := by decide

/-- The midnight before a time, less than a day away. -/
theorem truncate_day (t : ℤ) :
    truncateDay t % day = 0 ∧ truncateDay t ≤ t ∧ t - day < truncateDay t := by
  unfold truncateDay zeroTime second
  rw [day_eq]
  omega

theorem truncateDay_mono {t t' : ℤ} (h : t ≤ t') : truncateDay t ≤ truncateDay t' := by
  unfold truncateDay zeroTime second
  rw [day_eq]
  omega

/-- The wrapped products are one wrapped product. -/
theorem wrap_days (days : ℤ) :
    wrap64 (wrap64 (wrap64 (days + 1) * 24) * hour) = wrap64 ((days + 1) * day) := by
  have hassoc : (days + 1) * day = (days + 1) * 24 * hour := by
    unfold day
    ring
  rw [hassoc]
  unfold wrap64
  rw [Int.bmod_mul_bmod, Int.mul_assoc, Int.bmod_mul_bmod, Int.mul_assoc]

/-- The greatest number of days whose duration fits. -/
def maxDays : ℤ := 106750

/-- The days fit. -/
theorem wrap_of_le {days : ℤ} (hpos : 0 < days) (h : days ≤ maxDays) :
    wrap64 ((days + 1) * day) = (days + 1) * day := by
  unfold maxDays at h
  rw [day_eq]
  refine wrap64_of_mem ?_
  unfold IsInt64
  omega

/-- The days do not fit: the duration is less than the days. -/
theorem wrap_of_gt {days : ℤ} (h : maxDays < days) : wrap64 ((days + 1) * day) ≤ days * day := by
  unfold maxDays at h
  by_cases hfirst : days = 106751
  · subst hfirst
    decide
  · have hlt : wrap64 ((days + 1) * day) < 2 ^ 63 := Int.bmod_lt (by norm_num)
    rw [day_eq] at hlt ⊢
    omega

/-- **What the expiry is for**: a midnight after the days have passed and no more than a day later, and no
earlier than for fewer days. -/
structure Exact (modTime days : ℤ) : Prop where
  midnight : expectedExpiryTime modTime days % day = 0
  after : modTime + days * day < expectedExpiryTime modTime days
  within : expectedExpiryTime modTime days ≤ modTime + (days + 1) * day
  mono : ∀ fewer, 0 < fewer → fewer ≤ days →
    expectedExpiryTime modTime fewer ≤ expectedExpiryTime modTime days

theorem expectedExpiryTime_of_le {days : ℤ} (hpos : 0 < days) (h : days ≤ maxDays) (modTime : ℤ) :
    expectedExpiryTime modTime days = truncateDay (modTime + (days + 1) * day) := by
  unfold expectedExpiryTime
  rw [if_neg hpos.ne', wrap_days, wrap_of_le hpos h]

/-- **The expiry is exact for the days whose duration fits, and for no others.** -/
theorem expiry_exact_iff (modTime days : ℤ) (hpos : 0 < days) : Exact modTime days ↔ days ≤ maxDays := by
  constructor
  · intro h
    by_contra hgt
    have hafter := h.after
    unfold expectedExpiryTime at hafter
    rw [if_neg hpos.ne', wrap_days] at hafter
    have hle := (truncate_day (modTime + wrap64 ((days + 1) * day))).2.1
    have hwrap := wrap_of_gt (not_le.mp hgt)
    omega
  · intro h
    have hval := expectedExpiryTime_of_le hpos h
    obtain ⟨hmid, hle, hgt⟩ := truncate_day (modTime + (days + 1) * day)
    refine ⟨?_, ?_, ?_, ?_⟩
    · rw [hval]
      exact hmid
    · rw [hval]
      have hsucc : (days + 1) * day = days * day + day := by ring
      omega
    · rw [hval]
      exact hle
    · intro fewer hfewer hlt
      rw [hval, expectedExpiryTime_of_le hfewer (hlt.trans h)]
      refine truncateDay_mono ?_
      have hday : (0 : ℤ) ≤ day := by decide
      have hmul := mul_le_mul_of_nonneg_right (show fewer + 1 ≤ days + 1 by omega) hday
      omega

theorem expiry_exact_iff_max : Exact 0 106750 ↔ (106750 : ℤ) ≤ maxDays :=
  expiry_exact_iff 0 106750 (by decide)

/-- **300 years from now is long ago**: an object of 2024 with a rule of 109500 days. -/
theorem expiry_wraps : expectedExpiryTime (1704067200 * second) 109500 < 1704067200 * second ∧
    ¬ Exact (1704067200 * second) 109500 := by
  have hearly : expectedExpiryTime (1704067200 * second) 109500 < 1704067200 * second := by decide
  refine ⟨hearly, ?_⟩
  intro h
  have hafter := h.after
  have hday : (0 : ℤ) < 109500 * day := by decide
  omega

end Zs3Server.Lifecycle
