import Zs3Server.Lib.GoTime

/-!
# Adding to timestamps and subtracting them

`DATE_ADD` of hours, minutes and seconds multiplies an `int64` duration of nanoseconds, which wraps,
and of days goes through the calendar; `DATE_DIFF` takes the difference of two timestamps as such a
duration, which saturates after 292 years.

* `date`, `addDate` — the calendar, as `time.Time` has it in UTC;
* `addDate_days` — a number of days is added exactly, up to the range of the seconds;
* `dateDiff_antisymm` — the difference the other way round is the opposite;
* `dateDiff_dateAdd_iff` — when the difference is what was added.
-/

namespace Zs3Server.S3Select.Timestamp

open Lib.GoInt64
open Lib.GoTime (second minute hour)

/-! ## The calendar -/

def isLeap (year : ℤ) : Bool := year % 4 == 0 && (year % 100 != 0 || year % 400 == 0)

/-- Days from 1970 to the first of January of a year. -/
def daysBeforeYear (year : ℤ) : ℤ :=
  365 * year + (year - 1) / 4 - (year - 1) / 100 + (year - 1) / 400 - 719527

/-- Days from the first of January to the first of a month, counted from 0. -/
def daysBeforeMonth (year : ℤ) (month : ℕ) : ℤ :=
  [0, 31, 59, 90, 120, 151, 181, 212, 243, 273, 304, 334].getD month 0 +
    if isLeap year ∧ 2 ≤ month then 1 else 0

/-- The year of a day, estimated by the mean length of a year and corrected by one. -/
def yearOfDay (day : ℤ) : ℤ :=
  let estimate := 400 * day / 146097 + 1970
  if day < daysBeforeYear estimate then estimate - 1
  else if daysBeforeYear (estimate + 1) ≤ day then estimate + 1
  else estimate

/-- The last month that has begun. -/
def monthOfDay (year day : ℤ) : ℕ :=
  ((List.range 12).filter fun m => daysBeforeMonth year m ≤ day).getLastD 0

/-- Year, month (from 0) and day (from 1). -/
structure Date where
  year : ℤ
  month : ℕ
  day : ℤ

def dayNumber (t : ℤ) : ℤ := t / second / 86400

def date (t : ℤ) : Date :=
  let year := yearOfDay (dayNumber t)
  let month := monthOfDay year (dayNumber t - daysBeforeYear year)
  ⟨year, month, dayNumber t - daysBeforeYear year - daysBeforeMonth year month + 1⟩

/-- The day of a date whose month and day may be out of range. -/
def dayOfDate (year month day : ℤ) : ℤ :=
  daysBeforeYear (year + month / 12) + daysBeforeMonth (year + month / 12) (month % 12).toNat + (day - 1)

/-- `Time.AddDate`; the seconds wrap. -/
def addDate (t : ℤ) (years months days : ℤ) : ℤ :=
  let d := date t
  wrap64 (86400 * dayOfDate (d.year + years) (d.month + months) (d.day + days) + t / second % 86400) *
    second + t % second

/-- `Time.Sub` saturates. -/
def sub (t u : ℤ) : ℤ := max (-2 ^ 63) (min (2 ^ 63 - 1) (t - u))

/-! ## The code -/

inductive TimePart where
  | year | month | day | hour | minute | second | timezoneHour | timezoneMinute
  deriving DecidableEq

inductive TimestampError where
  -- not implemented
  | notImplemented
  deriving DecidableEq

/-- A whole number as a `float64` and back as an `int64`: exact up to `2^53`. -/
structure FloatTrip where
  trip : ℤ → ℤ
  isInt64 : ∀ n, IsInt64 (trip n)
  exact : ∀ n, |n| ≤ 2 ^ 53 → trip n = n

def dateAdd (F : FloatTrip) (timePart : TimePart) (qty : ℤ) (t : ℤ) :
    Except TimestampError ℤ :=
  match timePart with
  | .year => .ok (addDate t (F.trip qty) 0 0)
  | .month => .ok (addDate t 0 (F.trip qty) 0)
  | .day => .ok (addDate t 0 0 (F.trip qty))
  | .hour => .ok (t + wrap64 (F.trip qty * hour))
  | .minute => .ok (t + wrap64 (F.trip qty * minute))
  | .second => .ok (t + wrap64 (F.trip qty * second))
  | .timezoneHour | .timezoneMinute => .error .notImplemented

/-- `dateDiff` of two timestamps in order. -/
def diffForward (timePart : TimePart) (ts1 ts2 : ℤ) : Except TimestampError ℤ :=
  let duration := sub ts2 ts1
  let d1 := date ts1
  let d2 := date ts2
  match timePart with
  | .year =>
    let dy := d2.year - d1.year
    if d2.month > d1.month ∨ (d2.month = d1.month ∧ d2.day ≥ d1.day) then .ok dy else .ok (dy - 1)
  | .month => .ok ((d2.month + 12 * d2.year) - (d1.month + 12 * d1.year))
  | .day => .ok (duration.tdiv (24 * hour))
  | .hour => .ok (duration.tdiv hour)
  | .minute => .ok (duration.tdiv minute)
  | .second => .ok (duration.tdiv second)
  | .timezoneHour | .timezoneMinute => .error .notImplemented

/-- The call with the two swapped is in order, so it is not swapped again. -/
def dateDiff (timePart : TimePart) (ts1 ts2 : ℤ) : Except TimestampError ℤ :=
  if ts2 < ts1 then (diffForward timePart ts2 ts1).map Neg.neg else diffForward timePart ts1 ts2

/-! ## Days -/

theorem monthOfDay_lt (year day : ℤ) : monthOfDay year day < 12 := by
  unfold monthOfDay
  rw [List.getLastD_eq_getLast?]
  cases h : ((List.range 12).filter fun m => daysBeforeMonth year m ≤ day).getLast? with
  | none => decide
  | some m => exact List.mem_range.mp (List.mem_of_mem_filter (List.mem_of_getLast? h))

/-- **Days are added exactly**, until the seconds wrap. -/
theorem addDate_days (t : ℤ) (n : ℤ) :
    addDate t 0 0 n = wrap64 (t / second + 86400 * n) * second + t % second := by
  have hmonth := monthOfDay_lt (yearOfDay (dayNumber t)) (dayNumber t - daysBeforeYear (yearOfDay (dayNumber t)))
  have hday : dayOfDate ((date t).year + 0) ((date t).month + 0) ((date t).day + n) = dayNumber t + n := by
    have hcarry : ((date t).month : ℤ) / 12 = 0 := Int.ediv_eq_zero_of_lt (by omega) (by
      show ((monthOfDay _ _ : ℕ) : ℤ) < 12
      omega)
    have hindex : ((date t).month : ℤ) % 12 = (date t).month := Int.emod_eq_of_lt (by omega) (by
      show ((monthOfDay _ _ : ℕ) : ℤ) < 12
      omega)
    rw [dayOfDate, add_zero, add_zero, hcarry, hindex, Int.toNat_natCast, add_zero]
    show daysBeforeYear (date t).year + daysBeforeMonth (date t).year (date t).month +
      (dayNumber t - daysBeforeYear (date t).year - daysBeforeMonth (date t).year (date t).month + 1 + n - 1) = _
    ring
  have hsec : 86400 * (dayNumber t + n) + t / second % 86400 = t / second + 86400 * n := by
    unfold dayNumber
    omega
  rw [addDate, hday, hsec]

/-- The year of a day has begun and not ended. -/
theorem yearOfDay_spec (day : ℤ) :
    daysBeforeYear (yearOfDay day) ≤ day ∧ day < daysBeforeYear (yearOfDay day + 1) := by
  unfold yearOfDay
  dsimp only
  split
  · next h =>
    rw [sub_add_cancel]
    refine ⟨?_, h⟩
    unfold daysBeforeYear
    omega
  · next h =>
    split
    · next h' =>
      refine ⟨h', ?_⟩
      unfold daysBeforeYear
      omega
    · next h' => exact ⟨not_lt.mp h, not_le.mp h'⟩

/-- A timestamp with a year from 0 to 9999. -/
def InYears (t : ℤ) : Prop := 0 ≤ (date t).year ∧ (date t).year ≤ 9999

/-- Their seconds are far from the range of an `int64`. -/
theorem seconds_of_inYears {t : ℤ} (h : InYears t) : -2 ^ 40 ≤ t / second ∧ t / second ≤ 2 ^ 40 := by
  obtain ⟨hlow, hhigh⟩ : 0 ≤ yearOfDay (dayNumber t) ∧ yearOfDay (dayNumber t) ≤ 9999 := h
  obtain ⟨hbegun, hended⟩ := yearOfDay_spec (dayNumber t)
  have hday : -1000000 ≤ dayNumber t ∧ dayNumber t ≤ 4000000 := by
    unfold daysBeforeYear at hbegun hended
    omega
  unfold dayNumber at hday
  omega

/-! ## Differences -/

/-- The nanoseconds of a part that has a fixed length. -/
def nanos : TimePart → Option ℤ
  | .day => some (24 * hour)
  | .hour => some hour
  | .minute => some minute
  | .second => some second
  | _ => none

theorem nanos_pos {part : TimePart} {unit : ℤ} (h : nanos part = some unit) :
    second ≤ unit ∧ unit ≤ 24 * hour := by
  cases part <;> simp [nanos] at h <;> subst h <;> decide

theorem diffForward_eq {part : TimePart} {unit : ℤ} (h : nanos part = some unit) (a b : ℤ) :
    diffForward part a b = .ok ((sub b a).tdiv unit) := by
  cases part <;> simp [nanos] at h <;> subst h <;> rfl

theorem dateDiff_eq {part : TimePart} {unit : ℤ} (h : nanos part = some unit) (a b : ℤ) :
    dateDiff part a b = .ok (if b < a then -(sub a b).tdiv unit else (sub b a).tdiv unit) := by
  rw [dateDiff, diffForward_eq h, diffForward_eq h]
  split <;> rfl

theorem sub_self (a : ℤ) : sub a a = 0 := by
  unfold sub
  omega

/-- **The difference the other way round** is the opposite. -/
theorem dateDiff_antisymm {part : TimePart} {unit : ℤ} (h : nanos part = some unit) (a b : ℤ) :
    ∃ d, dateDiff part a b = .ok d ∧ dateDiff part b a = .ok (-d) := by
  rw [dateDiff_eq h, dateDiff_eq h]
  refine ⟨_, rfl, congrArg Except.ok ?_⟩
  rcases lt_trichotomy a b with hlt | heq | hgt
  · rw [if_pos hlt, if_neg (by omega)]
  · rw [heq, if_neg (lt_irrefl b), sub_self, Int.zero_tdiv, neg_zero]
  · rw [if_neg (by omega), if_pos hgt, neg_neg]

/-- A quotient of a duration is below the range of durations. -/
theorem dateDiff_small {part : TimePart} {unit d : ℤ} (h : nanos part = some unit) {a b : ℤ}
    (hd : dateDiff part a b = .ok d) : |d| * unit < 2 ^ 63 := by
  have hpos : 0 < unit := lt_of_lt_of_le (by decide) (nanos_pos h).1
  have hquot : ∀ x y : ℤ, ¬ y < x → 0 ≤ (sub y x).tdiv unit ∧ (sub y x).tdiv unit * unit < 2 ^ 63 := by
    intro x y hxy
    have hsub : 0 ≤ sub y x ∧ sub y x < 2 ^ 63 := by
      unfold sub
      omega
    rw [Int.tdiv_eq_ediv_of_nonneg hsub.1]
    exact ⟨Int.ediv_nonneg hsub.1 hpos.le, lt_of_le_of_lt (Int.ediv_mul_le _ hpos.ne') hsub.2⟩
  rw [dateDiff_eq h] at hd
  obtain rfl := Except.ok.inj hd
  split
  · next hlt =>
    obtain ⟨h0, hsmall⟩ := hquot b a (by omega)
    rwa [abs_neg, abs_of_nonneg h0]
  · next hle =>
    obtain ⟨h0, hsmall⟩ := hquot a b hle
    rwa [abs_of_nonneg h0]

/-- A number of units that fits a duration is added exactly. -/
theorem dateAdd_exact (F : FloatTrip) {part : TimePart} {unit n : ℤ} (h : nanos part = some unit)
    {t : ℤ} (ht : InYears t) (hn : |n| * unit < 2 ^ 63) :
    dateAdd F part n t = .ok (t + n * unit) := by
  obtain ⟨hlow, hhigh⟩ := nanos_pos h
  have hsmall : |n| * second < 2 ^ 63 :=
    lt_of_le_of_lt (mul_le_mul_of_nonneg_left hlow (abs_nonneg n)) hn
  have habs : |n| ≤ 2 ^ 53 := by
    unfold second at hsmall
    omega
  have hfits : IsInt64 (n * unit) := by
    have hlt : |n * unit| < 2 ^ 63 := by
      rwa [abs_mul, abs_of_pos (lt_of_lt_of_le (by decide) hlow)]
    obtain ⟨h1, h2⟩ := abs_lt.mp hlt
    exact ⟨h1.le, h2⟩
  cases part with
  | day =>
    obtain rfl : 24 * hour = unit := Option.some.inj h
    obtain ⟨hs1, hs2⟩ := seconds_of_inYears ht
    have hdays : |n| ≤ 2 ^ 20 := by
      have : (24 * hour : ℤ) = 86400000000000 := rfl
      rw [this] at hn
      omega
    obtain ⟨hd1, hd2⟩ := abs_le.mp hdays
    rw [dateAdd, F.exact n habs, addDate_days, wrap64_of_mem ⟨by omega, by omega⟩]
    congr 1
    show (t / second + 86400 * n) * second + t % second = t + n * (24 * hour)
    rw [show (24 * hour : ℤ) = 86400 * second from rfl, add_mul, add_right_comm, Int.ediv_mul_add_emod]
    ring
  | hour =>
    obtain rfl := Option.some.inj h
    rw [dateAdd, F.exact n habs, wrap64_of_mem hfits]
  | minute =>
    obtain rfl := Option.some.inj h
    rw [dateAdd, F.exact n habs, wrap64_of_mem hfits]
  | second =>
    obtain rfl := Option.some.inj h
    rw [dateAdd, F.exact n habs, wrap64_of_mem hfits]
  | year => cases h
  | month => cases h
  | timezoneHour => cases h
  | timezoneMinute => cases h

/-- **When what is added is the difference**: as long as it fits a duration of nanoseconds. -/
theorem dateDiff_dateAdd_iff (F : FloatTrip) (part : TimePart) (unit : ℤ) (hunit : nanos part = some unit)
    (t r : ℤ) (n : ℤ) (ht : InYears t) (hadd : dateAdd F part n t = .ok r) (hr : InYears r) :
    (dateDiff part t r = .ok n ∧ ∀ a b, InYears a → InYears b →
      ∃ d, dateDiff part a b = .ok d ∧ dateDiff part b a = .ok (-d)) ↔ |n| * unit < 2 ^ 63 := by
  constructor
  · intro h
    exact dateDiff_small hunit h.1
  · intro hn
    refine ⟨?_, fun a b _ _ => dateDiff_antisymm hunit a b⟩
    have hpos : 0 < unit := lt_of_lt_of_le (by decide) (nanos_pos hunit).1
    rw [dateAdd_exact F hunit ht hn] at hadd
    obtain rfl := Except.ok.inj hadd
    rw [dateDiff_eq hunit]
    congr 1
    rcases lt_or_ge n 0 with hneg | hnonneg
    · have hlt : n * unit < 0 := mul_neg_of_neg_of_pos hneg hpos
      rw [abs_of_neg hneg, neg_mul] at hn
      have hsub : sub t (t + n * unit) = -n * unit := by
        unfold sub
        rw [neg_mul]
        omega
      rw [if_pos (by omega), hsub, Int.mul_tdiv_cancel _ hpos.ne', neg_neg]
    · have hle : 0 ≤ n * unit := mul_nonneg hnonneg hpos.le
      rw [abs_of_nonneg hnonneg] at hn
      have hsub : sub (t + n * unit) t = n * unit := by
        unfold sub
        omega
      rw [if_neg (by omega), hsub, Int.mul_tdiv_cancel _ hpos.ne']

def wrapTrip : FloatTrip where
  trip := wrap64
  isInt64 := isInt64_wrap64
  exact := by
    intro n h
    obtain ⟨h1, h2⟩ := abs_le.mp h
    exact wrap64_of_mem ⟨by omega, by omega⟩

instance decidableInYears (t : ℤ) : Decidable (InYears t) := inferInstanceAs (Decidable (_ ∧ _))

/-- A day after 1970. -/
theorem dateDiff_dateAdd_day :
    dateAdd wrapTrip .day 1 0 = .ok (24 * hour) ∧ dateDiff .day 0 (24 * hour) = .ok 1 := by
  have hadd : dateAdd wrapTrip .day 1 0 = .ok (24 * hour) := by decide +kernel
  exact ⟨hadd, ((dateDiff_dateAdd_iff wrapTrip .day (24 * hour) rfl 0 (24 * hour) 1 (by decide +kernel)
    hadd (by decide +kernel)).mpr (by decide)).1⟩

/-- After 292 years a difference of days saturates, and adding hours goes back in time. -/
theorem dateDiff_saturates :
    (∃ r, dateAdd wrapTrip .day 106752 0 = .ok r ∧ InYears 0 ∧ InYears r ∧
      dateDiff .day 0 r = .ok 106751) ∧
    ∃ r, dateAdd wrapTrip .hour 2562048 0 = .ok r ∧ InYears r ∧ dateDiff .hour 0 r = .ok (-2562047) := by
  refine ⟨⟨106752 * (24 * hour), ?_⟩, wrap64 (2562048 * hour), ?_⟩
  · decide +kernel
  · decide +kernel

end Zs3Server.S3Select.Timestamp
