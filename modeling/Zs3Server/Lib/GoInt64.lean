import Mathlib

/-!
# Signed 64-bit arithmetic over the integers

An `int64` is an integer in `[-2^63, 2^63)`; a sum, difference or product is wrapped back into that
interval.  Wrapping is a ring map, so a chain of additions is wrapped once, where its value is next
compared, divided or stored.  Division truncates towards zero (`Int.tdiv`).

* `wrap64_of_mem` — a value that fits is not changed;
* `wrap64_of_ge` — a value past the top comes back negative;
* `tdiv_wrapped_neg` — the quotient of an overflowed sum by a divisor of at most `2^62` is negative.
-/

namespace Zs3Server.Lib.GoInt64

/-- Wrap an integer into the range of an `int64`. -/
def wrap64 (x : ℤ) : ℤ := x.bmod (2 ^ 64)

/-- `x` is the value of an `int64`. -/
def IsInt64 (x : ℤ) : Prop := -2 ^ 63 ≤ x ∧ x < 2 ^ 63

instance (x : ℤ) : Decidable (IsInt64 x) := inferInstanceAs (Decidable (_ ∧ _))

theorem wrap64_of_mem {x : ℤ} (h : IsInt64 x) : wrap64 x = x := by
  obtain ⟨h₁, h₂⟩ := h
  unfold wrap64
  rw [Int.bmod_def]
  norm_num at *
  split <;> omega

theorem wrap64_of_ge {x : ℤ} (h₁ : 2 ^ 63 ≤ x) (h₂ : x < 2 ^ 63 + 2 ^ 64) :
    wrap64 x = x - 2 ^ 64 := by
  unfold wrap64
  rw [Int.bmod_def]
  norm_num at *
  split <;> omega

theorem isInt64_wrap64 (x : ℤ) : IsInt64 (wrap64 x) := by
  unfold wrap64
  rw [Int.bmod_def]
  constructor
  · norm_num
    split <;> omega
  · norm_num
    split <;> omega

/-- A sum may be wrapped at every term or once at the end. -/
theorem wrap64_wrap64_add (x y : ℤ) : wrap64 (wrap64 x + y) = wrap64 (x + y) := Int.bmod_add_bmod

/-- Truncated division of a negative number of at least the divisor's size is negative. -/
theorem tdiv_neg_of_le_neg {x d : ℤ} (hd : 0 < d) (hx : x ≤ -d) : x.tdiv d < 0 := by
  have h : x.tdiv d = -((-x).tdiv d) := by rw [Int.neg_tdiv, neg_neg]
  rw [h, Int.tdiv_eq_ediv_of_nonneg (by omega)]
  have : 1 ≤ -x / d := (Int.le_ediv_iff_mul_le hd).mpr (by omega)
  omega

/-- **An overflowed sum divides to a negative quotient** when the divisor is at most `2^62`. -/
theorem tdiv_wrapped_neg {x d : ℤ} (hd : 0 < d) (hd' : d ≤ 2 ^ 62) (h₁ : 2 ^ 63 ≤ x)
    (h₂ : x < 2 ^ 63 + 2 ^ 62) : (wrap64 x).tdiv d < 0 := by
  refine tdiv_neg_of_le_neg hd ?_
  rw [wrap64_of_ge h₁ (by omega)]
  omega

end Zs3Server.Lib.GoInt64
