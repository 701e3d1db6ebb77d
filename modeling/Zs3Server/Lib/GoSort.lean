import Mathlib

/-!
# Sorting a slice by a comparison

`sort.Slice` takes any comparison.  Its result is a permutation of the slice, and it is sorted if the
comparison is a strict weak order; nothing is promised otherwise.

* `StrictWeakOrderOn less l` — the comparison is a strict weak order on the elements of a list;
* `SliceSort` — what may be assumed of the function;
* `insertionSort` — what the library runs on short slices; `insertionSliceSort` — it is one such
  function.

Nothing here depends on a program.
-/

namespace Zs3Server.Lib.GoSort

variable {α : Type}

/-- A strict weak order on the elements of a list: not being comparable is transitive too. -/
structure StrictWeakOrderOn (less : α → α → Bool) (l : List α) : Prop where
  irrefl : ∀ a ∈ l, less a a = false
  trans : ∀ a ∈ l, ∀ b ∈ l, ∀ c ∈ l, less a b = true → less b c = true → less a c = true
  incomparable : ∀ a ∈ l, ∀ b ∈ l, ∀ c ∈ l, less a b = false → less b a = false →
    less b c = false → less c b = false → less a c = false

theorem StrictWeakOrderOn.asymm {less : α → α → Bool} {l : List α} (h : StrictWeakOrderOn less l)
    {a b : α} (ha : a ∈ l) (hb : b ∈ l) (hab : less a b = true) : less b a = false := by
  cases hba : less b a with
  | false => rfl
  | true =>
    have haa := h.trans a ha b hb a ha hab hba
    rw [h.irrefl a ha] at haa
    cases haa

/-- Not being less is transitive. -/
theorem StrictWeakOrderOn.not_trans {less : α → α → Bool} {l : List α} (h : StrictWeakOrderOn less l)
    {a b c : α} (ha : a ∈ l) (hb : b ∈ l) (hc : c ∈ l) (hab : less a b = false)
    (hbc : less b c = false) : less a c = false := by
  cases hba : less b a with
  | true =>
    cases hac : less a c with
    | false => rfl
    | true => exact (h.trans b hb a ha c hc hba hac).symm.trans hbc
  | false =>
    cases hcb : less c b with
    | true =>
      cases hac : less a c with
      | false => rfl
      | true => exact (h.trans a ha c hc b hb hac hcb).symm.trans hab
    | false => exact h.incomparable a ha b hb c hc hab hba hbc hcb

theorem StrictWeakOrderOn.mono {less : α → α → Bool} {l l' : List α} (h : StrictWeakOrderOn less l)
    (hsub : l' ⊆ l) : StrictWeakOrderOn less l' where
  irrefl a ha := h.irrefl a (hsub ha)
  trans a ha b hb c hc := h.trans a (hsub ha) b (hsub hb) c (hsub hc)
  incomparable a ha b hb c hc := h.incomparable a (hsub ha) b (hsub hb) c (hsub hc)

/-- A comparison by a key in a linear order. -/
theorem strictWeakOrderOn_of_key {β : Type*} [LinearOrder β] (key : α → β) (l : List α) :
    StrictWeakOrderOn (fun a b => decide (key a < key b)) l where
  irrefl a _ := by simp
  trans a _ b _ c _ hab hbc := by
    simp only [decide_eq_true_eq] at *
    exact hab.trans hbc
  incomparable a _ b _ c _ hab _ hbc _ := by
    simp only [decide_eq_false_iff_not, not_lt] at *
    exact hbc.trans hab

theorem StrictWeakOrderOn.congr {less less' : α → α → Bool} {l : List α} (h : StrictWeakOrderOn less' l)
    (heq : ∀ a ∈ l, ∀ b ∈ l, less a b = less' a b) : StrictWeakOrderOn less l where
  irrefl a ha := (heq a ha a ha).trans (h.irrefl a ha)
  trans a ha b hb c hc := by
    rw [heq a ha b hb, heq b hb c hc, heq a ha c hc]
    exact h.trans a ha b hb c hc
  incomparable a ha b hb c hc := by
    rw [heq a ha b hb, heq b hb a ha, heq b hb c hc, heq c hc b hb, heq a ha c hc]
    exact h.incomparable a ha b hb c hc

/-- **What may be assumed of `sort.Slice`.** -/
structure SliceSort (α : Type) where
  sort : (α → α → Bool) → List α → List α
  perm : ∀ less l, (sort less l).Perm l
  sorted : ∀ less l, StrictWeakOrderOn less l → (sort less l).Pairwise fun a b => less b a = false

/-- Sorting by a comparison that is the order of the elements. -/
theorem SliceSort.sort_pairwise_le {β : Type} [LinearOrder β] (S : SliceSort β) {less : β → β → Bool}
    {l : List β} (hless : ∀ a ∈ l, ∀ b ∈ l, less a b = decide (a < b)) : (S.sort less l).Pairwise (· ≤ ·) := by
  have hperm := S.perm less l
  have hsorted := S.sorted less l ((strictWeakOrderOn_of_key id l).congr hless)
  refine hsorted.imp_of_mem ?_
  intro a b ha hb hab
  rw [hless b (hperm.mem_iff.mp hb) a (hperm.mem_iff.mp ha), decide_eq_false_iff_not, not_lt] at hab
  exact hab

/-! ## Short slices -/

/-- An element goes down from the end of a sorted slice, which is given from its end on. -/
def insertDown (less : α → α → Bool) (x : α) : List α → List α
  | [] => [x]
  | y :: ys => if less x y then y :: insertDown less x ys else x :: y :: ys

def insertionLoop (less : α → α → Bool) : List α → List α → List α
  | sorted, [] => sorted
  | sorted, x :: rest => insertionLoop less (insertDown less x sorted) rest

def insertionSort (less : α → α → Bool) (l : List α) : List α := (insertionLoop less [] l).reverse

theorem insertDown_perm (less : α → α → Bool) (x : α) (l : List α) :
    (insertDown less x l).Perm (x :: l) := by
  induction l with
  | nil => exact List.Perm.refl _
  | cons y ys ih =>
    rw [insertDown]
    split
    · exact (ih.cons y).trans (List.Perm.swap x y ys)
    · exact List.Perm.refl _

theorem insertionLoop_perm (less : α → α → Bool) (sorted rest : List α) :
    (insertionLoop less sorted rest).Perm (sorted ++ rest) := by
  induction rest generalizing sorted with
  | nil => rw [insertionLoop, List.append_nil]
  | cons x rest ih =>
    refine (ih _).trans ?_
    refine ((insertDown_perm less x sorted).append_right rest).trans ?_
    exact List.perm_middle.symm

theorem insertionSort_perm (less : α → α → Bool) (l : List α) : (insertionSort less l).Perm l :=
  (List.reverse_perm _).trans (insertionLoop_perm less [] l)

theorem insertDown_sorted {less : α → α → Bool} {x : α} {l : List α}
    (h : StrictWeakOrderOn less (x :: l)) (hl : l.Pairwise fun a b => less a b = false) :
    (insertDown less x l).Pairwise fun a b => less a b = false := by
  induction l with
  | nil => exact List.pairwise_singleton _ _
  | cons y ys ih =>
    obtain ⟨hy, hys⟩ := List.pairwise_cons.mp hl
    have hx : x ∈ x :: y :: ys := List.mem_cons_self
    have hymem : y ∈ x :: y :: ys := by simp
    rw [insertDown]
    split
    · next hless =>
      refine List.pairwise_cons.mpr ⟨?_, ih (h.mono ?_) hys⟩
      · intro z hz
        rcases List.mem_cons.mp ((insertDown_perm less x ys).mem_iff.mp hz) with rfl | hz
        · exact h.asymm hx hymem hless
        · exact hy z hz
      · intro z hz
        rcases List.mem_cons.mp hz with rfl | hz
        · exact hx
        · simp [hz]
    · next hless =>
      refine List.pairwise_cons.mpr ⟨?_, hl⟩
      intro z hz
      have hxy : less x y = false := by simpa using hless
      rcases List.mem_cons.mp hz with rfl | hz'
      · exact hxy
      · exact h.not_trans hx hymem (by simp [hz']) hxy (hy z hz')

theorem insertionLoop_sorted {less : α → α → Bool} {sorted rest : List α}
    (h : StrictWeakOrderOn less (sorted ++ rest)) (hs : sorted.Pairwise fun a b => less a b = false) :
    (insertionLoop less sorted rest).Pairwise fun a b => less a b = false := by
  induction rest generalizing sorted with
  | nil => exact hs
  | cons x rest ih =>
    refine ih (h.mono ?_) (insertDown_sorted (h.mono ?_) hs)
    · intro z hz
      exact (((insertDown_perm less x sorted).append_right rest).trans List.perm_middle.symm).subset hz
    · intro z hz
      rcases List.mem_cons.mp hz with rfl | hz <;> simp_all

/-- **What the library runs on short slices** is a function of the kind assumed. -/
def insertionSliceSort : SliceSort α where
  sort := insertionSort
  perm := insertionSort_perm
  sorted less l h := by
    rw [insertionSort, List.pairwise_reverse]
    exact insertionLoop_sorted h List.Pairwise.nil

end Zs3Server.Lib.GoSort
