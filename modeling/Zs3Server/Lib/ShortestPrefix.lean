import Mathlib

/-!
# The first elements of a stable sort that are enough

Elements with sizes are sorted by a total preorder, and the first ones are taken until their sizes reach a
target.

* `insertionSort_concat` — an element that comes last is sorted in behind its equals;
* `orderedInsert_append`, `orderedInsert_append_of_forall` — where that is in a list cut in two;
* `IsShortestPrefix` — the shortest prefix that reaches the target, or the whole list;
* `isShortestPrefix_of_concat` — a prefix that reaches it with its last element only.

Nothing here depends on a program.
-/

namespace Zs3Server.Lib.ShortestPrefix

variable {α : Type*}

section Sorted

variable (r s : α → α → Prop) [DecidableRel r] [DecidableRel s]

section Stable

variable [IsTrans α r] [Std.Total r] (hs : ∀ x y, s x y ↔ ¬ r y x)

include hs

/-- Two insertions commute, when the second element goes behind its equals and the first before them. -/
theorem orderedInsert_comm (a b : α) (l : List α) :
    (l.orderedInsert s a).orderedInsert r b = (l.orderedInsert r b).orderedInsert s a := by
  induction l with
  | nil => by_cases hba : r b a <;> simp [hs, hba]
  | cons c l ih =>
    by_cases hca : r c a
    · by_cases hbc : r b c
      · have hba : r b a := IsTrans.trans b c a hbc hca
        simp [hs, hca, hbc, hba]
      · simp [hs, hca, hbc, ih]
    · by_cases hbc : r b c
      · by_cases hba : r b a <;> simp [hs, hca, hbc, hba]
      · have hac : r a c := (Std.Total.total a c).resolve_right hca
        have hba : ¬ r b a := fun h => hbc (IsTrans.trans b a c h hac)
        simp [hs, hca, hbc, hba]

/-- **Sorting is stable:** an element that comes last is inserted behind its equals. -/
theorem insertionSort_concat (l : List α) (a : α) :
    (l ++ [a]).insertionSort r = (l.insertionSort r).orderedInsert s a := by
  induction l with
  | nil => rfl
  | cons b l ih =>
    rw [List.cons_append, List.insertionSort_cons, ih, orderedInsert_comm r s hs,
      ← List.insertionSort_cons]

end Stable

/-- The place of an element is in the first part if there is one. -/
theorem orderedInsert_append {a : α} {p : List α} (rest : List α) (h : ∃ v ∈ p, r a v) :
    (p ++ rest).orderedInsert r a = p.orderedInsert r a ++ rest := by
  induction p with
  | nil =>
    obtain ⟨v, hv, -⟩ := h
    cases hv
  | cons c p ih =>
    by_cases hac : r a c
    · simp [hac]
    · have hp : ∃ v ∈ p, r a v := by
        obtain ⟨v, hv, hav⟩ := h
        rcases List.mem_cons.mp hv with rfl | hv
        · exact absurd hav hac
        · exact ⟨v, hv, hav⟩
      simp [hac, ih hp]

theorem orderedInsert_append_of_forall {a : α} {p : List α} (rest : List α) (h : ∀ v ∈ p, ¬ r a v) :
    (p ++ rest).orderedInsert r a = p ++ rest.orderedInsert r a := by
  induction p with
  | nil => rfl
  | cons c p ih =>
    have hac : ¬ r a c := h c List.mem_cons_self
    have hp : ∀ v ∈ p, ¬ r a v := fun v hv => h v (List.mem_cons_of_mem _ hv)
    simp [hac, ih hp]

end Sorted

section Prefix

variable (size : α → ℕ) (target : ℕ)

/-- The shortest prefix whose sizes add up to the target at least; the whole list if there is none. -/
structure IsShortestPrefix (p l : List α) : Prop where
  initial : p <+: l
  enough : p = l ∨ target ≤ (p.map size).sum
  shortest : ∀ q, q <+: l → target ≤ (q.map size).sum → p.length ≤ q.length

variable {size target}

theorem sum_le_of_initial {q p : List α} (h : q <+: p) : (q.map size).sum ≤ (p.map size).sum :=
  (h.sublist.map size).sum_le_sum fun _ _ => Nat.zero_le _

/-- What follows it is only left out if it is enough. -/
theorem IsShortestPrefix.exists_rest {p l : List α} (h : IsShortestPrefix size target p l) :
    ∃ rest, l = p ++ rest ∧ (rest = [] ∨ target ≤ (p.map size).sum) := by
  obtain ⟨rest, hrest⟩ := h.initial
  refine ⟨rest, hrest.symm, h.enough.imp_left fun hall => ?_⟩
  exact List.append_cancel_left (hrest.trans (hall.symm.trans (List.append_nil p).symm))

/-- The empty list is the shortest one only if nothing is wanted or nothing is there. -/
theorem isShortestPrefix_nil {l : List α} (h : l = [] ∨ target = 0) :
    IsShortestPrefix size target [] l where
  initial := List.nil_prefix
  enough := h.imp Eq.symm fun h0 => h0.le.trans (Nat.zero_le _)
  shortest := fun _ _ _ => Nat.zero_le _

/-- Without its last element it is not enough. -/
theorem isShortestPrefix_of_concat {q rest : List α} {v : α}
    (henough : rest = [] ∨ target ≤ ((q ++ [v]).map size).sum) (hless : (q.map size).sum < target) :
    IsShortestPrefix size target (q ++ [v]) (q ++ [v] ++ rest) where
  initial := List.prefix_append _ _
  enough := henough.imp_left fun h => by rw [h, List.append_nil]
  shortest := by
    intro q' hq' hsum
    by_contra hlen
    have hle : q'.length ≤ q.length := by
      rw [List.length_append, List.length_singleton] at hlen
      omega
    have hsub : q' <+: q :=
      List.prefix_of_prefix_length_le hq' ⟨[v] ++ rest, (List.append_assoc _ _ _).symm⟩ hle
    exact absurd (hsum.trans (sum_le_of_initial hsub)) (Nat.not_le.mpr hless)

/-- What follows a prefix that is enough does not matter. -/
theorem IsShortestPrefix.change_rest {p rest rest' : List α}
    (h : IsShortestPrefix size target p (p ++ rest)) (henough : target ≤ (p.map size).sum) :
    IsShortestPrefix size target p (p ++ rest') where
  initial := List.prefix_append _ _
  enough := Or.inr henough
  shortest := by
    intro q hq hsum
    by_contra hlen
    have hsub : q <+: p := List.prefix_of_prefix_length_le hq (List.prefix_append _ _) (by omega)
    exact hlen (h.shortest q (hsub.trans (List.prefix_append _ _)) hsum)

end Prefix

end Zs3Server.Lib.ShortestPrefix
