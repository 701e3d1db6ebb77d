import Mathlib

/-!
# Merging sorted pages

Two sorted lists are merged by collecting their keys, without repetition, and sorting them again.  The
first `k` keys of the merge depend on the first `k` keys of each list only.

* `names` — the keys of two lists, sorted and without repetition;
* `eq_of_sorted` — a strictly sorted list is given by its members;
* `mem_take_of_mem_take` — the front of a list has a key of the other one only at its front;
* `take_names_take` — two pages of `k` keys suffice for a page of `k` keys of the merge;
* `filter_names` — the merge after a key.

Nothing here depends on a program.
-/

namespace Zs3Server.Lib.SortedMerge

variable {β : Type*} [LinearOrder β]

/-- The keys of two lists in increasing order, each of them once. -/
def names (a b : List β) : List β := ((a ++ b).dedup).mergeSort

theorem mem_names {a b : List β} {x : β} : x ∈ names a b ↔ x ∈ a ∨ x ∈ b := by
  simp [names]

theorem names_sorted (a b : List β) : (names a b).Pairwise (· < ·) := by
  have hle : (names a b).Pairwise (· ≤ ·) := List.pairwise_mergeSort' _ _
  have hne : (names a b).Nodup := by
    unfold names
    rw [(List.mergeSort_perm _ _).nodup_iff]
    exact List.nodup_dedup _
  exact (hle.and hne).imp fun h => lt_of_le_of_ne h.1 h.2

theorem length_names_le (a b : List β) : (names a b).length ≤ a.length + b.length := by
  unfold names
  rw [List.length_mergeSort, ← List.length_append]
  exact (List.dedup_sublist _).length_le

/-- A strictly sorted list is given by its members. -/
theorem eq_of_sorted {s t : List β} (hs : s.Pairwise (· < ·)) (ht : t.Pairwise (· < ·))
    (h : ∀ x, x ∈ s ↔ x ∈ t) : s = t := by
  have hperm : s.Perm t :=
    (List.perm_ext_iff_of_nodup (hs.imp ne_of_lt) (ht.imp ne_of_lt)).mpr h
  exact hperm.eq_of_pairwise (fun a b _ _ hab hba => absurd hab (lt_asymm hba)) hs ht

/-- What stands before a member of the front stands in the front. -/
theorem mem_take_of_lt {s : List β} (hs : s.Pairwise (· < ·)) {k : ℕ} {x y : β} (hx : x ∈ s.take k)
    (hy : y ∈ s) (hlt : y < x) : y ∈ s.take k := by
  rw [← List.take_append_drop k s] at hs hy
  rcases List.mem_append.mp hy with hfront | hback
  · exact hfront
  · exact absurd ((List.pairwise_append.mp hs).2.2 x hx y hback) (lt_asymm hlt)

/-- The front of a list has a key of a list within it only at the front of that one. -/
theorem mem_take_of_mem_take {a s : List β} (ha : a.Pairwise (· < ·)) (hs : s.Pairwise (· < ·))
    (hsub : ∀ x ∈ a, x ∈ s) {k : ℕ} {x : β} (hx : x ∈ s.take k) (hxa : x ∈ a) : x ∈ a.take k := by
  by_contra hnot
  have hback : x ∈ a.drop k := by
    rw [← List.take_append_drop k a] at hxa
    exact (List.mem_append.mp hxa).resolve_left hnot
  -- otherwise `k` keys before it are in the front too, which has no room for them
  have hbefore : ∀ y ∈ a.take k, y < x := by
    intro y hy
    rw [← List.take_append_drop k a] at ha
    exact (List.pairwise_append.mp ha).2.2 y hy x hback
  have hnodup : (x :: a.take k).Nodup := by
    rw [List.nodup_cons]
    exact ⟨hnot, (ha.sublist (List.take_sublist k a)).imp ne_of_lt⟩
  have hmem : ∀ y ∈ x :: a.take k, y ∈ s.take k := by
    intro y hy
    rcases List.mem_cons.mp hy with rfl | hy
    · exact hx
    · exact mem_take_of_lt hs hx (hsub y (List.mem_of_mem_take hy)) (hbefore y hy)
  have hlen := (List.subperm_of_subset hnodup hmem).length_le
  have hlong : k ≤ a.length := by
    by_contra hlt
    rw [List.drop_eq_nil_of_le (by omega)] at hback
    cases hback
  simp only [List.length_cons, List.length_take] at hlen
  omega

/-- A sorted list within `s` that has the first `k` keys of `s` starts with them. -/
theorem take_eq_of_between {s t : List β} (hs : s.Pairwise (· < ·)) (ht : t.Pairwise (· < ·)) {k : ℕ}
    (hsub : ∀ x ∈ t, x ∈ s) (hfront : ∀ x ∈ s.take k, x ∈ t) : t.take k = s.take k := by
  have hfilter : s.filter (· ∈ t) = t := by
    refine eq_of_sorted (hs.sublist List.filter_sublist) ht ?_
    intro x
    rw [List.mem_filter, decide_eq_true_iff]
    exact ⟨And.right, fun hx => ⟨hsub x hx, hx⟩⟩
  have hkeep : (s.take k).filter (· ∈ t) = s.take k := by
    rw [List.filter_eq_self]
    intro x hx
    exact decide_eq_true (hfront x hx)
  have hsplit : t = s.take k ++ (s.drop k).filter (· ∈ t) := by
    conv_lhs => rw [← hfilter, ← List.take_append_drop k s, List.filter_append, hkeep]
  rw [hsplit]
  by_cases hk : k ≤ s.length
  · exact List.take_left' (by rw [List.length_take, Nat.min_eq_left hk])
  · rw [List.drop_eq_nil_of_le (by omega), List.filter_nil, List.append_nil, List.take_take,
      Nat.min_self]

/-- **Pages suffice for a page.** -/
theorem take_names_take {a b : List β} (ha : a.Pairwise (· < ·)) (hb : b.Pairwise (· < ·)) (k : ℕ) :
    (names (a.take k) (b.take k)).take k = (names a b).take k := by
  refine take_eq_of_between (names_sorted _ _) (names_sorted _ _) ?_ ?_
  · intro x hx
    rw [mem_names] at hx ⊢
    exact hx.imp List.mem_of_mem_take List.mem_of_mem_take
  · intro x hx
    have hmem := mem_names.mp (List.mem_of_mem_take hx)
    rw [mem_names]
    rcases hmem with hxa | hxb
    · exact Or.inl (mem_take_of_mem_take ha (names_sorted a b)
        (fun y hy => mem_names.mpr (Or.inl hy)) hx hxa)
    · exact Or.inr (mem_take_of_mem_take hb (names_sorted a b)
        (fun y hy => mem_names.mpr (Or.inr hy)) hx hxb)

theorem filter_names (p : β → Bool) (a b : List β) :
    (names a b).filter p = names (a.filter p) (b.filter p) := by
  refine eq_of_sorted ((names_sorted a b).sublist List.filter_sublist) (names_sorted _ _) ?_
  intro x
  rw [List.mem_filter, mem_names, mem_names, List.mem_filter, List.mem_filter]
  tauto

end Zs3Server.Lib.SortedMerge
