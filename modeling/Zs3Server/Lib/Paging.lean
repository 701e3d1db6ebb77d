import Mathlib.Data.List.Sort
import Mathlib.Data.List.Forall2
import Mathlib.Order.Basic
import Mathlib.Tactic.Common

/-!
# Paging through a sorted list

A server keeps entries in strictly increasing order of a key and answers a request with the first few
entries after a given key.  A client asks again from the last key it was given.

* `Cursor key all seen rest at` — the entries up to the key `at` are `seen`, the ones after it `rest`;
* `Cursor.filter_eq` — what the server finds after the cursor is `rest`;
* `Cursor.advance` — the cursor after a page, at the key of its last entry;
* `collect` — the client's loop: ask, and ask again while the answer names a next position;
* `collect_covers` — if every answer takes entries from the front of what is left and stops only
  when nothing is left, the loop ends and its answers take every entry, once and in order.
-/

namespace Zs3Server.Lib.Paging

section Cursor

variable {α β : Type*} [LinearOrder β] {key : α → β} {all seen rest page : List α} {pos : β}

/-- The position `pos` in the list `all`: the entries of `seen` are not after it, those of `rest`
are. -/
structure Cursor (key : α → β) (all seen rest : List α) (pos : β) : Prop where
  split : seen ++ rest = all
  seen_le : ∀ x ∈ seen, key x ≤ pos
  lt_rest : ∀ x ∈ rest, pos < key x

/-- A position before every entry. -/
theorem Cursor.start (h : ∀ x ∈ all, pos < key x) : Cursor key all [] all pos :=
  ⟨rfl, by simp, h⟩

/-- A position anywhere. -/
theorem Cursor.of_sorted (hsorted : all.Pairwise (key · < key ·)) {after : α → Bool}
    (hafter : ∀ x, after x = true ↔ pos < key x) :
    Cursor key all (all.filter fun x => !after x) (all.filter after) pos := by
  refine ⟨?_, ?_, ?_⟩
  · induction all with
    | nil => rfl
    | cons x all ih =>
      rw [List.pairwise_cons] at hsorted
      by_cases hx : pos < key x
      · -- the entries behind `x` are after the position too
        have htrue : ∀ y ∈ x :: all, after y = true := by
          intro y hy
          rw [hafter]
          rcases List.mem_cons.mp hy with rfl | hy
          · exact hx
          · exact lt_trans hx (hsorted.1 y hy)
        rw [List.filter_eq_nil_iff.mpr fun y hy => by simp [htrue y hy],
          List.filter_eq_self.mpr htrue, List.nil_append]
      · have hrest := ih hsorted.2
        have hfalse : after x = false := by
          rw [← Bool.not_eq_true, hafter]
          exact hx
        simp only [List.filter_cons, hfalse, Bool.not_false, if_true, List.cons_append,
          Bool.false_eq_true, if_false, hrest]
  · intro x hx
    have hnot := (List.mem_filter.mp hx).2
    rw [Bool.not_eq_true', ← Bool.not_eq_true, hafter] at hnot
    exact not_lt.mp hnot
  · intro x hx
    exact (hafter x).mp (List.mem_filter.mp hx).2

/-- What comes after the cursor is what is left. -/
theorem Cursor.filter_eq (h : Cursor key all seen rest pos) {after : α → Bool}
    (hafter : ∀ x, after x = true ↔ pos < key x) : all.filter after = rest := by
  have hseen : seen.filter after = [] := by
    rw [List.filter_eq_nil_iff]
    intro x hx hlt
    exact absurd ((hafter x).mp hlt) (not_lt.mpr (h.seen_le x hx))
  have hrest : rest.filter after = rest := by
    rw [List.filter_eq_self]
    intro x hx
    exact (hafter x).mpr (h.lt_rest x hx)
  rw [← h.split, List.filter_append, hseen, hrest, List.nil_append]

/-- **The cursor after a page.**  Once the entries up to `x` are taken, the position is `x`'s key. -/
theorem Cursor.advance (h : Cursor key all seen rest pos) (hsorted : all.Pairwise (key · < key ·))
    {left : List α} (hpage : page ++ left = rest) {x : α} (hx : page.getLast? = some x) :
    Cursor key all (seen ++ page) left (key x) := by
  obtain ⟨front, rfl⟩ := List.getLast?_eq_some_iff.mp hx
  have hsplit : (seen ++ (front ++ [x])) ++ left = all := by
    rw [List.append_assoc, hpage, h.split]
  refine ⟨hsplit, ?_, ?_⟩
  · -- everything taken is before `x`, or is `x`
    intro y hy
    rw [← hsplit, ← List.append_assoc, List.append_assoc, List.singleton_append] at hsorted
    rw [← List.append_assoc, List.mem_append, List.mem_singleton] at hy
    rcases hy with hy | rfl
    · exact le_of_lt ((List.pairwise_append.mp hsorted).2.2 y hy x List.mem_cons_self)
    · exact le_rfl
  · intro y hy
    rw [← hsplit] at hsorted
    exact (List.pairwise_append.mp hsorted).2.2 x (by simp) y hy

end Cursor

section Collect

variable {μ π α γ : Type*}

/-- The client's loop: the answers to a request at `m` and to the requests that follow it.  `none`
says that the fuel did not suffice, or that a call gave no answer. -/
def collect (call : μ → Option π) (next : π → Option μ) : ℕ → μ → Option (List π)
  | 0, _ => none
  | fuel + 1, m =>
    (call m).bind fun p =>
      match next p with
      | none => some [p]
      | some m' => (collect call next fuel m').map (p :: ·)

/-- **The loop takes every entry.**  `A m seen rest` says which entries are before and after the
position `m`, and `Shows p page` that the answer `p` shows the entries `page`. -/
theorem collect_covers {call : μ → Option π} {next : π → Option μ} {A : μ → List α → List α → Prop}
    {Shows : π → List α → Prop}
    (hcall : ∀ m seen rest, A m seen rest → ∃ p page left, call m = some p ∧ page ++ left = rest ∧
      Shows p page ∧ (next p = none → left = []) ∧
      ∀ m', next p = some m' → page ≠ [] ∧ A m' (seen ++ page) left) :
    ∀ (n : ℕ) (m : μ) (seen rest : List α), rest.length ≤ n → A m seen rest →
      ∃ answers shown, collect call next (n + 1) m = some answers ∧
        List.Forall₂ Shows answers shown ∧ shown.flatten = rest := by
  -- by induction on a bound of what is left: an answer that is not the last one takes an entry
  intro n
  induction n with
  | zero =>
    intro m seen rest hlen hat
    obtain ⟨p, page, left, hp, hsplit, hshows, hlast, hmore⟩ := hcall m seen rest hat
    have hnil : rest = [] := List.length_eq_zero_iff.mp (Nat.le_zero.mp hlen)
    have hpage : page = [] := (List.append_eq_nil_iff.mp (hsplit.trans hnil)).1
    cases hn : next p with
    | some m' => exact absurd hpage (hmore m' hn).1
    | none =>
      refine ⟨[p], [page], by simp [collect, hp, hn], .cons hshows .nil, ?_⟩
      rw [hpage, hnil]
      rfl
  | succ n ih =>
    intro m seen rest hlen hat
    obtain ⟨p, page, left, hp, hsplit, hshows, hlast, hmore⟩ := hcall m seen rest hat
    cases hn : next p with
    | none =>
      refine ⟨[p], [page], by simp [collect, hp, hn], .cons hshows .nil, ?_⟩
      rw [← hsplit, hlast hn]
      simp
    | some m' =>
      obtain ⟨hpage, hat'⟩ := hmore m' hn
      have hlt : left.length ≤ n := by
        have hpos := List.length_pos_iff.mpr hpage
        rw [← hsplit, List.length_append] at hlen
        omega
      obtain ⟨answers, shown, hrun, hall, hflat⟩ := ih m' (seen ++ page) left hlt hat'
      refine ⟨p :: answers, page :: shown, ?_, .cons hshows hall, ?_⟩
      · rw [collect, hp, Option.bind_some]
        simp only [hn, hrun, Option.map_some]
      · rw [List.flatten_cons, hflat, hsplit]

/-- A view of the answers that is computed entry by entry is computed from all the entries. -/
theorem flatMap_of_shows {Shows : π → List α → Prop} {view : π → List γ} {f : α → Option γ}
    (hview : ∀ p page, Shows p page → view p = page.filterMap f) {answers : List π}
    {shown : List (List α)} (h : List.Forall₂ Shows answers shown) :
    answers.flatMap view = shown.flatten.filterMap f := by
  induction h with
  | nil => rfl
  | cons hp _ ih => rw [List.flatMap_cons, List.flatten_cons, List.filterMap_append, ih, hview _ _ hp]

end Collect

end Zs3Server.Lib.Paging
