import Mathlib

/-!
# Array-backed binary min-heaps, as `container/heap` keeps them

The heap functions of the Go standard library over a slice with its natural order: `up` and `down`
are the two sifting loops (position `i` has its children at `2i + 1` and `2i + 2`), `push` appends
and sifts up, `pop` swaps the root with the last entry, sifts down in the shortened prefix and cuts
the last entry off.  The loops recurse on a fuel that bounds the positions they can still visit, so
that they compute.

* `push_ordered`, `push_perm` — pushing keeps the heap order and adds exactly the new entry;
* `pop_spec` — popping a non-empty heap answers its root, which is a least entry, leaves a heap,
  and removes exactly that entry;
* `root_le` — the root of an ordered heap is at most every entry;
* `Heap` — arrays that carry their heap order, seen from outside as the multiset of their entries
  with its least entry at the head (`Heap.entries_push`, `Heap.head?_spec`, `Heap.pop_of_head?`).

Everything is over an arbitrary linear order.
-/

namespace Zs3Server.Lib.BinaryHeap

variable {α : Type*}

/-! ### Swapping two positions -/

/-- A swap inside the array renames the positions. -/
theorem getElem?_swap (xs : Array α) {i j : ℕ} (hi : i < xs.size) (hj : j < xs.size) (k : ℕ) :
    (xs.swapIfInBounds i j)[k]? = xs[Equiv.swap i j k]? := by
  rw [Array.swapIfInBounds_def, dif_pos hi, dif_pos hj, Equiv.swap_apply_def]
  by_cases hk : k < xs.size
  · have hk' : k < (xs.swap i j hi hj).size := by simpa using hk
    rw [Array.getElem?_eq_getElem hk', Array.getElem_swap]
    split_ifs <;> simp [hi, hj, hk]
  · have hki : k ≠ i := by omega
    have hkj : k ≠ j := by omega
    rw [if_neg hki, if_neg hkj, Array.getElem?_eq_none (by simpa using hk),
      Array.getElem?_eq_none (by omega)]

theorem swap_size (xs : Array α) (i j : ℕ) : (xs.swapIfInBounds i j).size = xs.size := by
  simp

theorem swap_perm (xs : Array α) (i j : ℕ) :
    (xs.swapIfInBounds i j).toList.Perm xs.toList := by
  rw [Array.swapIfInBounds_def]
  split_ifs with hi hj
  · exact Array.perm_iff_toList_perm.mp (Array.swap_perm hi hj)
  · exact List.Perm.refl _
  · exact List.Perm.refl _

variable [LinearOrder α]

/-! ### The operations -/

/-- `Less(j, i)`: the entry at `j` is strictly below the entry at `i`. -/
def less (xs : Array α) (j i : ℕ) : Bool :=
  match xs[j]?, xs[i]? with
  | some a, some b => decide (a < b)
  | _, _ => false

/-- The sift-up loop: swap `j` with its parent while it is below it. -/
def up : ℕ → Array α → ℕ → Array α
  | 0, xs, _ => xs
  | fuel + 1, xs, j =>
      let i := (j - 1) / 2
      if i = j ∨ less xs j i = false then xs else up fuel (xs.swapIfInBounds i j) i

/-- The child the sift-down loop compares with: the right one if it is strictly below the left. -/
def smallerChild (xs : Array α) (i n : ℕ) : ℕ :=
  if 2 * i + 2 < n ∧ less xs (2 * i + 2) (2 * i + 1) = true then 2 * i + 2 else 2 * i + 1

/-- The sift-down loop in the first `n` positions: swap `i` with its smaller child while that one
is below it. -/
def down : ℕ → Array α → ℕ → ℕ → Array α
  | 0, xs, _, _ => xs
  | fuel + 1, xs, i, n =>
      if n ≤ 2 * i + 1 then xs
      else if less xs (smallerChild xs i n) i = false then xs
      else down fuel (xs.swapIfInBounds i (smallerChild xs i n)) (smallerChild xs i n) n

/-- `heap.Push`. -/
def push (xs : Array α) (x : α) : Array α := up xs.size (xs.push x) xs.size

/-- `heap.Pop`; `none` stands for the index panic on an empty heap. -/
def pop (xs : Array α) : Option (α × Array α) :=
  let n := xs.size - 1
  let ys := down n (xs.swapIfInBounds 0 n) 0 n
  ys.back?.map fun x => (x, ys.pop)

/-! ### Comparing positions -/

/-- The entry at `i` is at most the entry at `j`, when both positions are in the array. -/
def Le (xs : Array α) (i j : ℕ) : Prop :=
  ∀ a b, xs[i]? = some a → xs[j]? = some b → a ≤ b

/-- The heap order in the first `n` positions: every entry is at least its parent. -/
def OrderedTo (xs : Array α) (n : ℕ) : Prop :=
  ∀ k, 0 < k → k < n → Le xs ((k - 1) / 2) k

/-- The heap order of the whole array. -/
def Ordered (xs : Array α) : Prop := OrderedTo xs xs.size

theorem less_false_iff (xs : Array α) (j i : ℕ) : less xs j i = false ↔ Le xs i j := by
  unfold less Le
  cases xs[j]? <;> cases xs[i]? <;> simp

theorem Le.refl (xs : Array α) (i : ℕ) : Le xs i i := by
  intro a b ha hb
  rw [ha] at hb
  exact le_of_eq (Option.some.inj hb)

theorem Le.of_less {xs : Array α} {j i : ℕ} (h : less xs j i = true) : Le xs j i := by
  unfold less at h
  intro a b ha hb
  rw [ha, hb] at h
  exact le_of_lt (by simpa using h)

theorem Le.trans {xs : Array α} {i j k : ℕ} (hj : j < xs.size) (h₁ : Le xs i j) (h₂ : Le xs j k) :
    Le xs i k := by
  intro a b ha hb
  have hm : xs[j]? = some xs[j] := Array.getElem?_eq_getElem hj
  exact le_trans (h₁ a _ ha hm) (h₂ _ b hm hb)

theorem le_swap_iff (xs : Array α) {i j : ℕ} (hi : i < xs.size) (hj : j < xs.size) (p q : ℕ) :
    Le (xs.swapIfInBounds i j) p q ↔ Le xs (Equiv.swap i j p) (Equiv.swap i j q) := by
  unfold Le
  rw [getElem?_swap xs hi hj, getElem?_swap xs hi hj]

/-- **The root is a least entry** of an ordered prefix. -/
theorem root_le {xs : Array α} {n : ℕ} (hn : n ≤ xs.size) (h : OrderedTo xs n) :
    ∀ k, k < n → Le xs 0 k := by
  intro k
  induction k using Nat.strongRecOn with
  | ind k ih =>
    intro hk
    by_cases hk0 : k = 0
    · subst hk0; exact Le.refl xs 0
    · exact (ih ((k - 1) / 2) (by omega) (by omega)).trans (by omega) (h k (by omega) hk)

/-! ### Sifting up -/

/-- What the sift-up loop needs at `j`: only the edge into `j` may be out of order, and the
children of `j` are at least its parent. -/
structure UpReady (xs : Array α) (j : ℕ) : Prop where
  except : ∀ k, 0 < k → k < xs.size → k ≠ j → Le xs ((k - 1) / 2) k
  grand : ∀ k, 0 < j → 0 < k → k < xs.size → (k - 1) / 2 = j → Le xs ((j - 1) / 2) k

theorem UpReady.swap {xs : Array α} {j : ℕ} (h : UpReady xs j) (hj : j < xs.size) (hj0 : 0 < j)
    (hless : less xs j ((j - 1) / 2) = true) :
    UpReady (xs.swapIfInBounds ((j - 1) / 2) j) ((j - 1) / 2) := by
  set i := (j - 1) / 2 with hidef
  have hij : i < j := by omega
  have hi : i < xs.size := by omega
  have hji : Le xs j i := Le.of_less hless
  constructor
  · intro k hk0 hk hki
    rw [swap_size] at hk
    rw [le_swap_iff xs hi hj]
    by_cases hkj : k = j
    · subst hkj
      rw [← hidef, Equiv.swap_apply_left, Equiv.swap_apply_right]
      exact hji
    · rw [Equiv.swap_apply_of_ne_of_ne hki hkj]
      by_cases hpi : (k - 1) / 2 = i
      · -- a sibling of `j`: it was at least the old parent
        rw [hpi, Equiv.swap_apply_left]
        exact hji.trans hi (hpi ▸ h.except k hk0 hk hkj)
      · by_cases hpj : (k - 1) / 2 = j
        · rw [hpj, Equiv.swap_apply_right]
          exact h.grand k hj0 hk0 hk hpj
        · rw [Equiv.swap_apply_of_ne_of_ne hpi hpj]
          exact h.except k hk0 hk hkj
  · intro k hi0 hk0 hk hpk
    rw [swap_size] at hk
    have hpi : Le xs ((i - 1) / 2) i := h.except i hi0 hi (by omega)
    rw [le_swap_iff xs hi hj,
      Equiv.swap_apply_of_ne_of_ne (show (i - 1) / 2 ≠ i by omega) (show (i - 1) / 2 ≠ j by omega)]
    by_cases hkj : k = j
    · subst hkj
      rw [Equiv.swap_apply_right]
      exact hpi
    · rw [Equiv.swap_apply_of_ne_of_ne (show k ≠ i by omega) hkj]
      exact hpi.trans hi (hpk ▸ h.except k hk0 hk hkj)

theorem up_ordered : ∀ (fuel : ℕ) (xs : Array α) (j : ℕ), j ≤ fuel → j < xs.size →
    UpReady xs j → Ordered (up fuel xs j) := by
  intro fuel
  induction fuel with
  | zero =>
    intro xs j hf _ h k hk0 hk
    exact h.except k hk0 hk (by omega)
  | succ fuel ih =>
    intro xs j hf hj h
    rw [up]
    split
    · rename_i hstop
      intro k hk0 hk
      by_cases hkj : k = j
      · subst hkj
        rcases hstop with h0 | hle
        · omega
        · exact (less_false_iff xs k _).mp hle
      · exact h.except k hk0 hk hkj
    · rename_i hgo
      obtain ⟨hne, hless⟩ := not_or.mp hgo
      have hj0 : 0 < j := by
        rcases Nat.eq_zero_or_pos j with h0 | h0
        · subst h0; exact absurd rfl hne
        · exact h0
      refine ih _ _ (by omega) (by rw [swap_size]; omega) (h.swap hj hj0 ?_)
      simpa using hless

theorem up_perm : ∀ (fuel : ℕ) (xs : Array α) (j : ℕ), (up fuel xs j).toList.Perm xs.toList := by
  intro fuel
  induction fuel with
  | zero => intro xs j; exact List.Perm.refl _
  | succ fuel ih =>
    intro xs j
    rw [up]
    split
    · exact List.Perm.refl _
    · exact (ih _ _).trans (swap_perm xs _ j)

/-- **Pushing keeps the heap order.** -/
theorem push_ordered {xs : Array α} (h : Ordered xs) (x : α) : Ordered (push xs x) := by
  refine up_ordered _ _ _ le_rfl (by simp) ⟨?_, ?_⟩
  · intro k hk0 hk hne a b ha hb
    have hk' : k < xs.size := by rw [Array.size_push] at hk; omega
    rw [Array.getElem?_push, if_neg (by omega)] at ha hb
    exact h k hk0 hk' a b ha hb
  · intro k _ _ hk hp
    rw [Array.size_push] at hk
    omega

/-- **Pushing adds exactly the new entry.** -/
theorem push_perm (xs : Array α) (x : α) : (push xs x).toList.Perm (x :: xs.toList) := by
  refine (up_perm _ _ _).trans ?_
  rw [Array.toList_push]
  exact List.perm_append_singleton x xs.toList

/-! ### Sifting down -/

/-- What the sift-down loop needs at `i`: only the edges out of `i` may be out of order, and the
children of `i` are at least its parent. -/
structure DownReady (xs : Array α) (i n : ℕ) : Prop where
  except : ∀ k, 0 < k → k < n → (k - 1) / 2 ≠ i → Le xs ((k - 1) / 2) k
  grand : ∀ k, 0 < i → 0 < k → k < n → (k - 1) / 2 = i → Le xs ((i - 1) / 2) k

theorem smallerChild_bounds (xs : Array α) {i n : ℕ} (h : 2 * i + 1 < n) :
    smallerChild xs i n < n ∧ (smallerChild xs i n - 1) / 2 = i ∧ 0 < smallerChild xs i n := by
  unfold smallerChild
  split
  · rename_i hc
    exact ⟨hc.1, by omega, by omega⟩
  · exact ⟨h, by omega, by omega⟩

/-- The chosen child is at most every child. -/
theorem smallerChild_le (xs : Array α) {i n k : ℕ} (hk0 : 0 < k) (hk : k < n)
    (hp : (k - 1) / 2 = i) : Le xs (smallerChild xs i n) k := by
  have hcases : k = 2 * i + 1 ∨ k = 2 * i + 2 := by omega
  unfold smallerChild
  split
  · rename_i hc
    rcases hcases with rfl | rfl
    · exact Le.of_less hc.2
    · exact Le.refl xs _
  · rename_i hc
    rcases hcases with rfl | rfl
    · exact Le.refl xs _
    · refine (less_false_iff xs _ _).mp ?_
      simpa [hk] using hc

theorem DownReady.swap {xs : Array α} {i n : ℕ} (h : DownReady xs i n) (hn : n ≤ xs.size)
    (hc : 2 * i + 1 < n) (hless : less xs (smallerChild xs i n) i = true) :
    DownReady (xs.swapIfInBounds i (smallerChild xs i n)) (smallerChild xs i n) n := by
  obtain ⟨hjn, hjp, hj0⟩ := smallerChild_bounds xs hc
  have hmin : ∀ k, 0 < k → k < n → (k - 1) / 2 = i → Le xs (smallerChild xs i n) k :=
    fun k hk0 hk hp => smallerChild_le xs hk0 hk hp
  generalize smallerChild xs i n = j at *
  have hi : i < xs.size := by omega
  have hj : j < xs.size := by omega
  have hji : Le xs j i := Le.of_less hless
  constructor
  · intro k hk0 hk hpj
    rw [le_swap_iff xs hi hj]
    by_cases hki : k = i
    · subst hki
      rw [Equiv.swap_apply_left, Equiv.swap_apply_of_ne_of_ne (by omega) hpj]
      exact h.grand j hk0 hj0 hjn hjp
    · by_cases hkj : k = j
      · subst hkj
        rw [hjp, Equiv.swap_apply_left, Equiv.swap_apply_right]
        exact hji
      · rw [Equiv.swap_apply_of_ne_of_ne hki hkj]
        by_cases hpi : (k - 1) / 2 = i
        · rw [hpi, Equiv.swap_apply_left]
          exact hmin k hk0 hk hpi
        · rw [Equiv.swap_apply_of_ne_of_ne hpi hpj]
          exact h.except k hk0 hk hpi
  · intro k _ hk0 hk hpk
    rw [le_swap_iff xs hi hj, hjp, Equiv.swap_apply_left,
      Equiv.swap_apply_of_ne_of_ne (show k ≠ i by omega) (show k ≠ j by omega)]
    exact hpk ▸ h.except k hk0 hk (by omega)

theorem down_ordered : ∀ (fuel : ℕ) (xs : Array α) (i n : ℕ), n ≤ fuel + i → n ≤ xs.size →
    DownReady xs i n → OrderedTo (down fuel xs i n) n := by
  intro fuel
  induction fuel with
  | zero =>
    intro xs i n hf _ h k hk0 hk
    exact h.except k hk0 hk (by omega)
  | succ fuel ih =>
    intro xs i n hf hn h
    rw [down]
    split
    · intro k hk0 hk
      exact h.except k hk0 hk (by omega)
    · rename_i hc
      obtain ⟨hjn, hjp, hj0⟩ := smallerChild_bounds xs (not_le.mp hc)
      split
      · rename_i hle
        intro k hk0 hk
        by_cases hpi : (k - 1) / 2 = i
        · rw [hpi]
          exact ((less_false_iff xs _ _).mp hle).trans (by omega) (smallerChild_le xs hk0 hk hpi)
        · exact h.except k hk0 hk hpi
      · rename_i hgo
        exact ih _ _ _ (by omega) (by rw [swap_size]; exact hn)
          (h.swap hn (not_le.mp hc) (by simpa using hgo))

/-- Sifting down permutes the array and leaves the positions from `n` on alone. -/
theorem down_frame : ∀ (fuel : ℕ) (xs : Array α) (i n : ℕ), n ≤ xs.size →
    (down fuel xs i n).toList.Perm xs.toList ∧
      ∀ k, n ≤ k → (down fuel xs i n)[k]? = xs[k]? := by
  intro fuel
  induction fuel with
  | zero => intro xs i n _; exact ⟨List.Perm.refl _, fun _ _ => rfl⟩
  | succ fuel ih =>
    intro xs i n hn
    rw [down]
    split
    · exact ⟨List.Perm.refl _, fun _ _ => rfl⟩
    · rename_i hc
      obtain ⟨hjn, hjp, hj0⟩ := smallerChild_bounds xs (not_le.mp hc)
      split
      · exact ⟨List.Perm.refl _, fun _ _ => rfl⟩
      · obtain ⟨hperm, hrest⟩ := ih (xs.swapIfInBounds i (smallerChild xs i n))
          (smallerChild xs i n) n (by rw [swap_size]; exact hn)
        refine ⟨hperm.trans (swap_perm xs _ _), ?_⟩
        intro k hk
        rw [hrest k hk, getElem?_swap xs (by omega) (by omega),
          Equiv.swap_apply_of_ne_of_ne (by omega) (by omega)]

/-- **Popping a non-empty heap** answers its root, which is a least entry, and leaves a heap of
exactly the other entries. -/
theorem pop_spec {xs : Array α} (h : Ordered xs) (hne : 0 < xs.size) :
    ∃ x ys, pop xs = some (x, ys) ∧ xs[0]? = some x ∧ Ordered ys ∧
      xs.toList.Perm (x :: ys.toList) ∧ ∀ y ∈ xs.toList, x ≤ y := by
  set n := xs.size - 1 with hn
  set zs := down n (xs.swapIfInBounds 0 n) 0 n with hzs
  have hready : DownReady (xs.swapIfInBounds 0 n) 0 n := by
    constructor
    · intro k hk0 hk hp
      rw [le_swap_iff xs (by omega) (by omega), Equiv.swap_apply_of_ne_of_ne hp (by omega),
        Equiv.swap_apply_of_ne_of_ne (by omega) (by omega)]
      exact h k hk0 (by omega)
    · intro k hk
      exact absurd hk (lt_irrefl 0)
  have hord : OrderedTo zs n := down_ordered n _ 0 n (by omega) (by rw [swap_size]; omega) hready
  obtain ⟨hperm, hrest⟩ := down_frame n (xs.swapIfInBounds 0 n) 0 n (by rw [swap_size]; omega)
  rw [← hzs] at hperm hrest
  have hpx : zs.toList.Perm xs.toList := hperm.trans (swap_perm xs 0 n)
  have hsize : zs.size = xs.size := by simpa using hpx.length_eq
  have hlast : zs[n]? = some xs[0] := by
    rw [hrest n le_rfl, getElem?_swap xs (by omega) (by omega), Equiv.swap_apply_right]
    exact Array.getElem?_eq_getElem hne
  have hback : zs.back? = some xs[0] := by
    rw [Array.back?_eq_getElem?, hsize, ← hn]
    exact hlast
  have hsplit : zs.toList = zs.pop.toList ++ [xs[0]] := by
    have hzne : zs.toList ≠ [] := by
      intro h0
      have : zs.toList.length = 0 := by rw [h0]; rfl
      rw [Array.length_toList] at this
      omega
    have hgl : zs.toList.getLast hzne = xs[0] := by
      have hl : zs.toList.getLast? = some xs[0] := by
        rw [Array.getLast?_toList]
        exact hback
      rw [List.getLast?_eq_getLast_of_ne_nil hzne] at hl
      exact Option.some.inj hl
    rw [Array.toList_pop, ← hgl, List.dropLast_append_getLast hzne]
  refine ⟨xs[0], zs.pop, ?_, Array.getElem?_eq_getElem hne, ?_, ?_, ?_⟩
  · rw [pop, ← hn, ← hzs, hback]
    rfl
  · intro k hk0 hk a b ha hb
    rw [Array.size_pop, hsize] at hk
    rw [Array.getElem?_pop, if_pos (by omega)] at ha hb
    exact hord k hk0 (by omega) a b ha hb
  · rw [hsplit] at hpx
    exact hpx.symm.trans (List.perm_append_singleton _ _)
  · intro y hy
    obtain ⟨k, hk, rfl⟩ := List.mem_iff_getElem.mp hy
    have hk' : k < xs.size := by simpa using hk
    exact root_le le_rfl h k hk' _ _ (Array.getElem?_eq_getElem hne)
      (by rw [Array.getElem?_eq_getElem hk']; simp)

/-- Popping an empty heap is the index panic. -/
theorem pop_empty {xs : Array α} (h : xs.size = 0) : pop xs = none := by
  have hx : xs = #[] := Array.eq_empty_of_size_eq_zero h
  subst hx
  rfl

/-! ### Heaps that carry their order -/

/-- An array in heap order. -/
def Heap (α : Type*) [LinearOrder α] : Type _ := { xs : Array α // Ordered xs }

namespace Heap

/-- The empty heap, which `heap.Init` leaves as it is. -/
def empty : Heap α := ⟨#[], fun k _ hk => absurd hk (Nat.not_lt_zero k)⟩

/-- The number of entries. -/
def size (h : Heap α) : ℕ := h.1.size

/-- The entry at position 0. -/
def head? (h : Heap α) : Option α := h.1[0]?

/-- `heap.Push` on an ordered heap. -/
def push (h : Heap α) (x : α) : Heap α := ⟨BinaryHeap.push h.1 x, push_ordered h.2 x⟩

theorem ordered_of_pop {xs ys : Array α} {x : α} (h : Ordered xs) (hp : BinaryHeap.pop xs = some (x, ys)) :
    Ordered ys := by
  rcases Nat.eq_zero_or_pos xs.size with h0 | h0
  · rw [pop_empty h0] at hp
    exact absurd hp (by simp)
  · obtain ⟨x', ys', hpop, -, hord, -⟩ := pop_spec h h0
    rw [hpop] at hp
    obtain ⟨-, rfl⟩ := Prod.mk.inj (Option.some.inj hp)
    exact hord

/-- `heap.Pop` on an ordered heap; `none` stands for the index panic on an empty one. -/
def pop (h : Heap α) : Option (α × Heap α) :=
  match hp : BinaryHeap.pop h.1 with
  | some (x, ys) => some (x, ⟨ys, ordered_of_pop h.2 hp⟩)
  | none => none

/-- The entries of a heap, forgetting the order they are kept in. -/
def entries (h : Heap α) : Multiset α := (h.1.toList : Multiset α)

@[simp] theorem entries_empty : (empty : Heap α).entries = 0 := rfl

@[simp] theorem card_entries (h : Heap α) : h.entries.card = h.size := by
  simp [entries, size]

@[simp] theorem entries_push (h : Heap α) (x : α) : (h.push x).entries = x ::ₘ h.entries :=
  Multiset.coe_eq_coe.mpr (push_perm h.1 x)

theorem size_eq_zero_iff (h : Heap α) : h.size = 0 ↔ h.entries = 0 := by
  rw [← card_entries, Multiset.card_eq_zero]

/-- **The head of a heap is a least entry.** -/
theorem head?_spec {h : Heap α} {x : α} (hx : h.head? = some x) :
    x ∈ h.entries ∧ ∀ y ∈ h.entries, x ≤ y := by
  have h0 : 0 < h.1.size := by
    by_contra hc
    rw [head?, Array.getElem?_eq_none (by omega)] at hx
    exact absurd hx (by simp)
  obtain ⟨x', ys, -, hroot, -, hperm, hmin⟩ := pop_spec h.2 h0
  obtain rfl : x = x' := Option.some.inj (hx.symm.trans hroot)
  exact ⟨Multiset.mem_coe.mpr (hperm.mem_iff.mpr List.mem_cons_self),
    fun y hy => hmin y (Multiset.mem_coe.mp hy)⟩

theorem head?_eq_none_iff (h : Heap α) : h.head? = none ↔ h.entries = 0 := by
  rw [← size_eq_zero_iff, head?, size]
  exact Array.getElem?_eq_none_iff.trans Nat.le_zero

/-- **Popping** a heap with head `x` answers `x` and removes it. -/
theorem pop_of_head? {h : Heap α} {x : α} (hx : h.head? = some x) :
    ∃ h', h.pop = some (x, h') ∧ h.entries = x ::ₘ h'.entries := by
  have h0 : 0 < h.1.size := by
    by_contra hc
    rw [head?, Array.getElem?_eq_none (by omega)] at hx
    exact absurd hx (by simp)
  obtain ⟨x', ys, hpop, hroot, hord, hperm, -⟩ := pop_spec h.2 h0
  obtain rfl : x = x' := Option.some.inj (hx.symm.trans hroot)
  refine ⟨⟨ys, hord⟩, ?_, Multiset.coe_eq_coe.mpr hperm⟩
  unfold pop
  split
  · rename_i x₁ ys₁ hp₁
    rw [hpop] at hp₁
    obtain ⟨rfl, rfl⟩ := Prod.mk.inj (Option.some.inj hp₁)
    rfl
  · rename_i hp₁
    rw [hpop] at hp₁
    exact absurd hp₁ (by simp)

theorem pop_of_entries_eq_zero {h : Heap α} (h0 : h.entries = 0) : h.pop = none := by
  have hsize : h.1.size = 0 := (size_eq_zero_iff h).mpr h0
  unfold pop
  split
  · rename_i x ys hp
    rw [pop_empty hsize] at hp
    exact absurd hp (by simp)
  · rfl

theorem entries_of_pop {h h' : Heap α} {x : α} (hp : h.pop = some (x, h')) :
    h.entries = x ::ₘ h'.entries := by
  cases hhead : h.head? with
  | none =>
    rw [pop_of_entries_eq_zero ((head?_eq_none_iff h).mp hhead)] at hp
    cases hp
  | some y =>
    obtain ⟨h₁, hpop, hentries⟩ := pop_of_head? hhead
    rw [hpop] at hp
    obtain ⟨rfl, rfl⟩ := Prod.mk.inj (Option.some.inj hp)
    exact hentries

/-- A heap with one entry: popping it leaves nothing. -/
theorem pop_singleton {h : Heap α} {x : α} (hx : h.entries = {x}) :
    ∃ h', h.pop = some (x, h') ∧ h'.pop = none := by
  cases hhead : h.head? with
  | none =>
    rw [head?_eq_none_iff, hx] at hhead
    exact absurd hhead (Multiset.singleton_ne_zero x)
  | some y =>
    obtain rfl : y = x := Multiset.mem_singleton.mp (hx ▸ (head?_spec hhead).1)
    obtain ⟨h', hpop, hentries⟩ := pop_of_head? hhead
    refine ⟨h', hpop, pop_of_entries_eq_zero ?_⟩
    rw [hx, ← Multiset.cons_zero, Multiset.cons_inj_right] at hentries
    exact hentries.symm

end Heap

end Zs3Server.Lib.BinaryHeap
