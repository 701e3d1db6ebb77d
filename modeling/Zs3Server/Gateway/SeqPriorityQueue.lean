import Zs3Server.Lib.BinaryHeap
import Zs3Server.Lib.StepSystem

/-!
# The sequential priority queue of part numbers

`SeqPriorityQueue` hands the part numbers of a multipart upload to the reading goroutine: `Push`
puts a number on a heap, `Done` says that no more are coming, and `Popup` waits until the head of
the heap is the number after the last one it returned.  Every method runs under the queue's mutex,
so each is one step; `Popup` sits in its condition loop while `popupWaits` holds and is then one
step too.

* `popup_cases` — everything a `Popup` can return;
* `PqInv`, kept by `PqInv.push`, `PqInv.setDone` and `PqInv.popup` — the numbers returned are
  `1, 2, …, next - 1`, and together with the heap they are exactly the numbers pushed;
* `popup_in_order` — so in every run of calls;
* `PqInv.not_waits`, `PqInv.perm_of_drained` — after `Done` the queue drains to its `-1` when no
  number was pushed twice, and only then;
* `popup_never_wedges_iff` — so a sequence of pushes of `1..n` is safe exactly when it has no
  duplicates.
-/

namespace Zs3Server.Gateway

open Lib.BinaryHeap Lib.StepSystem

/-- The queue of the source: a heap of part numbers, the start flag (number 1 has been pushed), the
next number to return and the done flag. -/
structure SeqPriorityQueue where
  queue : Heap ℤ
  start : Bool
  next : ℤ
  done : Bool

/-- `NewSeqPriorityQueue`. -/
def newSeqPriorityQueue : SeqPriorityQueue := ⟨Heap.empty, false, 1, false⟩

/-- `Push`. -/
def SeqPriorityQueue.push (pq : SeqPriorityQueue) (v : ℤ) : SeqPriorityQueue :=
  { pq with queue := pq.queue.push v, start := if v = 1 then true else pq.start }

/-- `Done`. -/
def SeqPriorityQueue.setDone (pq : SeqPriorityQueue) : SeqPriorityQueue := { pq with done := true }

/-- The condition under which `Popup` keeps waiting. -/
def SeqPriorityQueue.popupWaits (pq : SeqPriorityQueue) : Bool :=
  (pq.queue.size == 0 && !pq.done) || !pq.start ||
    (decide (0 < pq.queue.size) && decide (pq.queue.head? ≠ some pq.next))

/-- `Popup`: `none` while it waits, else the value it returns and the queue it leaves. -/
def SeqPriorityQueue.popup (pq : SeqPriorityQueue) : Option (ℤ × SeqPriorityQueue) :=
  if pq.popupWaits then none
  else if pq.queue.size == 0 && pq.done then some (-1, pq)
  else pq.queue.pop.map fun r => (r.1, { pq with queue := r.2, next := pq.next + 1 })

/-! ### What a `Popup` can do -/

theorem popupWaits_eq_false_iff (pq : SeqPriorityQueue) :
    pq.popupWaits = false ↔ pq.start = true ∧
      (pq.queue.entries = 0 ∧ pq.done = true ∨ pq.queue.head? = some pq.next) := by
  have hhead := Heap.head?_eq_none_iff pq.queue
  have hsize := Heap.size_eq_zero_iff pq.queue
  unfold SeqPriorityQueue.popupWaits
  rcases hs : pq.queue.size with _ | k
  · have he := hsize.mp hs
    rw [hhead.mpr he]
    simp only [he]
    cases pq.done <;> cases pq.start <;> simp
  · have hne : pq.queue.entries ≠ 0 := fun h0 => by rw [hsize.mpr h0] at hs; omega
    cases pq.start <;> simp [hne]

/-- **Everything a `Popup` returns**: `-1` from an empty queue after `Done`, or the next number,
which leaves the heap. -/
theorem popup_cases {pq pq' : SeqPriorityQueue} {r : ℤ} (h : pq.popup = some (r, pq')) :
    pq.start = true ∧
      ((r = -1 ∧ pq' = pq ∧ pq.queue.entries = 0 ∧ pq.done = true) ∨
        (r = pq.next ∧ pq.queue.entries = pq.next ::ₘ pq'.queue.entries ∧
          pq'.next = pq.next + 1 ∧ pq'.start = pq.start ∧ pq'.done = pq.done)) := by
  unfold SeqPriorityQueue.popup at h
  split at h
  · exact absurd h (by simp)
  · rename_i hw
    obtain ⟨hstart, hcase⟩ := (popupWaits_eq_false_iff pq).mp (by simpa using hw)
    refine ⟨hstart, ?_⟩
    split at h
    · rename_i hd
      obtain ⟨rfl, rfl⟩ := Prod.mk.inj (Option.some.inj h)
      simp only [Bool.and_eq_true, beq_iff_eq] at hd
      exact Or.inl ⟨rfl, rfl, (Heap.size_eq_zero_iff _).mp hd.1, hd.2⟩
    · rename_i hd
      have hhead : pq.queue.head? = some pq.next := by
        rcases hcase with ⟨he, hdone⟩ | hh
        · rw [hdone, (Heap.size_eq_zero_iff _).mpr he] at hd
          exact absurd rfl hd
        · exact hh
      obtain ⟨q, hpop, hent⟩ := Heap.pop_of_head? hhead
      rw [hpop] at h
      obtain ⟨rfl, rfl⟩ := Prod.mk.inj (Option.some.inj h)
      exact Or.inr ⟨rfl, hent, rfl, rfl, rfl⟩

/-- A `Popup` returns exactly when its wait condition is false. -/
theorem popup_isSome_of_not_waits {pq : SeqPriorityQueue} (h : pq.popupWaits = false) :
    ∃ r, pq.popup = some r := by
  obtain ⟨-, hcase⟩ := (popupWaits_eq_false_iff pq).mp h
  unfold SeqPriorityQueue.popup
  rw [if_neg (by simp [h])]
  rcases hcase with ⟨he, hd⟩ | hh
  · rw [(Heap.size_eq_zero_iff _).mpr he, hd]
    exact ⟨_, rfl⟩
  · obtain ⟨q, hpop, -⟩ := Heap.pop_of_head? hh
    rw [hpop]
    by_cases hc : (pq.queue.size == 0 && pq.done) = true
    · rw [if_pos hc]
      exact ⟨_, rfl⟩
    · rw [if_neg hc]
      exact ⟨_, rfl⟩

/-! ### Runs of the queue -/

/-- A call on the queue. -/
inductive QueueAct where
  | push (v : ℤ)
  | done
  | popup
  deriving DecidableEq

/-- The queue together with the values `Popup` has returned so far. -/
structure QueueState where
  pq : SeqPriorityQueue
  returned : List ℤ

/-- One call; a `Popup` that would wait is not enabled. -/
def queueStep (s : QueueState) : QueueAct → Option QueueState
  | .push v => some { s with pq := s.pq.push v }
  | .done => some { s with pq := s.pq.setDone }
  | .popup => s.pq.popup.map fun r => { pq := r.2, returned := s.returned ++ [r.1] }

/-- A fresh queue. -/
def queueInit : QueueState := ⟨newSeqPriorityQueue, []⟩

/-- The numbers a list of calls pushes, in order. -/
def pushesOf : List QueueAct → List ℤ
  | [] => []
  | .push v :: as => v :: pushesOf as
  | _ :: as => pushesOf as

/-- The numbers `1, …, m` as the queue returns them. -/
def firstParts (m : ℕ) : List ℤ := (List.range m).map fun i : ℕ => (i : ℤ) + 1

theorem firstParts_succ (m : ℕ) : firstParts (m + 1) = firstParts m ++ [(m : ℤ) + 1] := by
  simp [firstParts, List.range_succ]

theorem mem_firstParts {m : ℕ} {v : ℤ} : v ∈ firstParts m ↔ 1 ≤ v ∧ v ≤ m := by
  simp only [firstParts, List.mem_map, List.mem_range]
  constructor
  · rintro ⟨i, hi, rfl⟩
    omega
  · rintro ⟨h1, h2⟩
    exact ⟨(v - 1).toNat, by omega, by omega⟩

theorem firstParts_nodup (m : ℕ) : (firstParts m).Nodup :=
  List.nodup_range.map fun a b h => by simpa using h

/-- **The queue invariant**, for the multiset `pushed` of all numbers pushed so far: `m` numbers have
been returned in sequence; what was pushed and not returned is on the heap; the start flag says that
1 was pushed. -/
structure PqInv (pushed : Multiset ℤ) (m : ℕ) (pq : SeqPriorityQueue) : Prop where
  next_eq : pq.next = m + 1
  entries_eq : pushed = pq.queue.entries + (firstParts m : Multiset ℤ)
  start_iff : pq.start = true ↔ (1 : ℤ) ∈ pushed

theorem newSeqPriorityQueue_inv : PqInv 0 0 newSeqPriorityQueue :=
  ⟨rfl, rfl, by simp [newSeqPriorityQueue]⟩

theorem PqInv.push {pushed : Multiset ℤ} {m : ℕ} {pq : SeqPriorityQueue} (h : PqInv pushed m pq)
    (v : ℤ) : PqInv (v ::ₘ pushed) m (pq.push v) := by
  refine ⟨h.next_eq, ?_, ?_⟩
  · simp [SeqPriorityQueue.push, h.entries_eq]
  · simp only [SeqPriorityQueue.push, Multiset.mem_cons]
    by_cases hv : v = 1
    · simp [hv]
    · simp only [if_neg hv, h.start_iff]
      constructor
      · exact Or.inr
      · rintro (h1 | h1)
        · exact absurd h1.symm hv
        · exact h1

theorem PqInv.setDone {pushed : Multiset ℤ} {m : ℕ} {pq : SeqPriorityQueue}
    (h : PqInv pushed m pq) : PqInv pushed m pq.setDone :=
  ⟨h.next_eq, h.entries_eq, h.start_iff⟩

/-- A `Popup` returns `-1` from a drained queue, or the next number. -/
theorem PqInv.popup {pushed : Multiset ℤ} {m : ℕ} {pq pq' : SeqPriorityQueue} {v : ℤ}
    (h : PqInv pushed m pq) (hpop : pq.popup = some (v, pq')) :
    (v = -1 ∧ pq' = pq ∧ pq.queue.entries = 0 ∧ pq.done = true ∧ pq.start = true) ∨
      (v = m + 1 ∧ PqInv pushed (m + 1) pq' ∧ pq'.done = pq.done ∧ pq.queue.entries ≠ 0) := by
  obtain ⟨hstart, hcase⟩ := popup_cases hpop
  rcases hcase with ⟨rfl, rfl, he, hd⟩ | ⟨rfl, hent, hnext, hst, hdn⟩
  · exact Or.inl ⟨rfl, rfl, he, hd, hstart⟩
  · refine Or.inr ⟨h.next_eq, ⟨?_, ?_, ?_⟩, hdn, ?_⟩
    · rw [hnext, h.next_eq]
      push_cast
      rfl
    · rw [h.entries_eq, hent, h.next_eq, firstParts_succ, ← Multiset.coe_add, Multiset.coe_singleton,
        ← Multiset.singleton_add]
      abel
    · rw [hst]
      exact h.start_iff
    · rw [hent]
      exact Multiset.cons_ne_zero

/-- A drained queue has returned every number that was pushed, and none was pushed twice. -/
theorem PqInv.perm_of_drained {ps : List ℤ} {m : ℕ} {pq : SeqPriorityQueue} (h : PqInv ps m pq)
    (hd : pq.queue.entries = 0) : ps.Perm (firstParts m) := by
  have he := h.entries_eq
  rw [hd, zero_add] at he
  exact Multiset.coe_eq_coe.mp he

/-- The invariant of a queue with its results: `m` numbers, then `r` times `-1`, which only a
drained queue returns. -/
structure QueueInv (pushed : Multiset ℤ) (m r : ℕ) (s : QueueState) : Prop
    extends PqInv pushed m s.pq where
  returned_eq : s.returned = firstParts m ++ List.replicate r (-1)
  drained : 0 < r → s.pq.queue.entries = 0 ∧ s.pq.done = true ∧ s.pq.start = true

theorem queueInit_inv : QueueInv 0 0 0 queueInit :=
  ⟨newSeqPriorityQueue_inv, rfl, fun h => absurd h (by omega)⟩

theorem QueueInv.push {pushed : Multiset ℤ} {m : ℕ} {s : QueueState} (h : QueueInv pushed m 0 s)
    (v : ℤ) : QueueInv (v ::ₘ pushed) m 0 { s with pq := s.pq.push v } :=
  ⟨h.toPqInv.push v, h.returned_eq, fun h0 => absurd h0 (by omega)⟩

theorem QueueInv.done {pushed : Multiset ℤ} {m r : ℕ} {s : QueueState} (h : QueueInv pushed m r s) :
    QueueInv pushed m r { s with pq := s.pq.setDone } :=
  ⟨h.toPqInv.setDone, h.returned_eq, fun h0 => ⟨(h.drained h0).1, rfl, (h.drained h0).2.2⟩⟩

theorem QueueInv.popup {pushed : Multiset ℤ} {m r : ℕ} {s s' : QueueState}
    (h : QueueInv pushed m r s) (hs : queueStep s .popup = some s') :
    QueueInv pushed (m + 1) r s' ∧ r = 0 ∨ QueueInv pushed m (r + 1) s' := by
  simp only [queueStep, Option.map_eq_some_iff] at hs
  obtain ⟨⟨v, pq'⟩, hpop, rfl⟩ := hs
  rcases h.toPqInv.popup hpop with ⟨rfl, rfl, he, hd, hstart⟩ | ⟨rfl, h', hdn, hne⟩
  · refine Or.inr ⟨h.toPqInv, ?_, fun _ => ⟨he, hd, hstart⟩⟩
    show s.returned ++ [-1] = firstParts m ++ List.replicate (r + 1) (-1)
    rw [h.returned_eq, List.append_assoc, List.replicate_succ']
  · have hr : r = 0 := by
      by_contra hr
      exact hne (h.drained (by omega)).1
    subst hr
    refine Or.inl ⟨⟨h', ?_, fun h0 => absurd h0 (by omega)⟩, rfl⟩
    show s.returned ++ [(m : ℤ) + 1] = firstParts (m + 1) ++ List.replicate 0 (-1)
    rw [h.returned_eq, firstParts_succ]
    simp

/-- Before `Done`, a run of pushes and popups leads to a state of the invariant. -/
theorem runActs_pre_inv (pre : List QueueAct) :
    ∀ (pushed : Multiset ℤ) (m : ℕ) (s s' : QueueState), QueueInv pushed m 0 s →
      s.pq.done = false → QueueAct.done ∉ pre → runActs queueStep s pre = some s' →
      ∃ m', QueueInv (pushed + (pushesOf pre : Multiset ℤ)) m' 0 s' := by
  induction pre with
  | nil =>
    intro pushed m s s' h _ _ hrun
    obtain rfl : s = s' := by simpa [runActs] using hrun
    exact ⟨m, by simpa [pushesOf] using h⟩
  | cons a as ih =>
    intro pushed m s s' h hd hmem hrun
    have hmem' : QueueAct.done ∉ as := fun hc => hmem (List.mem_cons_of_mem a hc)
    simp only [runActs] at hrun
    cases a with
    | push v =>
      obtain ⟨m', h'⟩ := ih _ m _ s' (h.push v) hd hmem' hrun
      refine ⟨m', ?_⟩
      simpa [pushesOf, Multiset.cons_add, ← Multiset.cons_coe] using h'
    | done => exact absurd List.mem_cons_self hmem
    | popup =>
      cases hst : queueStep s .popup with
      | none => rw [hst] at hrun; exact absurd hrun (by simp)
      | some s₁ =>
        rw [hst] at hrun
        have hd₁ : s₁.pq.done = false := by
          simp only [queueStep, Option.map_eq_some_iff] at hst
          obtain ⟨⟨v, pq'⟩, hpop, rfl⟩ := hst
          rcases (popup_cases hpop).2 with ⟨-, rfl, -, hd'⟩ | ⟨-, -, -, -, hd'⟩
          · exact hd
          · exact hd'.trans hd
        rcases h.popup hst with ⟨h₁, -⟩ | h₁
        · exact ih _ _ s₁ s' h₁ hd₁ hmem' (by simpa using hrun)
        · have hd' := (h₁.drained (by omega)).2.1
          rw [hd₁] at hd'
          exact absurd hd' (by simp)

/-- After `Done`, `k` more popups return `k` more values. -/
theorem runActs_popups_inv (k : ℕ) :
    ∀ (pushed : Multiset ℤ) (m r : ℕ) (s s' : QueueState), QueueInv pushed m r s →
      runActs queueStep s (List.replicate k .popup) = some s' →
      ∃ m' r', QueueInv pushed m' r' s' ∧ m + r + k = m' + r' ∧ s'.pq.done = s.pq.done := by
  induction k with
  | zero =>
    intro pushed m r s s' h hrun
    obtain rfl : s = s' := by simpa [runActs] using hrun
    exact ⟨m, r, h, rfl, rfl⟩
  | succ k ih =>
    intro pushed m r s s' h hrun
    simp only [List.replicate_succ, runActs] at hrun
    cases hst : queueStep s .popup with
    | none => rw [hst] at hrun; exact absurd hrun (by simp)
    | some s₁ =>
      rw [hst] at hrun
      have hd₁ : s₁.pq.done = s.pq.done := by
        simp only [queueStep, Option.map_eq_some_iff] at hst
        obtain ⟨⟨v, pq'⟩, hpop, rfl⟩ := hst
        rcases (popup_cases hpop).2 with ⟨-, rfl, -, -⟩ | ⟨-, -, -, -, hd'⟩
        · rfl
        · exact hd'
      rcases h.popup hst with ⟨h₁, hr⟩ | h₁
      · obtain ⟨m', r', h', hk, hd'⟩ := ih _ _ _ s₁ s' h₁ (by simpa using hrun)
        exact ⟨m', r', h', by omega, hd'.trans hd₁⟩
      · obtain ⟨m', r', h', hk, hd'⟩ := ih _ _ _ s₁ s' h₁ (by simpa using hrun)
        exact ⟨m', r', h', by omega, hd'.trans hd₁⟩

theorem pushesOf_append (as bs : List QueueAct) :
    pushesOf (as ++ bs) = pushesOf as ++ pushesOf bs := by
  induction as with
  | nil => rfl
  | cons a as ih => cases a <;> simp [pushesOf, ih]

/-- **`Popup` returns `1, 2, 3, …` in every run of calls**, pushes after `Done` and numbers pushed
twice included, and what was pushed has been returned or is on the heap. -/
theorem popup_in_order (as : List QueueAct) (s : QueueState)
    (hrun : runActs queueStep queueInit as = some s) :
    ∃ m, s.returned.filter (· ≠ -1) = firstParts m ∧ PqInv (pushesOf as : Multiset ℤ) m s.pq := by
  induction as using List.reverseRecOn generalizing s with
  | nil =>
    obtain rfl := Option.some.inj hrun
    exact ⟨0, rfl, newSeqPriorityQueue_inv⟩
  | append_singleton as a ih =>
    rw [runActs_append] at hrun
    obtain ⟨s₁, h₁, hst⟩ := Option.bind_eq_some_iff.mp hrun
    obtain ⟨m, hret, h⟩ := ih s₁ h₁
    rw [runActs, Option.bind_eq_some_iff] at hst
    obtain ⟨_, hst, heq⟩ := hst
    obtain rfl := Option.some.inj heq
    rw [pushesOf_append, ← Multiset.coe_add, add_comm]
    cases a with
    | push v =>
      obtain rfl := Option.some.inj hst
      exact ⟨m, hret, by simpa [pushesOf] using h.push v⟩
    | done =>
      obtain rfl := Option.some.inj hst
      exact ⟨m, hret, by simpa [pushesOf] using h.setDone⟩
    | popup =>
      obtain ⟨⟨v, pq'⟩, hpop, rfl⟩ := Option.map_eq_some_iff.mp hst
      rcases h.popup hpop with ⟨rfl, rfl, -⟩ | ⟨rfl, h', -⟩
      · exact ⟨m, by simpa using hret, by simpa [pushesOf] using h⟩
      · refine ⟨m + 1, ?_, by simpa [pushesOf] using h'⟩
        rw [List.filter_append, hret, firstParts_succ, List.filter_cons_of_pos (by simp; omega)]
        rfl

/-- Part 2 is pushed after the queue has said `-1`. -/
theorem popup_in_order_late :
    ∃ (s : QueueState) (m : ℕ), s.returned = [1, -1, 2] ∧
      s.returned.filter (· ≠ -1) = firstParts m ∧ PqInv (([1, 2] : List ℤ) : Multiset ℤ) m s.pq := by
  obtain ⟨m, h⟩ := popup_in_order [.push 1, .done, .popup, .popup, .push 2, .popup] _ rfl
  exact ⟨_, m, rfl, h⟩

/-! ### The queue after `Done` -/

/-- With a duplicate-free push of `1..n` and `Done` called, `Popup` is enabled: the heap holds
`m + 1, …, n`, whose head is the next number. -/
theorem PqInv.not_waits {n m : ℕ} {ps : List ℤ} {pq : SeqPriorityQueue} (h : PqInv ps m pq)
    (hn : 1 ≤ n) (hps : ∀ v, v ∈ ps ↔ 1 ≤ v ∧ v ≤ n) (hnd : ps.Nodup) (hd : pq.done = true) :
    pq.popupWaits = false := by
  refine (popupWaits_eq_false_iff pq).mpr ⟨?_, ?_⟩
  · exact h.start_iff.mpr (Multiset.mem_coe.mpr ((hps 1).mpr ⟨le_rfl, by exact_mod_cast hn⟩))
  · cases hh : pq.queue.head? with
    | none => exact Or.inl ⟨(Heap.head?_eq_none_iff _).mp hh, hd⟩
    | some x =>
      right
      obtain ⟨hx, hmin⟩ := Heap.head?_spec hh
      -- no number is both on the heap and already returned
      have hdisj : ∀ v ∈ pq.queue.entries, v ∉ firstParts m := by
        have hnd' : (pq.queue.entries + (firstParts m : Multiset ℤ)).Nodup := by
          rw [← h.entries_eq]
          exact Multiset.coe_nodup.mpr hnd
        intro v hv hv'
        exact Multiset.disjoint_left.mp (Multiset.nodup_add.mp hnd').2.2 hv (Multiset.mem_coe.mpr hv')
      have hmem : ∀ v : ℤ, 1 ≤ v → v ≤ n → v ∈ pq.queue.entries ∨ v ∈ firstParts m := by
        intro v h1 h2
        have hv : v ∈ (ps : Multiset ℤ) := Multiset.mem_coe.mpr ((hps v).mpr ⟨h1, h2⟩)
        rw [h.entries_eq, Multiset.mem_add] at hv
        exact hv.imp id Multiset.mem_coe.mp
      have hxr : 1 ≤ x ∧ x ≤ n := by
        refine (hps x).mp (Multiset.mem_coe.mp ?_)
        rw [h.entries_eq, Multiset.mem_add]
        exact Or.inl hx
      have hxm : (m : ℤ) < x := by
        by_contra hc
        exact hdisj x hx (mem_firstParts.mpr ⟨hxr.1, by omega⟩)
      have hle : x ≤ m + 1 := by
        rcases hmem (m + 1) (by omega) (by omega) with hv | hv
        · exact hmin _ hv
        · have := (mem_firstParts.mp hv).2
          omega
      rw [h.next_eq, show x = (m : ℤ) + 1 by omega]

/-- A fresh queue after the calls `pre`, then `Done`, then `k` popups. -/
theorem runActs_schedule_inv {pre : List QueueAct} {k : ℕ} {s : QueueState}
    (hpre : QueueAct.done ∉ pre)
    (hrun : runActs queueStep queueInit (pre ++ .done :: List.replicate k .popup) = some s) :
    ∃ m r, QueueInv (pushesOf pre : Multiset ℤ) m r s ∧ k ≤ m + r ∧ s.pq.done = true := by
  rw [runActs_append] at hrun
  cases h₁ : runActs queueStep queueInit pre with
  | none => rw [h₁] at hrun; exact absurd hrun (by simp)
  | some s₁ =>
    obtain ⟨m₁, hinv₁⟩ := runActs_pre_inv pre 0 0 queueInit s₁ queueInit_inv rfl hpre h₁
    rw [zero_add] at hinv₁
    rw [h₁] at hrun
    simp only [Option.bind_some, runActs, queueStep] at hrun
    obtain ⟨m, r, hinv, hk, hd⟩ := runActs_popups_inv k _ _ _ _ s hinv₁.done hrun
    exact ⟨m, r, hinv, by omega, hd⟩

/-- Pushing a whole list never blocks. -/
theorem runActs_pushes (ps : List ℤ) :
    ∀ s, ∃ s', runActs queueStep s (ps.map QueueAct.push) = some s' := by
  induction ps with
  | nil => intro s; exact ⟨s, rfl⟩
  | cons v vs ih =>
    intro s
    obtain ⟨s', hs'⟩ := ih { s with pq := s.pq.push v }
    exact ⟨s', by simpa [runActs, queueStep] using hs'⟩

theorem pushesOf_map_push (ps : List ℤ) : pushesOf (ps.map QueueAct.push) = ps := by
  induction ps with
  | nil => rfl
  | cons v vs ih => simp [pushesOf, ih]

/-- **The queue never wedges on the pushes `ps` of the numbers `1..n`**: however the pushes are
interleaved with popups, after `Done` the wait condition of `Popup` is false until it has returned
`-1`; by then every number has been returned; and `n + 1` popups are enough for the `-1`. -/
def PopupNeverWedges (n : ℕ) (ps : List ℤ) : Prop :=
  ∀ (pre : List QueueAct) (k : ℕ) (s : QueueState),
    pushesOf pre = ps → QueueAct.done ∉ pre →
    runActs queueStep queueInit (pre ++ .done :: List.replicate k .popup) = some s →
      (s.pq.popupWaits = true → -1 ∈ s.returned) ∧
      (-1 ∈ s.returned → ∀ i : ℤ, 1 ≤ i → i ≤ n → i ∈ s.returned) ∧
      (n < k → -1 ∈ s.returned)

theorem popupNeverWedges_of_nodup {n : ℕ} {ps : List ℤ} (hn : 1 ≤ n)
    (hps : ∀ v, v ∈ ps ↔ 1 ≤ v ∧ v ≤ n) (hnd : ps.Nodup) : PopupNeverWedges n ps := by
  rintro pre k s rfl hpre hrun
  obtain ⟨m, r, hinv, hk, hd⟩ := runActs_schedule_inv hpre hrun
  have hmem : -1 ∈ s.returned ↔ 0 < r := by
    rw [hinv.returned_eq, List.mem_append, List.mem_replicate, mem_firstParts]
    omega
  refine ⟨?_, ?_, ?_⟩
  · intro hw
    rw [hinv.toPqInv.not_waits hn hps hnd hd] at hw
    exact absurd hw (by simp)
  · intro hr i h1 h2
    rw [hinv.returned_eq, List.mem_append]
    exact Or.inl ((hinv.toPqInv.perm_of_drained (hinv.drained (hmem.mp hr)).1).mem_iff.mp ((hps i).mpr ⟨h1, h2⟩))
  · intro hnk
    -- at most `n` numbers can be returned, so the other popups returned `-1`
    have hmn : m ≤ n := by
      rcases Nat.eq_zero_or_pos m with h0 | h0
      · omega
      · have hm : (m : ℤ) ∈ (pushesOf pre : Multiset ℤ) := by
          rw [hinv.entries_eq, Multiset.mem_add]
          exact Or.inr (Multiset.mem_coe.mpr (mem_firstParts.mpr ⟨by omega, le_rfl⟩))
        have := ((hps m).mp (Multiset.mem_coe.mp hm)).2
        omega
    exact hmem.mpr (by omega)

/-- While no `-1` has come, popups after `Done` keep being enabled on a queue that never wedges. -/
theorem runActs_popups_of_neverWedges {n : ℕ} {ps : List ℤ} (h : PopupNeverWedges n ps) (k : ℕ) :
    ∃ s, runActs queueStep queueInit
      (ps.map QueueAct.push ++ .done :: List.replicate k .popup) = some s := by
  have hpre : QueueAct.done ∉ ps.map QueueAct.push := by simp
  induction k with
  | zero =>
    obtain ⟨s, hs⟩ := runActs_pushes ps queueInit
    refine ⟨{ s with pq := s.pq.setDone }, ?_⟩
    rw [runActs_append, hs]
    rfl
  | succ k ih =>
    obtain ⟨s, hs⟩ := ih
    obtain ⟨m, r, hinv, -, hd⟩ := runActs_schedule_inv hpre hs
    have hnw : s.pq.popupWaits = false := by
      cases hw : s.pq.popupWaits with
      | false => rfl
      | true =>
        have hr : 0 < r := by
          have hret := (h _ k s (pushesOf_map_push ps) hpre hs).1 hw
          rw [hinv.returned_eq, List.mem_append, List.mem_replicate, mem_firstParts] at hret
          omega
        -- a drained queue does not wait
        rw [← hw]
        obtain ⟨he, hdn, hst⟩ := hinv.drained hr
        exact (popupWaits_eq_false_iff s.pq).mpr ⟨hst, Or.inl ⟨he, hdn⟩⟩
    obtain ⟨⟨v, pq'⟩, hpop⟩ := popup_isSome_of_not_waits hnw
    refine ⟨{ pq := pq', returned := s.returned ++ [v] }, ?_⟩
    rw [List.replicate_succ', ← List.cons_append, ← List.append_assoc, runActs_append, hs]
    simp [runActs, queueStep, hpop]

/-- **The upload queue is safe exactly on duplicate-free pushes.**  For every sequence of pushes
whose set of values is `1..n`, the queue never wedges if and only if no number is pushed twice. -/
theorem popup_never_wedges_iff (n : ℕ) (ps : List ℤ) (hn : 1 ≤ n)
    (hps : ∀ v, v ∈ ps ↔ 1 ≤ v ∧ v ≤ n) : PopupNeverWedges n ps ↔ ps.Nodup := by
  constructor
  · intro h
    have hpre : QueueAct.done ∉ ps.map QueueAct.push := by simp
    obtain ⟨s, hs⟩ := runActs_popups_of_neverWedges h (n + 1)
    obtain ⟨m, r, hinv, -, -⟩ := runActs_schedule_inv hpre hs
    rw [pushesOf_map_push] at hinv
    have hret := (h _ (n + 1) s (pushesOf_map_push ps) hpre hs).2.2 (by omega)
    have hr : 0 < r := by
      rw [hinv.returned_eq, List.mem_append, List.mem_replicate, mem_firstParts] at hret
      omega
    exact (hinv.toPqInv.perm_of_drained (hinv.drained hr).1).nodup_iff.mpr (firstParts_nodup m)
  · exact popupNeverWedges_of_nodup hn hps

/-- The pushes `3, 1, 2` arrive out of order and drain. -/
theorem popup_never_wedges_iff_out_of_order :
    (∀ v : ℤ, v ∈ [3, 1, 2] ↔ 1 ≤ v ∧ v ≤ ((3 : ℕ) : ℤ)) ∧
      (PopupNeverWedges 3 [3, 1, 2] ↔ ([3, 1, 2] : List ℤ).Nodup) := by
  have hps : ∀ v : ℤ, v ∈ [3, 1, 2] ↔ 1 ≤ v ∧ v ≤ ((3 : ℕ) : ℤ) := by
    intro v
    simp only [List.mem_cons, List.not_mem_nil, or_false]
    omega
  exact ⟨hps, popup_never_wedges_iff 3 [3, 1, 2] (by decide) hps⟩

/-- **Part 1 uploaded again after it was popped wedges the queue**: its second entry stays at the
head below `next`, so part 2 is never returned. -/
theorem popup_wedges_on_reupload : ¬ PopupNeverWedges 2 [1, 1, 2] := by
  intro h
  have hs := h [.push 1, .popup, .push 1, .push 2] 0 _ rfl (by decide) rfl
  exact absurd (hs.1 (by decide)) (by decide)

end Zs3Server.Gateway
