import Zs3Server.Lib.ByteString

/-!
# Merging listing channels

`mergeEntryChannels` keeps the next entry of each channel in `top` and sends the one with the smallest
name.  The scan for it takes entries off the channels while it runs: of two entries with one name
`compareMeta` picks one, and the channel of the other one moves on.

* `MergeState`, `selectFrom`, `scanStep`, `mergeLoop` — the code, with channels as lists;
* `queue` — what a channel has left, its top included; `Ready` — what holds between two rounds;
* `Scanned`, `scan_spec` — what the scan has found, and that it loses no name;
* `mergeLoop_union` — from any such state on, the loop sends the names that are left, in order;
* `mergeEntryChannels_union` — the whole function.
-/

namespace Zs3Server.Cmd.MergeChannels

open Lib.ByteString

/-- The part of a `metaCacheEntry` that is compared and passed on. -/
structure MetaCacheEntry where
  name : GoString
  metadata : List UInt8
deriving DecidableEq, Repr

/-! ### The code -/

/-- The variables of the function: the top of each channel, what is left behind it, and how many channels
are done. -/
structure MergeState where
  top : ℕ → Option MetaCacheEntry
  rest : ℕ → List MetaCacheEntry
  nDone : ℕ

/-- The next entry of a channel becomes its top; a channel that is closed is counted. -/
def selectFrom (s : MergeState) (idx : ℕ) : MergeState :=
  match s.rest idx with
  | [] => { s with top := Function.update s.top idx none, nDone := s.nDone + 1 }
  | entry :: rest =>
    { s with top := Function.update s.top idx (some entry), rest := Function.update s.rest idx rest }

/-- The variables of the scan. -/
structure Scan where
  state : MergeState
  best : Option MetaCacheEntry
  bestIdx : ℕ

section Code

variable (compareMeta : MetaCacheEntry → MetaCacheEntry → Bool)

def scanStep (c : Scan) (otherIdx : ℕ) : Scan :=
  match c.state.top otherIdx, c.best with
  | none, _ => c
  | some other, none => { c with best := some other, bestIdx := otherIdx }
  | some other, some best =>
    if best.name = other.name then
      if compareMeta best other then ⟨selectFrom c.state c.bestIdx, some other, otherIdx⟩
      else { c with state := selectFrom c.state otherIdx }
    else if other.name < best.name then { c with best := some other, bestIdx := otherIdx }
    else c

/-- The scan over the first `k` tops. -/
def scan (s : MergeState) (k : ℕ) : Scan :=
  (List.range' 1 (k - 1)).foldl (scanStep compareMeta) ⟨s, s.top 0, 0⟩

/-- The loop: what it sends, and the state it returns in. -/
def mergeLoop (n : ℕ) : (fuel : ℕ) → MergeState → (last : GoString) →
    Option (List MetaCacheEntry × MergeState)
  | 0, _, _ => none
  | fuel + 1, s, last =>
    if s.nDone = n then some ([], s)
    else
      let c := scan compareMeta s n
      match c.best with
      | none => none
      | some best =>
        if last < best.name then
          (mergeLoop n fuel (selectFrom c.state c.bestIdx) best.name).map fun r => (best :: r.1, r.2)
        else mergeLoop n fuel (selectFrom c.state c.bestIdx) last

/-- Every channel is asked for its first entry. -/
def populate (ins : List (List MetaCacheEntry)) (k : ℕ) : MergeState :=
  (List.range k).foldl selectFrom ⟨fun _ => none, fun i => ins.getD i [], 0⟩

/-- The channels deliver the given entries and are closed; nothing is cancelled.  The number of entries
bounds the rounds. -/
def mergeEntryChannels (ins : List (List MetaCacheEntry)) : Option (List MetaCacheEntry × MergeState) :=
  if ins.length = 1 then some (ins.flatten, ⟨fun _ => none, fun _ => [], 0⟩)
  else mergeLoop compareMeta ins.length (ins.flatten.length + 1) (populate ins ins.length) []

end Code

/-! ### Channels -/

/-- What a channel has left, its top included. -/
def queue (s : MergeState) (i : ℕ) : List MetaCacheEntry := (s.top i).toList ++ s.rest i

/-- The names that are left on the first `n` channels. -/
def Left (n : ℕ) (s : MergeState) (name : GoString) : Prop := ∃ i < n, ∃ e ∈ queue s i, e.name = name

/-- **Between two rounds:** a channel without a top is at its end, the channels that are done are counted,
and the names of each channel are still increasing. -/
structure Ready (n : ℕ) (s : MergeState) : Prop where
  closed : ∀ i, s.top i = none → s.rest i = []
  counted : s.nDone = ((Finset.range n).filter fun i => s.top i = none).card
  sorted : ∀ i, (queue s i).Pairwise fun a b => a.name < b.name

section Select

variable {n : ℕ} {s : MergeState} {i : ℕ} {e : MetaCacheEntry}

theorem queue_of_top (h : s.top i = some e) : queue s i = e :: s.rest i := by
  rw [queue, h]
  rfl

theorem top_selectFrom (s : MergeState) (i : ℕ) : (selectFrom s i).top i = (s.rest i).head? := by
  rw [selectFrom]
  split
  · next hnil => simp [hnil]
  · next entry rest hrest => simp [hrest]

theorem top_selectFrom_other {j : ℕ} (hj : j ≠ i) : (selectFrom s i).top j = s.top j := by
  rw [selectFrom]
  split
  · exact Function.update_of_ne hj _ _
  · exact Function.update_of_ne hj _ _

theorem rest_selectFrom (s : MergeState) (i : ℕ) : (selectFrom s i).rest i = (s.rest i).tail := by
  rw [selectFrom]
  split
  · next hnil => simp [hnil]
  · next entry rest hrest => simp [hrest]

theorem rest_selectFrom_other {j : ℕ} (hj : j ≠ i) : (selectFrom s i).rest j = s.rest j := by
  rw [selectFrom]
  split
  · rfl
  · exact Function.update_of_ne hj _ _

theorem nDone_selectFrom (s : MergeState) (i : ℕ) :
    (selectFrom s i).nDone = s.nDone + if s.rest i = [] then 1 else 0 := by
  rw [selectFrom]
  split
  · next hnil => rw [if_pos hnil]
  · next entry rest hrest => rw [if_neg (by rw [hrest]; exact List.cons_ne_nil _ _), Nat.add_zero]

theorem queue_selectFrom_other {j : ℕ} (hj : j ≠ i) : queue (selectFrom s i) j = queue s j := by
  rw [queue, queue, top_selectFrom_other hj, rest_selectFrom_other hj]

/-- A channel moves on by one entry. -/
theorem queue_selectFrom (s : MergeState) (i : ℕ) : queue (selectFrom s i) i = s.rest i := by
  rw [queue, top_selectFrom, rest_selectFrom]
  cases s.rest i with
  | nil => rfl
  | cons entry rest => rfl

theorem Ready.selectFrom (h : Ready n s) (hi : i < n) (htop : s.top i = some e) :
    Ready n (selectFrom s i) := by
  constructor
  · intro j hj
    by_cases hji : j = i
    · rw [hji, top_selectFrom, List.head?_eq_none_iff] at hj
      rw [hji, rest_selectFrom, hj, List.tail_nil]
    · rw [top_selectFrom_other hji] at hj
      rw [rest_selectFrom_other hji, h.closed j hj]
  · -- the channel was not counted, and is now if it is done
    have hset : ((Finset.range n).filter fun j => (MergeChannels.selectFrom s i).top j = none) =
        if s.rest i = [] then insert i ((Finset.range n).filter fun j => s.top j = none)
        else (Finset.range n).filter fun j => s.top j = none := by
      ext j
      by_cases hji : j = i
      · rw [Finset.mem_filter, hji, top_selectFrom, List.head?_eq_none_iff]
        split <;> simp_all
      · rw [Finset.mem_filter, top_selectFrom_other hji]
        split <;> simp [hji]
    rw [nDone_selectFrom, hset, h.counted]
    split
    · rw [Finset.card_insert_of_notMem (by simp [htop])]
    · rfl
  · intro j
    by_cases hji : j = i
    · rw [hji, queue_selectFrom]
      have hsorted := h.sorted i
      rw [queue_of_top htop] at hsorted
      exact (List.pairwise_cons.mp hsorted).2
    · rw [queue_selectFrom_other hji]
      exact h.sorted j

/-- Behind the top of a channel the names are larger. -/
theorem Ready.lt_rest (h : Ready n s) (htop : s.top i = some e) : ∀ e' ∈ s.rest i, e.name < e'.name := by
  have hsorted := h.sorted i
  rw [queue_of_top htop] at hsorted
  exact (List.pairwise_cons.mp hsorted).1

/-- The top of a channel has the smallest name on it. -/
theorem Ready.top_le (h : Ready n s) (htop : s.top i = some e) : ∀ e' ∈ queue s i, e.name ≤ e'.name := by
  rw [queue_of_top htop]
  intro e' he'
  rcases List.mem_cons.mp he' with rfl | he'
  · exact le_refl _
  · exact (h.lt_rest htop e' he').le

/-- A channel without a top has nothing left. -/
theorem Ready.queue_nil (h : Ready n s) (htop : s.top i = none) : queue s i = [] := by
  rw [queue, htop, h.closed i htop]
  rfl

/-- When all channels are counted, nothing is left on them. -/
theorem Ready.drained (h : Ready n s) (hdone : s.nDone = n) :
    ∀ i < n, s.top i = none ∧ s.rest i = [] := by
  intro i hi
  have hall : (Finset.range n).filter (fun j => s.top j = none) = Finset.range n := by
    apply Finset.eq_of_subset_of_card_le (Finset.filter_subset _ _)
    rw [← h.counted, hdone, Finset.card_range]
  have htop : s.top i = none := by
    have hi' := Finset.mem_range.mpr hi
    rw [← hall] at hi'
    exact (Finset.mem_filter.mp hi').2
  exact ⟨htop, h.closed i htop⟩

end Select

/-! ### The scan -/

section Scanning

variable {compareMeta : MetaCacheEntry → MetaCacheEntry → Bool} {n : ℕ} {s : MergeState}

/-- What the scan has found in the first `k` tops: the smallest name, on one channel only, without losing
any name. -/
structure Scanned (n : ℕ) (s : MergeState) (k : ℕ) (c : Scan) : Prop where
  ready : Ready n c.state
  shrinks : ∀ i, queue c.state i <:+ queue s i
  covers : ∀ name, Left n s name → Left n c.state name
  best_top : ∀ b, c.best = some b → c.bestIdx < k ∧ c.state.top c.bestIdx = some b
  best_lt : ∀ b, c.best = some b → ∀ j < k, j ≠ c.bestIdx → ∀ e, c.state.top j = some e → b.name < e.name
  no_top : c.best = none → ∀ j < k, c.state.top j = none

theorem suffix_selectFrom {i : ℕ} {e : MetaCacheEntry} (htop : s.top i = some e) (j : ℕ) :
    queue (selectFrom s i) j <:+ queue s j := by
  by_cases hj : j = i
  · rw [hj, queue_selectFrom, queue_of_top htop]
    exact List.suffix_cons _ _
  · rw [queue_selectFrom_other hj]

/-- An entry may be taken off a channel if another one has its name. -/
theorem left_selectFrom {i j : ℕ} {e e' : MetaCacheEntry} (hi : s.top i = some e) (hj : s.top j = some e')
    (hjn : j < n) (hij : j ≠ i) (hname : e'.name = e.name) {name : GoString} (h : Left n s name) :
    Left n (selectFrom s i) name := by
  obtain ⟨l, hl, x, hx, rfl⟩ := h
  by_cases hli : l = i
  · rw [hli, queue_of_top hi] at hx
    rcases List.mem_cons.mp hx with rfl | hx
    · refine ⟨j, hjn, e', ?_, hname⟩
      rw [queue_selectFrom_other hij, queue_of_top hj]
      exact List.mem_cons_self
    · refine ⟨i, hli ▸ hl, x, ?_, rfl⟩
      rw [queue_selectFrom]
      exact hx
  · refine ⟨l, hl, x, ?_, rfl⟩
    rw [queue_selectFrom_other hli]
    exact hx

/-- After a channel has moved on, its top is larger than the entry that was taken off. -/
theorem Ready.lt_next {i : ℕ} {e e' : MetaCacheEntry} (h : Ready n s) (htop : s.top i = some e)
    (hnext : (MergeChannels.selectFrom s i).top i = some e') : e.name < e'.name := by
  apply h.lt_rest htop
  rw [← queue_selectFrom, queue_of_top hnext]
  exact List.mem_cons_self

theorem scanned_first (h : Ready n s) : Scanned n s 1 ⟨s, s.top 0, 0⟩ where
  ready := h
  shrinks i := List.suffix_rfl
  covers name hname := hname
  best_top b hb := ⟨Nat.one_pos, hb⟩
  best_lt b hb j hj hne := absurd (Nat.lt_one_iff.mp hj) hne
  no_top hb j hj := by rw [Nat.lt_one_iff.mp hj]; exact hb

/-- The scan may take entries off the channels as long as no name is lost. -/
structure Kept (n : ℕ) (s st : MergeState) : Prop where
  ready : Ready n st
  shrinks : ∀ i, queue st i <:+ queue s i
  covers : ∀ name, Left n s name → Left n st name

theorem Kept.selectFrom {st : MergeState} {i j : ℕ} {e e' : MetaCacheEntry} (h : Kept n s st) (hin : i < n)
    (hi : st.top i = some e) (hjn : j < n) (hj : st.top j = some e') (hij : j ≠ i) (hname : e'.name = e.name) :
    Kept n s (selectFrom st i) where
  ready := h.ready.selectFrom hin hi
  shrinks l := (suffix_selectFrom hi l).trans (h.shrinks l)
  covers name hl := left_selectFrom hi hj hjn hij hname (h.covers name hl)

section Step

variable {k : ℕ} {c : Scan} {st : MergeState}

theorem Scanned.kept (h : Scanned n s k c) : Kept n s c.state := ⟨h.ready, h.shrinks, h.covers⟩

/-- The best entry stays: the next channel has no top, or a larger one. -/
theorem Scanned.stay (h : Scanned n s k c) (hkept : Kept n s st) (hsame : ∀ j < k, st.top j = c.state.top j)
    (hlarger : ∀ b, c.best = some b → ∀ e, st.top k = some e → b.name < e.name)
    (hnone : c.best = none → st.top k = none) : Scanned n s (k + 1) { c with state := st } := by
  refine ⟨hkept.ready, hkept.shrinks, hkept.covers, ?_, ?_, ?_⟩
  · intro b hb
    obtain ⟨hidx, htop⟩ := h.best_top b hb
    exact ⟨Nat.lt_succ_of_lt hidx, (hsame _ hidx).trans htop⟩
  · intro b hb j hj hne e he
    rcases Nat.lt_succ_iff_lt_or_eq.mp hj with hj | rfl
    · exact h.best_lt b hb j hj hne e ((hsame j hj).symm.trans he)
    · exact hlarger b hb e he
  · intro hb j hj
    rcases Nat.lt_succ_iff_lt_or_eq.mp hj with hj | rfl
    · exact (hsame j hj).trans (h.no_top hb j hj)
    · exact hnone hb

/-- The top of the next channel becomes the best entry: it is smaller than those before it. -/
theorem Kept.turn (hkept : Kept n s st) {other : MetaCacheEntry} (htop : st.top k = some other)
    (hsmaller : ∀ j < k, ∀ e, st.top j = some e → other.name < e.name) :
    Scanned n s (k + 1) ⟨st, some other, k⟩ := by
  refine ⟨hkept.ready, hkept.shrinks, hkept.covers, ?_, ?_, ?_⟩
  · intro b hb
    cases hb
    exact ⟨Nat.lt_succ_self k, htop⟩
  · intro b hb j hj hne e he
    cases hb
    exact hsmaller j (lt_of_le_of_ne (Nat.lt_succ_iff.mp hj) hne) e he
  · intro hb
    cases hb

/-- **One step of the scan.** -/
theorem Scanned.step (hk : k < n) (h : Scanned n s k c) : Scanned n s (k + 1) (scanStep compareMeta c k) := by
  rw [scanStep]
  split
  · next hnone =>
    -- this channel is done
    refine h.stay h.kept (fun j _ => rfl) ?_ (fun _ => hnone)
    intro b _ e he
    rw [hnone] at he
    cases he
  · next other hother hbest =>
    -- the first channel that is not done
    refine h.kept.turn hother ?_
    intro j hj e he
    rw [h.no_top hbest j hj] at he
    cases he
  · next other best hother hbest =>
    obtain ⟨hidx, htop⟩ := h.best_top best hbest
    have hne : c.bestIdx ≠ k := hidx.ne
    have hsome : c.best ≠ none := by
      rw [hbest]
      exact Option.some_ne_none best
    -- the tops before this channel, the best one included
    have hle : ∀ j < k, ∀ e, c.state.top j = some e → best.name ≤ e.name := by
      intro j hj e he
      by_cases hji : j = c.bestIdx
      · rw [hji, htop] at he
        cases he
        exact le_refl _
      · exact (h.best_lt best hbest j hj hji e he).le
    split
    · next hname =>
      split
      · -- the best entry is taken off its channel
        refine (h.kept.selectFrom (hidx.trans hk) htop hk hother hne.symm hname.symm).turn
          ((top_selectFrom_other hne.symm).trans hother) ?_
        intro j hj e he
        rw [← hname]
        by_cases hji : j = c.bestIdx
        · rw [hji] at he
          exact h.ready.lt_next htop he
        · rw [top_selectFrom_other hji] at he
          exact h.best_lt best hbest j hj hji e he
      · -- the other entry is taken off its channel
        refine h.stay (h.kept.selectFrom hk hother (hidx.trans hk) htop hne hname)
          (fun j hj => top_selectFrom_other hj.ne) ?_ (fun hb => absurd hb hsome)
        intro b hb e he
        rw [hbest] at hb
        cases hb
        rw [hname]
        exact h.ready.lt_next hother he
    · next hname =>
      split
      · next hless =>
        refine h.kept.turn hother ?_
        intro j hj e he
        exact hless.trans_le (hle j hj e he)
      · next hless =>
        refine h.stay h.kept (fun j _ => rfl) ?_ (fun hb => absurd hb hsome)
        intro b hb e he
        rw [hbest] at hb
        cases hb
        rw [hother] at he
        cases he
        exact lt_of_le_of_ne (not_lt.mp hless) hname

end Step

theorem scanned (h : Ready n s) {k : ℕ} (hk : k < n) :
    Scanned n s (k + 1) (scan compareMeta s (k + 1)) := by
  induction k with
  | zero => exact scanned_first h
  | succ k ih =>
    have hstep : scan compareMeta s (k + 1 + 1) = scanStep compareMeta (scan compareMeta s (k + 1)) (k + 1) := by
      rw [scan, Nat.add_sub_cancel, List.range'_concat, List.foldl_append, Nat.one_mul, Nat.add_comm 1 k]
      rfl
    rw [hstep]
    exact (ih (Nat.lt_of_succ_lt hk)).step hk

end Scanning

/-! ### The loop -/

section Loop

variable {compareMeta : MetaCacheEntry → MetaCacheEntry → Bool} {n : ℕ} {s : MergeState}

/-- Until all channels are done, some channel has a top. -/
theorem Ready.exists_top (h : Ready n s) (hdone : s.nDone ≠ n) : ∃ i < n, ∃ e, s.top i = some e := by
  by_contra hnone
  apply hdone
  have hall : (Finset.range n).filter (fun i => s.top i = none) = Finset.range n := by
    apply Finset.filter_true_of_mem
    intro i hi
    by_contra htop
    obtain ⟨e, he⟩ := Option.ne_none_iff_exists'.mp htop
    exact hnone ⟨i, Finset.mem_range.mp hi, e, he⟩
  rw [h.counted, hall, Finset.card_range]

/-- What is left on the channels, in entries. -/
def total (n : ℕ) (s : MergeState) : ℕ := ∑ i ∈ Finset.range n, (queue s i).length

/-- **One round:** the scan finds the smallest name that is left, and when its entry is taken off no other
entry has it. -/
theorem round_spec (compareMeta : MetaCacheEntry → MetaCacheEntry → Bool) (h : Ready n s) (hn : 0 < n) (hdone : s.nDone ≠ n) :
    ∃ best, (scan compareMeta s n).best = some best ∧
      Ready n (selectFrom (scan compareMeta s n).state (scan compareMeta s n).bestIdx) ∧
      total n (selectFrom (scan compareMeta s n).state (scan compareMeta s n).bestIdx) < total n s ∧
      (∃ i < n, best ∈ queue s i) ∧
      (∀ i < n, ∀ e ∈ queue (selectFrom (scan compareMeta s n).state (scan compareMeta s n).bestIdx) i,
        e ∈ queue s i ∧ best.name < e.name) ∧
      ∀ name, Left n s name → best.name = name ∨
        Left n (selectFrom (scan compareMeta s n).state (scan compareMeta s n).bestIdx) name := by
  obtain ⟨m, rfl⟩ : ∃ m, n = m + 1 := ⟨n - 1, by omega⟩
  have hscan : Scanned (m + 1) s (m + 1) (scan compareMeta s (m + 1)) := scanned h (Nat.lt_succ_self m)
  generalize scan compareMeta s (m + 1) = c at hscan ⊢
  -- some entry is left, so the scan has met a top
  obtain ⟨best, hbest⟩ : ∃ best, c.best = some best := by
    obtain ⟨i, hi, e, he⟩ := h.exists_top hdone
    have hleft : Left (m + 1) s e.name := ⟨i, hi, e, by rw [queue_of_top he]; exact List.mem_cons_self, rfl⟩
    obtain ⟨j, hj, e', he', _⟩ := hscan.covers _ hleft
    by_contra hnone
    have htop := hscan.no_top (Option.eq_none_iff_forall_ne_some.mpr fun b hb => hnone ⟨b, hb⟩) j hj
    rw [hscan.ready.queue_nil htop] at he'
    cases he'
  obtain ⟨hidx, htop⟩ := hscan.best_top best hbest
  have hqueue := queue_of_top htop
  have hlarger : ∀ i < m + 1, ∀ e ∈ queue (selectFrom c.state c.bestIdx) i, best.name < e.name := by
    intro i hi e he
    by_cases hib : i = c.bestIdx
    · rw [hib, queue_selectFrom] at he
      exact hscan.ready.lt_rest htop e he
    · rw [queue_selectFrom_other hib] at he
      cases hti : c.state.top i with
      | none =>
        rw [hscan.ready.queue_nil hti] at he
        cases he
      | some e' =>
        exact (hscan.best_lt best hbest i hi hib e' hti).trans_le (hscan.ready.top_le hti e he)
  refine ⟨best, hbest, hscan.ready.selectFrom hidx htop, ?_, ⟨c.bestIdx, hidx, ?_⟩, ?_, ?_⟩
  · apply Finset.sum_lt_sum
    · intro i _
      exact ((suffix_selectFrom htop i).trans (hscan.shrinks i)).length_le
    · refine ⟨c.bestIdx, Finset.mem_range.mpr hidx, ?_⟩
      have hle := (hscan.shrinks c.bestIdx).length_le
      rw [hqueue, List.length_cons] at hle
      rw [queue_selectFrom]
      exact hle
  · apply (hscan.shrinks c.bestIdx).subset
    rw [hqueue]
    exact List.mem_cons_self
  · intro i hi e he
    exact ⟨((suffix_selectFrom htop i).trans (hscan.shrinks i)).subset he, hlarger i hi e he⟩
  · intro name hleft
    obtain ⟨i, hi, e, he, rfl⟩ := hscan.covers name hleft
    by_cases hib : i = c.bestIdx
    · rw [hib, hqueue] at he
      rcases List.mem_cons.mp he with rfl | he
      · exact Or.inl rfl
      · refine Or.inr ⟨i, hi, e, ?_, rfl⟩
        rw [hib, queue_selectFrom]
        exact he
    · refine Or.inr ⟨i, hi, e, ?_, rfl⟩
      rw [queue_selectFrom_other hib]
      exact he

/-- A sorted union of what is left on the channels. -/
structure SortedUnion (n : ℕ) (s : MergeState) (out : List MetaCacheEntry) : Prop where
  sorted : out.Pairwise fun a b => a.name < b.name
  names : ∀ name, (∃ e ∈ out, e.name = name) ↔ Left n s name
  source : ∀ e ∈ out, ∃ i < n, e ∈ queue s i

/-- **From any state between two rounds** whose names are all larger than the last one sent, the loop ends
with all channels drained and has sent a sorted union of what was left. -/
theorem mergeLoop_union (compareMeta : MetaCacheEntry → MetaCacheEntry → Bool) (hn : 0 < n) (fuel : ℕ)
    (s : MergeState) (last : GoString) (h : Ready n s)
    (hlast : ∀ i < n, ∀ e ∈ queue s i, last < e.name) (hfuel : total n s < fuel) :
    ∃ out s', mergeLoop compareMeta n fuel s last = some (out, s') ∧
      (∀ i < n, s'.top i = none ∧ s'.rest i = []) ∧ SortedUnion n s out := by
  induction fuel generalizing s last with
  | zero => exact absurd hfuel (Nat.not_lt_zero _)
  | succ fuel ih =>
    rw [mergeLoop]
    by_cases hdone : s.nDone = n
    · rw [if_pos hdone]
      refine ⟨[], s, rfl, h.drained hdone, List.Pairwise.nil, ?_, by simp⟩
      intro name
      refine iff_of_false (by simp) ?_
      intro hleft
      obtain ⟨i, hi, e, he, _⟩ := hleft
      rw [h.queue_nil (h.drained hdone i hi).1] at he
      cases he
    · rw [if_neg hdone]
      obtain ⟨best, hbest, hready, htotal, ⟨i₀, hi₀, hmem⟩, hlarger, hcovers⟩ :=
        round_spec compareMeta h hn hdone
      obtain ⟨out, s', hloop, hdrained, hunion⟩ := ih _ best.name hready
        (fun i hi e he => (hlarger i hi e he).2) (by omega)
      refine ⟨best :: out, s', ?_, hdrained, ?_, ?_, ?_⟩
      · simp only [hbest, if_pos (hlast i₀ hi₀ best hmem), hloop, Option.map_some]
      · rw [List.pairwise_cons]
        refine ⟨?_, hunion.sorted⟩
        intro e he
        obtain ⟨i, hi, hei⟩ := hunion.source e he
        exact (hlarger i hi e hei).2
      · intro name
        constructor
        · intro hname
          obtain ⟨e, he, rfl⟩ := hname
          rcases List.mem_cons.mp he with rfl | he
          · exact ⟨i₀, hi₀, e, hmem, rfl⟩
          · obtain ⟨i, hi, hei⟩ := hunion.source e he
            exact ⟨i, hi, e, (hlarger i hi e hei).1, rfl⟩
        · intro hleft
          rcases hcovers name hleft with hname | hleft'
          · exact ⟨best, List.mem_cons_self, hname⟩
          · obtain ⟨e, he, hname⟩ := (hunion.names name).mpr hleft'
            exact ⟨e, List.mem_cons_of_mem best he, hname⟩
      · intro e he
        rcases List.mem_cons.mp he with rfl | he
        · exact ⟨i₀, hi₀, hmem⟩
        · obtain ⟨i, hi, hei⟩ := hunion.source e he
          exact ⟨i, hi, (hlarger i hi e hei).1⟩

end Loop

/-! ### The whole function -/

section Start

variable (ins : List (List MetaCacheEntry))

theorem populate_succ (k : ℕ) : populate ins (k + 1) = selectFrom (populate ins k) k := by
  rw [populate, List.range_succ, List.foldl_append]
  rfl

/-- The first `k` channels have been asked. -/
theorem populate_spec (k : ℕ) :
    (∀ i, (populate ins k).top i = if i < k then (ins.getD i []).head? else none) ∧
      (∀ i, (populate ins k).rest i = if i < k then (ins.getD i []).tail else ins.getD i []) ∧
      (populate ins k).nDone = ((Finset.range k).filter fun i => ins.getD i [] = []).card := by
  induction k with
  | zero => exact ⟨fun i => rfl, fun i => rfl, rfl⟩
  | succ k ih =>
    obtain ⟨htop, hrest, hdone⟩ := ih
    have hk : (populate ins k).rest k = ins.getD k [] := by rw [hrest, if_neg (Nat.lt_irrefl k)]
    have hother : ∀ i, i ≠ k → (i < k + 1 ↔ i < k) := fun i hi => by omega
    rw [populate_succ]
    refine ⟨?_, ?_, ?_⟩
    · intro i
      by_cases hi : i = k
      · rw [hi, if_pos (Nat.lt_succ_self k), top_selectFrom, hk]
      · simp only [top_selectFrom_other hi, htop, hother i hi]
    · intro i
      by_cases hi : i = k
      · rw [hi, if_pos (Nat.lt_succ_self k), rest_selectFrom, hk]
      · simp only [rest_selectFrom_other hi, hrest, hother i hi]
    · rw [nDone_selectFrom, hk, hdone, Finset.range_add_one, Finset.filter_insert]
      split
      · rw [Finset.card_insert_of_notMem (by simp)]
      · rfl

theorem queue_populate (i : ℕ) : queue (populate ins ins.length) i = ins.getD i [] := by
  obtain ⟨htop, hrest, _⟩ := populate_spec ins ins.length
  rw [queue, htop, hrest]
  by_cases hi : i < ins.length
  · rw [if_pos hi, if_pos hi]
    cases ins.getD i [] with
    | nil => rfl
    | cons e l => rfl
  · simp [hi]

variable {ins}

theorem getD_mem_or_nil (i : ℕ) : ins.getD i [] ∈ ins ∨ ins.getD i [] = [] := by
  by_cases hi : i < ins.length
  · left
    rw [List.getD_eq_getElem _ _ hi]
    exact List.getElem_mem hi
  · right
    simp [hi]

theorem ready_populate (hsorted : ∀ l ∈ ins, l.Pairwise fun a b => a.name < b.name) :
    Ready ins.length (populate ins ins.length) := by
  obtain ⟨htop, hrest, hdone⟩ := populate_spec ins ins.length
  constructor
  · intro i hi
    rw [htop] at hi
    rw [hrest]
    split at hi
    · next hlt =>
      rw [if_pos hlt, List.head?_eq_none_iff.mp hi]
      rfl
    · next hge =>
      rw [if_neg hge]
      simp [Nat.not_lt.mp hge]
  · rw [hdone]
    congr 1
    apply Finset.filter_congr
    intro i hi
    rw [htop, if_pos (Finset.mem_range.mp hi), List.head?_eq_none_iff]
  · intro i
    rw [queue_populate]
    rcases getD_mem_or_nil i with hmem | hnil
    · exact hsorted _ hmem
    · rw [hnil]
      exact List.Pairwise.nil

theorem left_populate (name : GoString) :
    Left ins.length (populate ins ins.length) name ↔ ∃ l ∈ ins, ∃ e ∈ l, e.name = name := by
  constructor
  · intro hleft
    obtain ⟨i, hi, e, he, hname⟩ := hleft
    rw [queue_populate, List.getD_eq_getElem _ _ hi] at he
    exact ⟨_, List.getElem_mem hi, e, he, hname⟩
  · intro hsome
    obtain ⟨l, hl, e, he, hname⟩ := hsome
    obtain ⟨i, hi, rfl⟩ := List.mem_iff_getElem.mp hl
    refine ⟨i, hi, e, ?_, hname⟩
    rw [queue_populate, List.getD_eq_getElem _ _ hi]
    exact he

theorem total_populate : total ins.length (populate ins ins.length) = ins.flatten.length := by
  have hsum : ∀ l : List (List MetaCacheEntry),
      ∑ i ∈ Finset.range l.length, (l.getD i []).length = l.flatten.length := by
    intro l
    induction l with
    | nil => rfl
    | cons a l ih =>
      rw [List.length_cons, Finset.sum_range_succ', List.flatten_cons, List.length_append, ← ih,
        Nat.add_comm]
      rfl
  rw [total, ← hsum]
  exact Finset.sum_congr rfl fun i _ => by rw [queue_populate]

end Start

/-- **Merging is a sorted union.** From at least two channels that deliver entries with increasing names,
none of them empty, whatever `compareMeta` picks, the function returns with all channels drained; the names
it has sent are increasing and are those of the channels, and every entry it has sent is from a channel. -/
theorem mergeEntryChannels_union (compareMeta : MetaCacheEntry → MetaCacheEntry → Bool)
    (ins : List (List MetaCacheEntry)) (hcount : 2 ≤ ins.length)
    (hsorted : ∀ l ∈ ins, l.Pairwise fun a b => a.name < b.name)
    (hnames : ∀ l ∈ ins, ∀ e ∈ l, e.name ≠ []) :
    ∃ out s, mergeEntryChannels compareMeta ins = some (out, s) ∧
      (∀ i < ins.length, s.top i = none ∧ s.rest i = []) ∧
      (out.Pairwise fun a b => a.name < b.name) ∧
      (∀ name, (∃ e ∈ out, e.name = name) ↔ ∃ l ∈ ins, ∃ e ∈ l, e.name = name) ∧
      ∀ e ∈ out, ∃ l ∈ ins, e ∈ l := by
  have hlast : ∀ i < ins.length, ∀ e ∈ queue (populate ins ins.length) i, [] < e.name := by
    intro i hi e he
    rw [queue_populate, List.getD_eq_getElem _ _ hi] at he
    obtain ⟨c, cs, hcons⟩ := List.exists_cons_of_ne_nil (hnames _ (List.getElem_mem hi) e he)
    rw [hcons]
    exact List.nil_lt_cons c cs
  obtain ⟨out, s, hloop, hdrained, hunion⟩ := mergeLoop_union compareMeta (by omega)
    (ins.flatten.length + 1) _ [] (ready_populate hsorted) hlast (by rw [total_populate]; omega)
  refine ⟨out, s, ?_, hdrained, hunion.sorted, ?_, ?_⟩
  · rw [mergeEntryChannels, if_neg (by omega), hloop]
  · intro name
    rw [hunion.names, left_populate]
  · intro e he
    obtain ⟨i, hi, hmem⟩ := hunion.source e he
    rw [queue_populate, List.getD_eq_getElem _ _ hi] at hmem
    exact ⟨_, List.getElem_mem hi, hmem⟩

/-- Two channels with one name in common. -/
theorem mergeEntryChannels_two : ∃ out s,
    mergeEntryChannels (fun _ _ => true) [[⟨[97], [1]⟩, ⟨[98], [1]⟩], [⟨[98], [2]⟩]] = some (out, s) ∧
      (out.Pairwise fun a b => a.name < b.name) := by
  obtain ⟨out, s, hmerge, _, hsorted, _⟩ := mergeEntryChannels_union (fun _ _ => true)
    [[⟨[97], [1]⟩, ⟨[98], [1]⟩], [⟨[98], [2]⟩]] (by decide) (by decide) (by decide)
  exact ⟨out, s, hmerge, hsorted⟩

end Zs3Server.Cmd.MergeChannels
