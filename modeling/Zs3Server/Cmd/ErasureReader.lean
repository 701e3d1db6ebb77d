import Mathlib

/-!
# Choosing the shard readers of an erasure coded object

A `parallelReader` reads the shards of an object from its readers in index order.  `preferReaders`
moves the readers that are marked as preferred to the front, in one pass of swaps, and keeps in
`readerToBuf` the shard that the reader at each index reads.

* `Erasure`, `shardSize`, `shardFileSize` — sizes of blocks and shards;
* `ParallelReader`, `preferReaders` — the readers and the pass that reorders them;
* `Moved`, `moved_run` — where the pass has written every index so far;
* `preferReaders_places_iff` — `readerToBuf` describes the new order exactly when the preferred readers
  that start among the first places are the leading ones;
* `preferReaders_repeats_slot` — three readers of which the last two are preferred.
-/

namespace Zs3Server.Cmd.ErasureReader

/-! ### Sizes -/

/-- The part of `Erasure` that sizes depend on. -/
structure Erasure where
  dataBlocks : ℕ
  parityBlocks : ℕ
  blockSize : ℕ
deriving Repr, DecidableEq

/-- The quotient rounded up; 0 for the denominator 0. -/
def ceilFrac (numerator denominator : ℕ) : ℕ :=
  if denominator = 0 then 0
  else if 0 < numerator ∧ numerator % denominator ≠ 0 then numerator / denominator + 1
  else numerator / denominator

theorem ceilFrac_pos {numerator denominator : ℕ} (h : 0 < numerator) (hd : 0 < denominator) :
    0 < ceilFrac numerator denominator := by
  rw [ceilFrac, if_neg (by omega)]
  split
  · exact Nat.succ_pos _
  · next hrest =>
    have hdvd : denominator ∣ numerator := Nat.dvd_of_mod_eq_zero (by omega)
    exact Nat.div_pos (Nat.le_of_dvd h hdvd) hd

/-- The size of a shard of a full block. -/
def Erasure.shardSize (e : Erasure) : ℕ := ceilFrac e.blockSize e.dataBlocks

/-- The size of the file of one shard, for an object of the given length. -/
def Erasure.shardFileSize (e : Erasure) (totalLength : ℕ) : ℕ :=
  if totalLength = 0 then 0
  else
    let numShards := totalLength / e.blockSize
    let lastBlockSize := totalLength % e.blockSize
    numShards * e.shardSize + ceilFrac lastBlockSize e.dataBlocks

/-! ### The readers -/

/-- Reads in parallel from `readers`; a missing reader is `none`.  The arguments have been checked by
`Decode`, so no size is negative. -/
structure ParallelReader (R : Type*) where
  readers : List (Option R)
  orgReaders : List (Option R)
  dataBlocks : ℕ
  offset : ℕ
  shardSize : ℕ
  shardFileSize : ℕ
  readerToBuf : List ℕ

variable {R : Type*}

def newParallelReader (readers : List (Option R)) (e : Erasure) (offset totalLength : ℕ) :
    ParallelReader R where
  readers := readers
  orgReaders := readers
  dataBlocks := e.dataBlocks
  offset := offset / e.blockSize * e.shardSize
  shardSize := e.shardSize
  shardFileSize := e.shardFileSize totalLength
  readerToBuf := List.range readers.length

/-- The variables of the loop of `preferReaders`; `next` is the next place for a preferred reader. -/
structure PreferState (R : Type*) where
  readers : List (Option R)
  readerToBuf : List ℕ
  next : ℕ

/-- One iteration: the preferred reader at index `i` is swapped with the one at `next`. -/
def preferStep (prefer : List Bool) (s : PreferState R) (i : ℕ) : PreferState R :=
  if !prefer.getD i false || (s.readers.getD i none).isNone then s
  else if i = s.next then { s with next := s.next + 1 }
  else
    { readers := (s.readers.set s.next (s.readers.getD i none)).set i (s.readers.getD s.next none)
      readerToBuf := (s.readerToBuf.set s.next i).set i s.next
      next := s.next + 1 }

/-- The loop over the first `n` indices. -/
def preferLoop (prefer : List Bool) (p : ParallelReader R) (n : ℕ) : PreferState R :=
  (List.range n).foldl (preferStep prefer) ⟨p.orgReaders, p.readerToBuf, 0⟩

/-- Marks readers as preferred: these are tried before the others. -/
def ParallelReader.preferReaders (p : ParallelReader R) (prefer : List Bool) : ParallelReader R :=
  if prefer.length ≠ p.orgReaders.length then p
  else
    let s := preferLoop prefer p prefer.length
    { p with readers := s.readers, readerToBuf := s.readerToBuf }

theorem preferLoop_succ (prefer : List Bool) (p : ParallelReader R) (n : ℕ) :
    preferLoop prefer p (n + 1) = preferStep prefer (preferLoop prefer p n) n := by
  unfold preferLoop
  rw [List.range_succ, List.foldl_append]
  rfl

theorem preferReaders_of_length {p : ParallelReader R} {prefer : List Bool}
    (h : prefer.length = p.orgReaders.length) :
    p.preferReaders prefer =
      { p with
        readers := (preferLoop prefer p p.orgReaders.length).readers
        readerToBuf := (preferLoop prefer p p.orgReaders.length).readerToBuf } := by
  unfold ParallelReader.preferReaders
  rw [if_neg (not_not.mpr h), h]

/-! ### Preferred readers -/

/-- The reader with index `i` exists and is preferred. -/
def Preferred (readers : List (Option R)) (prefer : List Bool) (i : ℕ) : Prop :=
  prefer.getD i false = true ∧ (readers.getD i none).isSome = true

instance Preferred.decidable (readers : List (Option R)) (prefer : List Bool) :
    DecidablePred (Preferred readers prefer) := fun _ => instDecidableAnd

/-- The number of preferred readers. -/
def preferredCount (readers : List (Option R)) (prefer : List Bool) : ℕ :=
  Nat.count (Preferred readers prefer) readers.length

/-- A preferred reader whose index is below the number of preferred readers has only preferred readers
before it. -/
def LeadingPreferred (readers : List (Option R)) (prefer : List Bool) : Prop :=
  ∀ i < preferredCount readers prefer, Preferred readers prefer i →
    ∀ j < i, Preferred readers prefer j

/-- `readerToBuf` describes the order of the readers: it is a permutation of their indices, and the
reader at `j` is the original reader `readerToBuf[j]`. -/
def Placed (p : ParallelReader R) : Prop :=
  p.readerToBuf.Perm (List.range p.orgReaders.length) ∧
    ∀ j b : ℕ, p.readerToBuf[j]? = some b → p.readers[j]? = p.orgReaders[b]?

theorem Preferred.lt_length {readers : List (Option R)} {prefer : List Bool} {i : ℕ}
    (h : Preferred readers prefer i) : i < readers.length := by
  by_contra hge
  have hnone : readers.getD i none = none := by simp [List.getElem?_eq_none (Nat.not_lt.mp hge)]
  have hsome := h.2
  rw [hnone] at hsome
  cases hsome

/-! ### What the pass has written -/

/-- What the loop has done to the indices below `i`: the preferred readers were moved, in their order, to
the front; at the index a preferred reader left behind, `readerToBuf` has the place it moved to; every
other index is as it was. -/
structure Moved (readers : List (Option R)) (prefer : List Bool) (i : ℕ) (s : PreferState R) : Prop where
  next_eq : s.next = Nat.count (Preferred readers prefer) i
  lengths : s.readers.length = readers.length ∧ s.readerToBuf.length = readers.length
  moved : ∀ q < i, Preferred readers prefer q →
    s.readerToBuf[Nat.count (Preferred readers prefer) q]? = some q
  left : ∀ q < i, Preferred readers prefer q → s.next ≤ q →
    s.readerToBuf[q]? = some (Nat.count (Preferred readers prefer) q)
  fresh : ∀ q < readers.length, s.next ≤ q → (q < i → ¬ Preferred readers prefer q) →
    s.readerToBuf[q]? = some q ∧ s.readers[q]? = readers[q]?

theorem moved_init (readers : List (Option R)) (prefer : List Bool) :
    Moved readers prefer 0 ⟨readers, List.range readers.length, 0⟩ where
  next_eq := by simp
  lengths := by simp
  moved := by intro q hq; omega
  left := by intro q hq; omega
  fresh := by
    intro q hq _ _
    simp [hq]

theorem Moved.next_le {readers : List (Option R)} {prefer : List Bool} {i : ℕ} {s : PreferState R}
    (h : Moved readers prefer i s) : s.next ≤ i := by
  rw [h.next_eq]
  exact Nat.count_le _

/-- The loop asks the reordered slice for a reader that is still in its place. -/
theorem Moved.getD_readers {readers : List (Option R)} {prefer : List Bool} {i : ℕ} {s : PreferState R}
    (h : Moved readers prefer i s) (hi : i < readers.length) :
    s.readers.getD i none = readers.getD i none := by
  have hfresh := (h.fresh i hi h.next_le (fun hlt => absurd hlt (Nat.lt_irrefl i))).2
  rw [List.getD_eq_getElem?_getD, List.getD_eq_getElem?_getD, hfresh]

/-- The three outcomes of an iteration. -/
theorem preferStep_cases {readers : List (Option R)} {prefer : List Bool} {i : ℕ} {s : PreferState R}
    (h : Moved readers prefer i s) (hi : i < readers.length) :
    (¬ Preferred readers prefer i ∧ preferStep prefer s i = s) ∨
      (Preferred readers prefer i ∧ i = s.next ∧
        preferStep prefer s i = { s with next := s.next + 1 }) ∨
      (Preferred readers prefer i ∧ s.next < i ∧
        preferStep prefer s i =
          { readers := (s.readers.set s.next (readers.getD i none)).set i (s.readers.getD s.next none)
            readerToBuf := (s.readerToBuf.set s.next i).set i s.next
            next := s.next + 1 }) := by
  have hget := h.getD_readers hi
  have hle := h.next_le
  unfold preferStep
  rw [hget]
  by_cases hp : Preferred readers prefer i
  · have hskip : (!prefer.getD i false || (readers.getD i none).isNone) = false := by
      rw [hp.1]
      have hsome := hp.2
      cases hr : readers.getD i none with
      | none => rw [hr] at hsome; cases hsome
      | some r => rfl
    rw [hskip]
    by_cases hn : i = s.next
    · exact Or.inr (Or.inl ⟨hp, hn, by simp [hn]⟩)
    · exact Or.inr (Or.inr ⟨hp, by omega, by simp [hn]⟩)
  · have hskip : (!prefer.getD i false || (readers.getD i none).isNone) = true := by
      by_contra hno
      apply hp
      constructor
      · cases hb : prefer.getD i false with
        | false => rw [hb] at hno; simp at hno
        | true => rfl
      · cases hr : readers.getD i none with
        | none => rw [hr] at hno; simp at hno
        | some r => rfl
    rw [hskip]
    exact Or.inl ⟨hp, rfl⟩

/-- The order of two preferred readers is that of their places. -/
theorem count_lt_count {readers : List (Option R)} {prefer : List Bool} {q i : ℕ}
    (hq : Preferred readers prefer q) (hlt : q < i) :
    Nat.count (Preferred readers prefer) q < Nat.count (Preferred readers prefer) i := by
  calc Nat.count (Preferred readers prefer) q
      < Nat.count (Preferred readers prefer) (q + 1) := by
        rw [Nat.count_succ, if_pos hq]
        omega
    _ ≤ Nat.count (Preferred readers prefer) i := Nat.count_monotone _ hlt

theorem moved_step {readers : List (Option R)} {prefer : List Bool} {i : ℕ} {s : PreferState R}
    (h : Moved readers prefer i s) (hi : i < readers.length) :
    Moved readers prefer (i + 1) (preferStep prefer s i) := by
  have hle := h.next_le
  have hcount := h.next_eq
  rcases preferStep_cases h hi with ⟨hp, heq⟩ | ⟨hp, hnext, heq⟩ | ⟨hp, hlt, heq⟩
  · rw [heq]
    -- a preferred index below `i + 1` is below `i`
    have hbelow : ∀ q < i + 1, Preferred readers prefer q → q < i := by
      intro q hq hpq
      rcases Nat.lt_succ_iff_lt_or_eq.mp hq with hlt | rfl
      · exact hlt
      · exact absurd hpq hp
    refine ⟨?_, h.lengths, ?_, ?_, ?_⟩
    · rw [Nat.count_succ, if_neg hp]
      exact hcount
    · intro q hq hpq
      exact h.moved q (hbelow q hq hpq) hpq
    · intro q hq hpq
      exact h.left q (hbelow q hq hpq) hpq
    · intro q hq hnq hnp
      exact h.fresh q hq hnq (fun hqi => hnp (Nat.lt_succ_of_lt hqi))
  · rw [heq]
    have hfresh := h.fresh i hi hle (fun hlt => absurd hlt (Nat.lt_irrefl i))
    refine ⟨?_, h.lengths, ?_, ?_, ?_⟩
    · show s.next + 1 = _
      rw [Nat.count_succ, if_pos hp, hcount]
    · intro q hq hpq
      rcases Nat.lt_succ_iff_lt_or_eq.mp hq with hlt | rfl
      · exact h.moved q hlt hpq
      · show s.readerToBuf[Nat.count (Preferred readers prefer) q]? = some q
        rw [← hcount, ← hnext]
        exact hfresh.1
    · intro q hq _ hnq
      have hnq' : s.next + 1 ≤ q := hnq
      omega
    · intro q hq hnq hnp
      have hnq' : s.next + 1 ≤ q := hnq
      exact h.fresh q hq (by omega) (fun hqi => hnp (Nat.lt_succ_of_lt hqi))
  · rw [heq]
    obtain ⟨hlen, hlen'⟩ := h.lengths
    -- only the indices `next` and `i` are written
    have hother : ∀ q, q ≠ s.next → q ≠ i →
        ((s.readerToBuf.set s.next i).set i s.next)[q]? = s.readerToBuf[q]? := by
      intro q hqn hqi
      rw [List.getElem?_set_ne (Ne.symm hqi), List.getElem?_set_ne (Ne.symm hqn)]
    have hat : ((s.readerToBuf.set s.next i).set i s.next)[i]? = some s.next := by
      rw [List.getElem?_set_self (by simp; omega)]
    have hat' : ((s.readerToBuf.set s.next i).set i s.next)[s.next]? = some i := by
      rw [List.getElem?_set_ne (by omega), List.getElem?_set_self (by omega)]
    refine ⟨?_, by simp [hlen, hlen'], ?_, ?_, ?_⟩
    · show s.next + 1 = _
      rw [Nat.count_succ, if_pos hp, hcount]
    · intro q hq hpq
      show ((s.readerToBuf.set s.next i).set i s.next)[_]? = some q
      rcases Nat.lt_succ_iff_lt_or_eq.mp hq with hqi | rfl
      · have hcq := count_lt_count hpq hqi
        rw [hother _ (by omega) (by omega)]
        exact h.moved q hqi hpq
      · rw [← hcount]
        exact hat'
    · intro q hq hpq hnq
      have hnq' : s.next + 1 ≤ q := hnq
      show ((s.readerToBuf.set s.next i).set i s.next)[q]? = _
      rcases Nat.lt_succ_iff_lt_or_eq.mp hq with hqi | rfl
      · rw [hother q (by omega) (by omega)]
        exact h.left q hqi hpq (by omega)
      · rw [← hcount]
        exact hat
    · intro q hq hnq hnp
      have hnq' : s.next + 1 ≤ q := hnq
      have hqi : q ≠ i := by
        rintro rfl
        exact hnp (Nat.lt_succ_self q) hp
      obtain ⟨hbuf, hreader⟩ := h.fresh q hq (by omega) (fun hlt => hnp (Nat.lt_succ_of_lt hlt))
      constructor
      · show ((s.readerToBuf.set s.next i).set i s.next)[q]? = _
        rw [hother q (by omega) hqi]
        exact hbuf
      · show ((s.readers.set s.next (readers.getD i none)).set i (s.readers.getD s.next none))[q]? = _
        rw [List.getElem?_set_ne (Ne.symm hqi), List.getElem?_set_ne (by omega)]
        exact hreader

/-- The readers a `parallelReader` starts with, in their order. -/
def Fresh (p : ParallelReader R) : Prop := p.readerToBuf = List.range p.orgReaders.length

theorem moved_run {p : ParallelReader R} (prefer : List Bool) (hp : Fresh p) {n : ℕ}
    (hn : n ≤ p.orgReaders.length) : Moved p.orgReaders prefer n (preferLoop prefer p n) := by
  induction n with
  | zero =>
    have hinit := moved_init p.orgReaders prefer
    unfold Fresh at hp
    rw [← hp] at hinit
    exact hinit
  | succ n ih =>
    rw [preferLoop_succ]
    exact moved_step (ih (by omega)) (by omega)

/-! ### Leading preferred readers -/

/-- While the preferred readers among the first places are the leading ones, a swap meets a reader that
is still in its place. -/
theorem not_preferred_next {readers : List (Option R)} {prefer : List Bool} {i : ℕ} {s : PreferState R}
    (h : Moved readers prefer i s) (hlead : LeadingPreferred readers prefer)
    (hp : Preferred readers prefer i) (hlt : s.next < i) : ¬ Preferred readers prefer s.next := by
  intro hnext
  have htotal : s.next < preferredCount readers prefer := by
    rw [h.next_eq]
    exact count_lt_count hp hp.lt_length
  -- every index up to `next` is preferred, so more than `next` of them lie below `i`
  have hall : Nat.count (Preferred readers prefer) s.next = s.next := by
    rw [Nat.count_iff_forall]
    exact hlead s.next htotal hnext
  have hmore := count_lt_count hnext hlt
  rw [hall, ← h.next_eq] at hmore
  omega

/-- The order that `readerToBuf` describes, for the variables of the loop. -/
def PlacedState (readers : List (Option R)) (s : PreferState R) : Prop :=
  s.readerToBuf.Perm (List.range readers.length) ∧
    ∀ j b : ℕ, s.readerToBuf[j]? = some b → s.readers[j]? = readers[b]?

theorem placed_step {readers : List (Option R)} {prefer : List Bool} {i : ℕ} {s : PreferState R}
    (h : Moved readers prefer i s) (hlead : LeadingPreferred readers prefer) (hi : i < readers.length)
    (hplaced : PlacedState readers s) : PlacedState readers (preferStep prefer s i) := by
  rcases preferStep_cases h hi with ⟨_, heq⟩ | ⟨_, _, heq⟩ | ⟨hp, hlt, heq⟩
  · rw [heq]
    exact hplaced
  · rw [heq]
    exact hplaced
  · rw [heq]
    obtain ⟨hperm, horder⟩ := hplaced
    obtain ⟨hlen, hlen'⟩ := h.lengths
    have hnext := not_preferred_next h hlead hp hlt
    obtain ⟨hbufn, hreadern⟩ := h.fresh s.next (by omega) (Nat.le_refl _) (fun _ => hnext)
    obtain ⟨hbufi, _⟩ := h.fresh i hi (by omega) (fun hii => absurd hii (Nat.lt_irrefl i))
    have hi' : i < s.readerToBuf.length := by omega
    have hn' : s.next < s.readerToBuf.length := by omega
    constructor
    · have hgetn : s.readerToBuf[s.next] = s.next := List.getElem_eq_iff hn' |>.mpr hbufn
      have hgeti : s.readerToBuf[i] = i := List.getElem_eq_iff hi' |>.mpr hbufi
      have hswap := List.set_set_perm hn' hi'
      rw [hgetn, hgeti] at hswap
      exact hswap.trans hperm
    · intro j b hb
      show ((s.readers.set s.next (readers.getD i none)).set i (s.readers.getD s.next none))[j]? = _
      have hb' : ((s.readerToBuf.set s.next i).set i s.next)[j]? = some b := hb
      by_cases hji : j = i
      · subst hji
        rw [List.getElem?_set_self (by simp; omega)] at hb'
        obtain rfl := Option.some.inj hb'
        rw [List.getElem?_set_self (by simp; omega), ← hreadern, List.getD_eq_getElem?_getD,
          List.getElem?_eq_getElem (by omega)]
        rfl
      · rw [List.getElem?_set_ne (Ne.symm hji)] at hb' ⊢
        by_cases hjn : j = s.next
        · subst hjn
          rw [List.getElem?_set_self hn'] at hb'
          obtain rfl := Option.some.inj hb'
          rw [List.getElem?_set_self (by omega), List.getD_eq_getElem?_getD,
            List.getElem?_eq_getElem hi]
          rfl
        · rw [List.getElem?_set_ne (Ne.symm hjn)] at hb' ⊢
          exact horder j b hb'

theorem placed_run {p : ParallelReader R} {prefer : List Bool} (hp : Fresh p)
    (hlead : LeadingPreferred p.orgReaders prefer) {n : ℕ} (hn : n ≤ p.orgReaders.length) :
    PlacedState p.orgReaders (preferLoop prefer p n) := by
  induction n with
  | zero =>
    constructor
    · show p.readerToBuf.Perm _
      rw [hp]
    · intro j b hb
      have hb' : p.readerToBuf[j]? = some b := hb
      rw [hp] at hb'
      obtain ⟨hj, hjb⟩ := List.getElem?_eq_some_iff.mp hb'
      rw [List.getElem_range] at hjb
      rw [← hjb]
      rfl
  | succ n ih =>
    rw [preferLoop_succ]
    exact placed_step (moved_run prefer hp (by omega)) hlead (by omega) (ih (by omega))

/-! ### Preferred readers further back -/

/-- Every place below the count is taken by a preferred reader. -/
theorem exists_count_eq {readers : List (Option R)} {prefer : List Bool} {k n : ℕ}
    (h : k < Nat.count (Preferred readers prefer) n) :
    ∃ q < n, Preferred readers prefer q ∧ Nat.count (Preferred readers prefer) q = k := by
  induction n with
  | zero => simp at h
  | succ n ih =>
    rw [Nat.count_succ] at h
    by_cases hk : k < Nat.count (Preferred readers prefer) n
    · obtain ⟨q, hq, hpq⟩ := ih hk
      exact ⟨q, by omega, hpq⟩
    · by_cases hp : Preferred readers prefer n
      · rw [if_pos hp] at h
        exact ⟨n, by omega, hp, by omega⟩
      · rw [if_neg hp] at h
        omega

/-- If a preferred reader among the first places is not a leading one, then some such reader is moved
away for one that comes from behind the first places. -/
theorem exists_last_of_not_leading {readers : List (Option R)} {prefer : List Bool} {k j : ℕ}
    (hk : k < preferredCount readers prefer) (hpk : Preferred readers prefer k) (hj : j < k)
    (hpj : ¬ Preferred readers prefer j) :
    ∃ k q, Preferred readers prefer k ∧ Preferred readers prefer q ∧ k < q ∧
      preferredCount readers prefer ≤ q ∧ Nat.count (Preferred readers prefer) q = k := by
  obtain ⟨q, _, hpq, hcount⟩ := exists_count_eq hk
  have hless : Nat.count (Preferred readers prefer) k < k := by
    rcases Nat.lt_or_ge (Nat.count (Preferred readers prefer) k) k with hlt | hge
    · exact hlt
    · have hall := Nat.count_iff_forall.mp (Nat.le_antisymm (Nat.count_le _) hge)
      exact absurd (hall j hj) hpj
  have hkq : k < q := by
    by_contra hno
    have hmono := Nat.count_monotone (Preferred readers prefer) (Nat.not_lt.mp hno)
    omega
  by_cases hq : q < preferredCount readers prefer
  · -- the reader that takes the place is itself among the first ones: go on from there
    exact exists_last_of_not_leading hq hpq (by omega) hpj
  · exact ⟨k, q, hpk, hpq, hkq, by omega, hcount⟩
termination_by preferredCount readers prefer - k

/-- Then the same shard is recorded for two readers. -/
theorem not_nodup_of_not_leading {p : ParallelReader R} {prefer : List Bool} (hp : Fresh p)
    (h : ¬ LeadingPreferred p.orgReaders prefer) :
    ¬ (preferLoop prefer p p.orgReaders.length).readerToBuf.Nodup := by
  intro hnodup
  simp only [LeadingPreferred, not_forall] at h
  obtain ⟨k₀, hk₀, hpk₀, j₀, hj₀, hpj₀⟩ := h
  obtain ⟨k, q, hpk, hpq, hkq, hge, hcount⟩ := exists_last_of_not_leading hk₀ hpk₀ hj₀ hpj₀
  have hmoved := moved_run prefer hp (Nat.le_refl p.orgReaders.length)
  have hnext : (preferLoop prefer p p.orgReaders.length).next ≤ q := by
    rw [hmoved.next_eq]
    exact hge
  have hfirst := hmoved.moved k hpk.lt_length hpk
  have hsecond := hmoved.left q hpq.lt_length hpq hnext
  rw [hcount] at hsecond
  have hlt : Nat.count (Preferred p.orgReaders prefer) k < q :=
    Nat.lt_of_le_of_lt (Nat.count_le _) hkq
  have hsame := (List.nodup_iff_getElem?_ne_getElem?.mp hnodup) _ _ hlt
    (List.getElem?_eq_some_iff.mp hsecond).1
  exact hsame (hfirst.trans hsecond.symm)

/-! ### The pass as a whole -/

/-- **Where the preferred readers end.** After `preferReaders`, `readerToBuf` is a permutation of the
indices that says for every reader which of the original ones it is, exactly when the preferred readers
that start among the first places are the leading ones. -/
theorem preferReaders_places_iff (readers : List (Option R)) (e : Erasure) (offset totalLength : ℕ)
    (prefer : List Bool) (hlen : prefer.length = readers.length) :
    Placed ((newParallelReader readers e offset totalLength).preferReaders prefer) ↔
      LeadingPreferred readers prefer := by
  have hfresh : Fresh (newParallelReader readers e offset totalLength) := rfl
  rw [preferReaders_of_length hlen]
  constructor
  · intro hplaced
    by_contra hlead
    exact not_nodup_of_not_leading hfresh hlead (hplaced.1.nodup_iff.mpr List.nodup_range)
  · intro hlead
    exact placed_run hfresh hlead (Nat.le_refl readers.length)

/-- Four readers, one of them missing, of which the first and the last are preferred. -/
theorem preferReaders_places_four :
    Placed ((newParallelReader [some 10, some 11, none, some 13] ⟨2, 2, 8⟩ 0 16).preferReaders
      [true, false, true, true]) := by
  have hlead : LeadingPreferred [some 10, some 11, none, some 13] [true, false, true, true] := by
    intro i hi
    have htwo : preferredCount [some 10, some 11, none, some 13] [true, false, true, true] = 2 := by
      decide
    rw [htwo] at hi
    interval_cases i
    · intro _ j hj
      omega
    · intro hp
      exact absurd hp (by decide)
  exact (preferReaders_places_iff _ ⟨2, 2, 8⟩ 0 16 _ rfl).mpr hlead

/-- **A shard in the wrong slot.** Of three readers the last two are preferred: the reader of shard 0
ends at index 2, where `readerToBuf` has slot 1, and no index is left for slot 0. -/
theorem preferReaders_repeats_slot :
    ¬ Placed ((newParallelReader [some 10, some 11, some 12] ⟨2, 1, 8⟩ 0 16).preferReaders
      [false, true, true]) ∧
    ((newParallelReader [some 10, some 11, some 12] ⟨2, 1, 8⟩ 0 16).preferReaders
      [false, true, true]).readers = [some 11, some 12, some 10] ∧
    ((newParallelReader [some 10, some 11, some 12] ⟨2, 1, 8⟩ 0 16).preferReaders
      [false, true, true]).readerToBuf = [1, 2, 1] := by
  refine ⟨?_, rfl, rfl⟩
  intro hplaced
  have hnodup := hplaced.1.nodup_iff.mpr List.nodup_range
  exact absurd hnodup (by decide)

end Zs3Server.Cmd.ErasureReader
