import Zs3Server.Lib.GoInt64
import Zs3Server.Cmd.ErasureReader

/-!
# What `Decode` reads of the shard files

`Decode` goes through the blocks of a range and reads one shard of each from as many readers as there are
data blocks, and from further ones where a reader is missing or fails.  A reader of a bitrot protected file
is opened once, up to `ShardFileOffset`, and can only be read on from where it is.

* `shardFileOffset`, `parallelRead`, `decodeReads` — the code, with the `ReadAt` calls it makes;
* `run_cases` — what one round can do;
* `decodeLoop_followsOn` — a reader that has answered is read again in the next round, where it ended;
* `decodeLoop_within` — every call lies in the window;
* `decode_covered` — both, for `Decode`; `decode_outside_window` is an overflow of the window's end.
-/

namespace Zs3Server.Cmd.ErasureReader

open Lib.GoInt64

variable {R : Type*}

/-! ### The code -/

/-- Up to where the shard files are read.  The sum is an `int64`. -/
def Erasure.shardFileOffset (e : Erasure) (startOffset length totalLength : ℕ) : ℤ :=
  let endShard := (startOffset + length) / e.blockSize
  let tillOffset := wrap64 (endShard * e.shardSize + e.shardSize)
  if (e.shardFileSize totalLength : ℤ) < tillOffset then e.shardFileSize totalLength else tillOffset

/-- A call of `ReadAt`, with the index of its reader. -/
structure ShardRead where
  reader : ℕ
  off : ℕ
  len : ℕ
  deriving DecidableEq

/-- What becomes of one round of `Decode`: which readers fail, and whether decoding and writing the block
succeed. -/
structure Round where
  fails : ℕ → Bool
  goesOn : Bool

namespace ParallelReader

def live (p : ParallelReader R) (i : ℕ) : Bool := (p.readers.getD i none).isSome

/-- How many of the readers before index `i` answer. -/
def answers (p : ParallelReader R) (fails : ℕ → Bool) (i : ℕ) : ℕ :=
  (List.range i).countP fun k => p.live k && !fails k

/-- The readers are tried by their indices: the first `dataBlocks`, and one more for each that is missing
or fails. -/
def tried (p : ParallelReader R) (fails : ℕ → Bool) (i : ℕ) : Bool :=
  p.live i && decide (p.answers fails i < p.dataBlocks)

/-- The size of the next shards. -/
def nextSize (p : ParallelReader R) : ℕ :=
  if (p.shardFileSize : ℤ) < wrap64 (p.offset + p.shardSize) then p.shardFileSize - p.offset
  else p.shardSize

theorem nextSize_eq_ite (p : ParallelReader R) : p.nextSize =
    if (p.shardFileSize : ℤ) < wrap64 (p.offset + p.shardSize) then p.shardFileSize - p.offset
    else p.shardSize := by
  rw [nextSize]

-- unfolding the sum inside a definitional check would count up to `2^64`
attribute [irreducible] nextSize

/-- The calls of a round, all at one offset. -/
def roundReads (p : ParallelReader R) (fails : ℕ → Bool) : List ShardRead :=
  ((List.range p.readers.length).filter (p.tried fails)).map fun i => ⟨i, p.offset, p.nextSize⟩

/-- The readers after a round. -/
def roster (p : ParallelReader R) (fails : ℕ → Bool) : List (Option R) :=
  p.readers.mapIdx fun i r => if p.tried fails i && fails i then none else r

/-- The state after a round that could be decoded. -/
def after (p : ParallelReader R) (fails : ℕ → Bool) : ParallelReader R :=
  { p with readers := p.roster fails, offset := p.offset + p.nextSize, shardSize := p.nextSize }

/-- `Read`: the calls it makes, and the reader after it.  There is none after a read quorum error. -/
def parallelRead (p : ParallelReader R) (fails : ℕ → Bool) : List ShardRead × Option (ParallelReader R) :=
  if p.nextSize = 0 then ([], some { p with shardSize := 0 })
  else
    (p.roundReads fails,
      if p.answers fails p.readers.length < p.dataBlocks then none
      else some (p.after fails))

end ParallelReader

/-- How much of a block is in the range. -/
def Erasure.blockLength (e : Erasure) (offset length block : ℕ) : ℕ :=
  let startBlock := offset / e.blockSize
  let endBlock := (offset + length) / e.blockSize
  if startBlock = endBlock then length
  else if block = startBlock then e.blockSize - offset % e.blockSize
  else if block = endBlock then (offset + length) % e.blockSize
  else e.blockSize

/-- A round: `Read`, and what is done with the block. -/
def Round.run (round : Round) (p : ParallelReader R) : List ShardRead × Option (ParallelReader R) :=
  ((p.parallelRead round.fails).1, if round.goesOn then (p.parallelRead round.fails).2 else none)

/-- The loop of `Decode` over the blocks that are left: the calls it makes. -/
def decodeLoop (e : Erasure) (offset length : ℕ)
    (run : ℕ → ParallelReader R → List ShardRead × Option (ParallelReader R)) :
    ℕ → ℕ → ParallelReader R → List ShardRead
  | 0, _, _ => []
  | left + 1, block, p =>
    if e.blockLength offset length block = 0 then []
    else
      match run block p with
      | (reads, none) => reads
      | (reads, some p) => reads ++ decodeLoop e offset length run left (block + 1) p

/-- The calls of `Decode` for a range inside the object. -/
def decodeReads (e : Erasure) (readers : List (Option R)) (offset length totalLength : ℕ)
    (prefer : List Bool) (rounds : ℕ → Round) : List ShardRead :=
  let p := newParallelReader readers e offset totalLength
  let p := if prefer.length = readers.length then p.preferReaders prefer else p
  let startBlock := offset / e.blockSize
  let endBlock := (offset + length) / e.blockSize
  decodeLoop e offset length (fun block => (rounds block).run) (endBlock + 1 - startBlock) startBlock p

/-! ### What the reads should be -/

/-- **The reads cover their windows:** each ends before the reader's stream does, starts at a shard, and
starts where the last one of its reader ended. -/
structure Covered (e : Erasure) (offset length totalLength : ℕ) (reads : List ShardRead) : Prop where
  till_le : e.shardFileOffset offset length totalLength ≤ e.shardFileSize totalLength
  within : ∀ r ∈ reads, (r.off + r.len : ℤ) ≤ e.shardFileOffset offset length totalLength
  aligned : ∀ r ∈ reads, e.shardSize ∣ r.off
  contiguous : ∀ i, (reads.filter fun r => r.reader = i).IsChain fun a b => b.off = a.off + a.len

/-! ### Sizes -/

section Sizes

variable {e : Erasure} (hsize : 0 < e.blockSize) (hdata : 0 < e.dataBlocks)

include hsize hdata

theorem shardSize_pos : 0 < e.shardSize := ceilFrac_pos hsize hdata

/-- A block that has begun has its shard in the file. -/
theorem shard_lt_fileSize {block total : ℕ} (h : block * e.blockSize < total) :
    block * e.shardSize < e.shardFileSize total := by
  have hne : total ≠ 0 := by omega
  rw [Erasure.shardFileSize, if_neg hne]
  have hle : block ≤ total / e.blockSize := (Nat.le_div_iff_mul_le hsize).mpr h.le
  rcases Nat.lt_or_eq_of_le hle with hlt | heq
  · have hmul : (block + 1) * e.shardSize ≤ total / e.blockSize * e.shardSize :=
      Nat.mul_le_mul_right _ hlt
    have hpos := shardSize_pos hsize hdata
    rw [Nat.succ_mul] at hmul
    show block * e.shardSize < total / e.blockSize * e.shardSize + _
    omega
  · -- the last block is not full
    have hmod : 0 < total % e.blockSize := by
      have hdiv := Nat.div_add_mod total e.blockSize
      rw [← heq, Nat.mul_comm] at hdiv
      omega
    have hlast := ceilFrac_pos hmod hdata
    rw [← heq]
    show block * e.shardSize < block * e.shardSize + _
    omega

omit hdata in
/-- A full block has a full shard. -/
theorem full_shard_le {block total : ℕ} (h : (block + 1) * e.blockSize ≤ total) :
    block * e.shardSize + e.shardSize ≤ e.shardFileSize total := by
  have hpos : 0 < (block + 1) * e.blockSize := Nat.mul_pos (Nat.succ_pos _) hsize
  have hne : total ≠ 0 := by omega
  have hle : block + 1 ≤ total / e.blockSize := (Nat.le_div_iff_mul_le hsize).mpr h
  have hmul := Nat.mul_le_mul_right e.shardSize hle
  rw [Erasure.shardFileSize, if_neg hne, ← Nat.succ_mul]
  exact hmul.trans (Nat.le_add_right _ _)

end Sizes

/-- A block that is read begins inside the range. -/
theorem block_lt_end {e : Erasure} (hsize : 0 < e.blockSize) {offset length block : ℕ}
    (hend : block ≤ (offset + length) / e.blockSize)
    (h : e.blockLength offset length block ≠ 0) : block * e.blockSize < offset + length := by
  have hmul : block * e.blockSize ≤ (offset + length) / e.blockSize * e.blockSize :=
    Nat.mul_le_mul_right _ hend
  have hdiv := Nat.div_mul_le_self (offset + length) e.blockSize
  by_contra hnot
  have hexact : block * e.blockSize = offset + length := by omega
  have hblock : block = (offset + length) / e.blockSize := by
    rw [← hexact, Nat.mul_div_cancel _ hsize]
  apply h
  rw [Erasure.blockLength]
  split
  · next hsame =>
    have hoffset := Nat.div_mul_le_self offset e.blockSize
    rw [hsame, ← hblock] at hoffset
    omega
  · next hne =>
    have hother : block ≠ offset / e.blockSize := fun hb => hne (hb.symm.trans hblock)
    rw [if_neg hother, ← hexact, Nat.mul_mod_left]

/-! ### Readers -/

section Readers

variable {p : ParallelReader R} {fails : ℕ → Bool}

open ParallelReader

theorem answers_mono {i j : ℕ} (h : i ≤ j) : p.answers fails i ≤ p.answers fails j :=
  ((List.range_sublist.mpr h).countP_le)

/-- Reader `i` is among the first `dataBlocks` that are there. -/
def Front (p : ParallelReader R) (i : ℕ) : Prop := (List.range i).countP p.live < p.dataBlocks

/-- Such a reader is tried. -/
theorem Front.tried {i : ℕ} (h : Front p i) (hlive : p.live i = true) : p.tried fails i = true := by
  have hle : p.answers fails i ≤ (List.range i).countP p.live := by
    apply List.countP_mono_left
    intro k _ hk
    exact (Bool.and_eq_true _ _ ▸ hk).1
  simp only [ParallelReader.tried, hlive, Bool.true_and, decide_eq_true_eq]
  exact hle.trans_lt h

theorem live_after (i : ℕ) : (p.after fails).live i = (p.live i && !(p.tried fails i && fails i)) := by
  rw [ParallelReader.live, ParallelReader.after, ParallelReader.roster, ParallelReader.live, List.getD_eq_getElem?_getD,
    List.getElem?_mapIdx, List.getD_eq_getElem?_getD]
  cases p.readers[i]? with
  | none => rfl
  | some r => cases hfail : p.tried fails i && fails i <;> simp

/-- **A reader that has answered** is one of the first in the next round. -/
theorem front_of_answered {i : ℕ} (htried : p.tried fails i = true) : Front (p.after fails) i := by
  simp only [ParallelReader.tried, Bool.and_eq_true, decide_eq_true_eq] at htried
  have hcount : (List.range i).countP (p.after fails).live = p.answers fails i := by
    apply List.countP_congr
    intro k hk
    have hlt : p.answers fails k < p.dataBlocks :=
      (answers_mono (List.mem_range.mp hk).le).trans_lt htried.2
    cases hlive : p.live k <;> simp [live_after, ParallelReader.tried, hlt, hlive]
  rw [Front, hcount]
  exact htried.2

end Readers

/-! ### One round -/

section OneRound

variable {p : ParallelReader R} {fails : ℕ → Bool}

/-- **What a round can do:** it ends the run, with its calls or at the end of the files with none, or the
run goes on, where the readers that failed are gone and the offset has moved. -/
theorem run_cases (p : ParallelReader R) (round : Round) :
    (p.nextSize = 0 ∧
      (round.run p = ([], none) ∨ round.run p = ([], some { p with shardSize := 0 }))) ∨
      (p.nextSize ≠ 0 ∧ (round.run p = (p.roundReads round.fails, none) ∨
        round.run p = (p.roundReads round.fails, some (p.after round.fails)))) := by
  rw [Round.run, ParallelReader.parallelRead]
  by_cases hzero : p.nextSize = 0
  · left
    refine ⟨hzero, ?_⟩
    rw [if_pos hzero]
    cases round.goesOn
    · exact Or.inl rfl
    · exact Or.inr rfl
  · right
    refine ⟨hzero, ?_⟩
    rw [if_neg hzero]
    cases round.goesOn
    · exact Or.inl rfl
    · by_cases hquorum : p.answers round.fails p.readers.length < p.dataBlocks
      · simp [hquorum]
      · simp [hquorum]

theorem lt_length_of_live {i : ℕ} (h : p.live i = true) : i < p.readers.length := by
  by_contra hge
  simp [ParallelReader.live, List.getElem?_eq_none (Nat.not_lt.mp hge)] at h

theorem mem_roundReads {r : ShardRead} (h : r ∈ p.roundReads fails) :
    r.off = p.offset ∧ r.len = p.nextSize := by
  obtain ⟨i, _, hi⟩ := List.mem_map.mp h
  rw [← hi]
  exact ⟨rfl, rfl⟩

/-- The calls of a round to one reader. -/
theorem roundReads_filter (i : ℕ) :
    (p.roundReads fails).filter (fun r => r.reader = i) =
      if p.tried fails i = true then [⟨i, p.offset, p.nextSize⟩] else [] := by
  have hmap : (p.roundReads fails).filter (fun r => r.reader = i) =
      (((List.range p.readers.length).filter fun k => decide (k = i)).filter (p.tried fails)).map
        fun k => ⟨k, p.offset, p.nextSize⟩ := by
    rw [ParallelReader.roundReads, List.filter_map, List.filter_comm]
    rfl
  have hrange : (List.range p.readers.length).filter (fun k => decide (k = i)) =
      List.replicate ((List.range p.readers.length).count i) i := List.filter_eq i
  rw [hmap, hrange]
  by_cases htried : p.tried fails i = true
  · have hlive : p.live i = true := (Bool.and_eq_true _ _ ▸ htried).1
    have hmem : i ∈ List.range p.readers.length := List.mem_range.mpr (lt_length_of_live hlive)
    rw [if_pos htried, List.count_eq_one_of_mem List.nodup_range hmem]
    simp [htried]
  · simp [htried]

end OneRound

/-! ### The run -/

/-- The calls to reader `i` from a state on: each starts where the one before it ended, there is none when
the reader is missing, and the first is at the present offset when the reader is among the first. -/
structure FollowsOn (p : ParallelReader R) (i : ℕ) (reads : List ShardRead) : Prop where
  chain : reads.IsChain fun a b => b.off = a.off + a.len
  missing : p.live i = false → reads = []
  start : Front p i → ∀ r ∈ reads.head?, r.off = p.offset

/-- One round before a run. -/
theorem FollowsOn.round {p : ParallelReader R} {fails : ℕ → Bool} {i : ℕ} {reads : List ShardRead}
    (h : FollowsOn (p.after fails) i reads) :
    FollowsOn p i ((p.roundReads fails).filter (fun r => r.reader = i) ++ reads) := by
  rw [roundReads_filter]
  by_cases htried : p.tried fails i = true
  · rw [if_pos htried]
    constructor
    · show List.IsChain _ (_ :: reads)
      rw [List.isChain_cons]
      refine ⟨?_, h.chain⟩
      intro r hr
      exact h.start (front_of_answered htried) r hr
    · intro hdead
      simp [ParallelReader.tried, hdead] at htried
    · intro _ r hr
      cases hr
      rfl
  · rw [if_neg htried]
    constructor
    · exact h.chain
    · intro hdead
      apply h.missing
      rw [live_after, hdead, Bool.false_and]
    · -- a reader among the first is not tried only if it is missing
      intro hfront r hr
      have hdead : p.live i = false := by
        by_contra hlive
        exact htried (hfront.tried (Bool.eq_true_of_not_eq_false hlive))
      have hnil : reads = [] := by
        apply h.missing
        rw [live_after, hdead, Bool.false_and]
      rw [hnil] at hr
      cases hr

theorem FollowsOn.nil (p : ParallelReader R) (i : ℕ) : FollowsOn p i [] :=
  ⟨List.IsChain.nil, fun _ => rfl, fun _ _ hr => nomatch hr⟩

/-- **Each reader is read on from where it is.** -/
theorem decodeLoop_followsOn (e : Erasure) (offset length : ℕ) (rounds : ℕ → Round) (i left block : ℕ)
    (p : ParallelReader R) : FollowsOn p i
      ((decodeLoop e offset length (fun block => (rounds block).run) left block p).filter
        fun r => r.reader = i) := by
  induction left generalizing block p with
  | zero => exact FollowsOn.nil p i
  | succ left ih =>
    rw [decodeLoop]
    split
    · exact FollowsOn.nil p i
    · obtain ⟨_, hrun | hrun⟩ | ⟨_, hrun | hrun⟩ := run_cases p (rounds block)
      · rw [hrun]
        exact FollowsOn.nil p i
      · rw [hrun]
        have hrest := ih (block + 1) { p with shardSize := 0 }
        exact ⟨hrest.chain, hrest.missing, hrest.start⟩
      · rw [hrun]
        have hround := (FollowsOn.nil (p.after (rounds block).fails) i).round
        rwa [List.append_nil] at hround
      · rw [hrun]
        show FollowsOn p i (List.filter _ (_ ++ _))
        rw [List.filter_append]
        exact (ih _ _).round

/-! ### The windows -/

section Windows

variable {e : Erasure} {offset length total : ℕ}

/-- The last shard of the range ends inside an `int64`. -/
def Fits (e : Erasure) (offset length : ℕ) : Prop :=
  (((offset + length) / e.blockSize + 1) * e.shardSize : ℕ) < 2 ^ 63

theorem wrap64_shard_end (hfit : Fits e offset length) {block : ℕ}
    (hend : block ≤ (offset + length) / e.blockSize) :
    wrap64 ((block * e.shardSize : ℕ) + e.shardSize) = (block * e.shardSize + e.shardSize : ℕ) := by
  have hmul : (block + 1) * e.shardSize ≤ ((offset + length) / e.blockSize + 1) * e.shardSize :=
    Nat.mul_le_mul_right _ (Nat.succ_le_succ hend)
  rw [Nat.succ_mul] at hmul
  have hlt : block * e.shardSize + e.shardSize < 2 ^ 63 := hmul.trans_lt hfit
  rw [← Nat.cast_add]
  apply wrap64_of_mem
  constructor <;> omega

theorem shardFileOffset_eq (hfit : Fits e offset length) :
    e.shardFileOffset offset length total = (min (e.shardFileSize total)
      ((offset + length) / e.blockSize * e.shardSize + e.shardSize) : ℕ) := by
  have hwrap := wrap64_shard_end hfit le_rfl
  rw [Nat.cast_mul] at hwrap
  rw [Erasure.shardFileOffset, hwrap]
  split <;> omega

/-- The reader before the round of a block: at the block's shard, if the block is in the range at all. -/
structure AtBlock (e : Erasure) (offset length total block : ℕ) (p : ParallelReader R) : Prop where
  fileSize : p.shardFileSize = e.shardFileSize total
  place : block * e.blockSize < offset + length → p.offset = block * e.shardSize ∧ p.shardSize = e.shardSize

variable (hsize : 0 < e.blockSize) (hdata : 0 < e.dataBlocks) (hrange : offset + length ≤ total)
  (hfit : Fits e offset length) {block : ℕ} {p : ParallelReader R}

include hsize hdata hrange hfit

/-- The size of a round's reads: what is left of the file, if that is less than a shard. -/
theorem AtBlock.nextSize_eq (h : AtBlock e offset length total block p)
    (hend : block ≤ (offset + length) / e.blockSize) (hin : block * e.blockSize < offset + length) :
    p.nextSize = min e.shardSize (e.shardFileSize total - block * e.shardSize) := by
  obtain ⟨hoffset, hshard⟩ := h.place hin
  have hlt := shard_lt_fileSize hsize hdata (hin.trans_le hrange)
  rw [p.nextSize_eq_ite, h.fileSize, hoffset, hshard, wrap64_shard_end hfit hend]
  split <;> omega

/-- The reads of a round lie in the window. -/
theorem AtBlock.within (h : AtBlock e offset length total block p)
    (hend : block ≤ (offset + length) / e.blockSize) (hin : block * e.blockSize < offset + length) :
    (p.offset + p.nextSize : ℤ) ≤ e.shardFileOffset offset length total := by
  have hlt := shard_lt_fileSize hsize hdata (hin.trans_le hrange)
  have hmul : block * e.shardSize ≤ (offset + length) / e.blockSize * e.shardSize :=
    Nat.mul_le_mul_right _ hend
  rw [h.nextSize_eq hsize hdata hrange hfit hend hin, (h.place hin).1, shardFileOffset_eq hfit]
  omega

theorem AtBlock.nextSize_ne_zero (h : AtBlock e offset length total block p)
    (hend : block ≤ (offset + length) / e.blockSize) (hin : block * e.blockSize < offset + length) :
    p.nextSize ≠ 0 := by
  have hlt := shard_lt_fileSize hsize hdata (hin.trans_le hrange)
  have hpos := shardSize_pos hsize hdata
  rw [h.nextSize_eq hsize hdata hrange hfit hend hin]
  omega

/-- After a round the reader is at the next block, as only the last shard of a file is short. -/
theorem AtBlock.after (h : AtBlock e offset length total block p)
    (hend : block ≤ (offset + length) / e.blockSize) (hin : block * e.blockSize < offset + length)
    (fails : ℕ → Bool) : AtBlock e offset length total (block + 1) (p.after fails) := by
  refine ⟨h.fileSize, ?_⟩
  intro hnext
  have hfull := full_shard_le hsize (hnext.le.trans hrange)
  have hshard : p.nextSize = e.shardSize := by
    rw [h.nextSize_eq hsize hdata hrange hfit hend hin]
    omega
  simp only [ParallelReader.after, hshard, (h.place hin).1, Nat.succ_mul, and_self]

/-- **Every read of the run** lies in the window and starts at a shard. -/
theorem decodeLoop_within (rounds : ℕ → Round) (left : ℕ)
    (h : AtBlock e offset length total block p)
    (hleft : block + left ≤ (offset + length) / e.blockSize + 1) :
    ∀ r ∈ decodeLoop e offset length (fun block => (rounds block).run) left block p,
      (r.off + r.len : ℤ) ≤ e.shardFileOffset offset length total ∧ e.shardSize ∣ r.off := by
  induction left generalizing block p with
  | zero =>
    intro r hr
    cases hr
  | succ left ih =>
    rw [decodeLoop]
    split
    · intro r hr
      cases hr
    · next hlength =>
      have hend : block ≤ (offset + length) / e.blockSize := by omega
      have hin := block_lt_end hsize hend hlength
      have hround : ∀ r ∈ p.roundReads (rounds block).fails,
          (r.off + r.len : ℤ) ≤ e.shardFileOffset offset length total ∧ e.shardSize ∣ r.off := by
        intro r hr
        obtain ⟨hoff, hlen⟩ := mem_roundReads hr
        rw [hoff, hlen]
        refine ⟨h.within hsize hdata hrange hfit hend hin, ?_⟩
        rw [(h.place hin).1]
        exact Nat.dvd_mul_left _ _
      obtain ⟨hzero, _⟩ | ⟨_, hrun | hrun⟩ := run_cases p (rounds block)
      · exact absurd hzero (h.nextSize_ne_zero hsize hdata hrange hfit hend hin)
      · rw [hrun]
        exact hround
      · rw [hrun]
        intro r hr
        rcases List.mem_append.mp hr with hr | hr
        · exact hround r hr
        · exact ih (h.after hsize hdata hrange hfit hend hin _) (by omega) r hr

end Windows

/-- **Every call of `Decode` lies in the window** its reader was opened for, whatever readers are there,
which are preferred, which fail, and where decoding stops; and each reader is read without a gap.  The
last shard of the range has to end inside an `int64`. -/
theorem decode_covered (e : Erasure) (hsize : 0 < e.blockSize) (hdata : 1 ≤ e.dataBlocks)
    (offset length total : ℕ) (hrange : offset + length ≤ total)
    (hfit : ((offset + length) / e.blockSize + 1) * e.shardSize < 2 ^ 63)
    (readers : List (Option R)) (prefer : List Bool) (rounds : ℕ → Round) :
    Covered e offset length total (decodeReads e readers offset length total prefer rounds) := by
  have hle : offset / e.blockSize ≤ (offset + length) / e.blockSize :=
    Nat.div_le_div_right (Nat.le_add_right _ _)
  have hcovered : ∀ p : ParallelReader R, AtBlock e offset length total (offset / e.blockSize) p →
      Covered e offset length total (decodeLoop e offset length (fun block => (rounds block).run)
        ((offset + length) / e.blockSize + 1 - offset / e.blockSize) (offset / e.blockSize) p) := by
    intro p hat
    have hwithin := decodeLoop_within hsize hdata hrange hfit rounds _ hat
      (Nat.add_sub_of_le (hle.trans (Nat.le_succ _))).le
    constructor
    · rw [shardFileOffset_eq hfit]
      exact Int.ofNat_le.mpr (Nat.min_le_left _ _)
    · exact fun r hr => (hwithin r hr).1
    · exact fun r hr => (hwithin r hr).2
    · exact fun i => (decodeLoop_followsOn e offset length rounds i _ _ p).chain
  apply hcovered
  -- choosing the order of the readers leaves the offset
  split
  · rw [ParallelReader.preferReaders]
    split <;> exact ⟨rfl, fun _ => ⟨rfl, rfl⟩⟩
  · exact ⟨rfl, fun _ => ⟨rfl, rfl⟩⟩

/-- Two blocks and a half on three data blocks, the second of four readers failing in the first round. -/
theorem decode_covered_failing :
    Covered ⟨3, 1, 10⟩ 5 20 25 (decodeReads ⟨3, 1, 10⟩ (List.replicate 4 (some ())) 5 20 25 []
      fun block => ⟨fun i => block == 0 && i == 1, true⟩) :=
  decode_covered ⟨3, 1, 10⟩ (by decide) (by decide) 5 20 25 (by decide) (by decide) _ _ _

/-- **The end of the window overflows** for an object of the largest size in two blocks: it is negative,
and the first read is outside it. -/
theorem decode_outside_window :
    ¬ Covered ⟨1, 0, 2 ^ 62 + 1⟩ 0 (2 ^ 63 - 1) (2 ^ 63 - 1)
      (decodeReads ⟨1, 0, 2 ^ 62 + 1⟩ [some ()] 0 (2 ^ 63 - 1) (2 ^ 63 - 1) [] fun _ => ⟨fun _ => false, true⟩) := by
  intro h
  have hmem : (⟨0, 0, 2 ^ 62 + 1⟩ : ShardRead) ∈ decodeReads ⟨1, 0, 2 ^ 62 + 1⟩ [some ()] 0 (2 ^ 63 - 1)
      (2 ^ 63 - 1) [] fun _ => ⟨fun _ => false, true⟩ := by decide +kernel
  have houtside : ¬ ((0 : ℕ) + (2 ^ 62 + 1 : ℕ) : ℤ) ≤
      Erasure.shardFileOffset ⟨1, 0, 2 ^ 62 + 1⟩ 0 (2 ^ 63 - 1) (2 ^ 63 - 1) := by decide +kernel
  exact houtside (h.within _ hmem)

end Zs3Server.Cmd.ErasureReader
