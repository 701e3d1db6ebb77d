import Zs3Server.Cmd.ErasureReader
import Zs3Server.Cmd.BitrotRead

/-!
# Shard files with their checksums

A shard is written chunk by chunk, each chunk after its hash.  `bitrotVerify` checks a whole stream and
`streamingBitrotReader` one chunk at each `ReadAt`.

* `writeShard`, `bitrotVerify`, `StreamReader.readAt` — the writer, the verifier and the reader;
* `accepted_iff` — one chunk of a stream that begins with a written shard;
* `verifyLoop_isSome`, `verifyLoop_iff` — the verifier returns, and accepts a stream that begins with a written
  shard, and no other;
* `readAll_frames` — the reader along the chunks of a stream, up to one that may be damaged;
* `streaming_bitrot_exact` — writer, verifier and reader together.
-/

namespace Zs3Server.Cmd.StreamingBitrot

open Lib.GoInt64
open Lib.Chunks
open Lib.BlockFile
open Cmd.ErasureReader (ceilFrac)

abbrev Bytes := List UInt8

inductive BitrotErr where
  | fileCorrupt
  | eof
  | unexpectedEOF
  | unexpected
deriving Repr, DecidableEq

/-- `io.ReadFull`: what is read, or the error; what is left is the stream behind it. -/
def readFull (r : Bytes) (n : ℕ) : Except BitrotErr Bytes :=
  if n ≤ r.length then .ok (r.take n)
  else if r = [] then .error .eof
  else .error .unexpectedEOF

section Code

variable (hash : Bytes → Bytes) (hsize : ℕ)

/-! ### The writer -/

/-- What `Write` adds to the stream. -/
def write (p : Bytes) : Bytes := if p.length = 0 then [] else hash p ++ p

/-- The stream of a shard that is written in chunks. -/
def writeShard (shardSize : ℕ) (content : Bytes) : Bytes := (cut shardSize content).flatMap (write hash)

/-! ### The verifier -/

/-- The size of the file of a shard, an `int64`. -/
def bitrotShardFileSize (size shardSize : ℕ) : ℤ := wrap64 (ceilFrac size shardSize * hsize + size)

/-- The loop of `bitrotVerify`.  `none` stands for a loop that is still running; each round takes a hash
off `left`. -/
def verifyLoop : (fuel : ℕ) → (r : Bytes) → (left shardSize : ℤ) → Option (Except BitrotErr Unit)
  | 0, _, _, _ => none
  | fuel + 1, r, left, shardSize =>
    if left ≤ 0 then some (.ok ())
    else
      match readFull r hsize with
      | .error err => some (.error err)
      | .ok hashBuf =>
        let left := left - hashBuf.length
        let shardSize := if left < shardSize then left else shardSize
        let data := (r.drop hsize).take shardSize.toNat
        if hash data ≠ hashBuf then some (.error .fileCorrupt)
        else verifyLoop fuel ((r.drop hsize).drop shardSize.toNat) (left - data.length) shardSize

def bitrotVerify (r : Bytes) (wantSize : ℤ) (partSize shardSize : ℕ) : Option (Except BitrotErr Unit) :=
  if wantSize ≠ bitrotShardFileSize hsize partSize shardSize then some (.error .fileCorrupt)
  else verifyLoop hash hsize (wantSize.toNat + 1) r wantSize shardSize

/-! ### The reader -/

/-- The reader of a stream that is on a disk or in memory.  `rc` is what is left of it once it is open; the
offsets in a stream that exists are no larger than an `int64`. -/
structure StreamReader where
  stream : Bytes
  rc : Option Bytes
  tillOffset : ℕ
  currOffset : ℕ
  shardSize : ℕ

def newStreamingBitrotReader (stream : Bytes) (tillOffset shardSize : ℕ) : StreamReader where
  stream := stream
  rc := none
  tillOffset := ceilFrac tillOffset shardSize * hsize + tillOffset
  currOffset := 0
  shardSize := shardSize

/-- The first call opens the stream at its own offset. -/
def StreamReader.opened (b : StreamReader) (offset : ℕ) : StreamReader :=
  match b.rc with
  | some _ => b
  | none =>
    let streamOffset := offset / b.shardSize * hsize + offset
    { b with
      currOffset := offset
      rc := some ((b.stream.drop streamOffset).take (b.tillOffset - streamOffset)) }

/-- `ReadAt` with a buffer of `n` bytes on an open stream, at the current offset. -/
def StreamReader.readChunk (b : StreamReader) (n : ℕ) : Except BitrotErr Bytes × StreamReader :=
  let rc := b.rc.getD []
  match readFull rc hsize with
  | .error err => (.error err, { b with rc := some [] })
  | .ok hashBytes =>
    match readFull (rc.drop hsize) n with
    | .error err => (.error err, { b with rc := some [] })
    | .ok buf =>
      let b := { b with rc := some ((rc.drop hsize).drop n) }
      if hash buf ≠ hashBytes then (.error .fileCorrupt, b)
      else (.ok buf, { b with currOffset := b.currOffset + n })

def StreamReader.readAt (b : StreamReader) (n offset : ℕ) : Except BitrotErr Bytes × StreamReader :=
  if offset % b.shardSize ≠ 0 then (.error .unexpected, b)
  else if offset ≠ (b.opened hsize offset).currOffset then (.error .unexpected, b.opened hsize offset)
  else (b.opened hsize offset).readChunk hash hsize n

/-- Calls one after the other, with buffers of the given lengths, each where the last one ended. -/
def StreamReader.readAll : StreamReader → (offset : ℕ) → List ℕ → List (Except BitrotErr Bytes)
  | _, _, [] => []
  | b, offset, n :: lens =>
    (b.readAt hash hsize n offset).1 ::
      StreamReader.readAll (b.readAt hash hsize n offset).2 (offset + n) lens

end Code

/-! ### What is written -/

variable {hash : Bytes → Bytes} {hsize shardSize : ℕ}

theorem writeShard_eq_blocks (hshard : 0 < shardSize) (content : Bytes) :
    writeShard hash shardSize content = blocks hash shardSize content := by
  rw [writeShard, blocks, List.flatMap_def]
  congr 1
  apply List.map_congr_left
  intro p hp
  have hne : p.length ≠ 0 := fun h => (mem_cut hshard content p hp).1 (List.length_eq_zero_iff.mp h)
  rw [write, if_neg hne]

/-- A stream begins with two pieces. -/
theorem append_isPrefix_iff {a b r : Bytes} :
    a ++ b <+: r ↔ r.take a.length = a ∧ b <+: r.drop a.length := by
  constructor
  · intro h
    obtain ⟨t, rfl⟩ := h
    rw [List.append_assoc, List.take_left, List.drop_left]
    exact ⟨rfl, List.prefix_append b t⟩
  · intro h
    obtain ⟨ha, t, ht⟩ := h
    refine ⟨t, ?_⟩
    rw [List.append_assoc, ht]
    nth_rewrite 1 [← ha]
    exact List.take_append_drop _ r

/-- The first chunk is full, or nothing follows it. -/
theorem chunk_append {n : ℕ} {chunk rest : Bytes} (hchunk : chunk.length = min shardSize n)
    (hrest : rest.length = n - shardSize) :
    (chunk ++ rest).take shardSize = chunk ∧ (chunk ++ rest).drop shardSize = rest := by
  rcases Nat.lt_or_ge shardSize n with hmore | hlast
  · have hfull : chunk.length = shardSize := by omega
    exact ⟨List.take_left' hfull, List.drop_left' hfull⟩
  · have hnil : rest = [] := List.length_eq_zero_iff.mp (by omega)
    rw [hnil, List.append_nil]
    exact ⟨List.take_of_length_le (by omega), List.drop_of_length_le (by omega)⟩

section Verify

variable (hhash : ∀ b, (hash b).length = hsize) (hshard : 0 < shardSize)

include hhash hshard

/-- The stream begins with a written shard of `n` bytes. -/
def Accepted (hash : Bytes → Bytes) (shardSize n : ℕ) (r : Bytes) : Prop :=
  ∃ content : Bytes, content.length = n ∧ writeShard hash shardSize content <+: r

omit hhash hshard in
theorem accepted_zero (r : Bytes) : Accepted hash shardSize 0 r := ⟨[], rfl, List.nil_prefix⟩

/-- **The first chunk** of a stream that begins with a written shard: it is there, it matches its hash,
and the rest of the stream begins with the rest of the shard. -/
theorem accepted_iff {n : ℕ} (hn : 0 < n) (r : Bytes) :
    Accepted hash shardSize n r ↔
      hsize ≤ r.length ∧ min shardSize n ≤ (r.drop hsize).length ∧
        hash ((r.drop hsize).take (min shardSize n)) = r.take hsize ∧
        Accepted hash shardSize (n - shardSize) ((r.drop hsize).drop (min shardSize n)) := by
  constructor
  · intro h
    obtain ⟨content, hlen, hstarts⟩ := h
    have hne : content ≠ [] := by
      intro hnil
      rw [hnil] at hlen
      exact hn.ne hlen
    have hchunk : (content.take shardSize).length = min shardSize n := by rw [List.length_take, hlen]
    rw [writeShard_eq_blocks hshard, blocks_of_ne_nil hshard hne, append_isPrefix_iff, hhash,
      append_isPrefix_iff, hchunk] at hstarts
    obtain ⟨htake, hdata, hrest⟩ := hstarts
    have hsum : hsize ≤ r.length := by
      have hlength := congrArg List.length htake
      rw [List.length_take, hhash] at hlength
      omega
    have hfull : min shardSize n ≤ (r.drop hsize).length := by
      have hlength := congrArg List.length hdata
      rw [List.length_take, hchunk] at hlength
      omega
    refine ⟨hsum, hfull, ?_, content.drop shardSize, ?_, ?_⟩
    · rw [hdata, htake]
    · rw [List.length_drop, hlen]
    · rw [writeShard_eq_blocks hshard]
      exact hrest
  · intro h
    obtain ⟨hsum, hfull, hmatch, rest, hlen, hrest⟩ := h
    have hdata : ((r.drop hsize).take (min shardSize n)).length = min shardSize n := by
      rw [List.length_take]
      omega
    obtain ⟨htake, hdrop⟩ := chunk_append hdata hlen
    have hne : (r.drop hsize).take (min shardSize n) ++ rest ≠ [] := by
      intro hnil
      have hlength := congrArg List.length hnil
      rw [List.length_append, hdata, List.length_nil] at hlength
      omega
    refine ⟨(r.drop hsize).take (min shardSize n) ++ rest, ?_, ?_⟩
    · rw [List.length_append, hdata, hlen]
      omega
    · rw [writeShard_eq_blocks hshard, blocks_of_ne_nil hshard hne, htake, hdrop, append_isPrefix_iff,
        hhash, append_isPrefix_iff, hdata, hmatch, ← writeShard_eq_blocks hshard]
      exact ⟨rfl, rfl, hrest⟩

end Verify

/-! ### The verifier's loop -/

/-- The size of the file, before it is an `int64`. -/
def fileSize (hsize shardSize n : ℕ) : ℕ := ceilFrac n shardSize * hsize + n

theorem ceilFrac_step (hshard : 0 < shardSize) {n : ℕ} (hn : 0 < n) :
    ceilFrac n shardSize = ceilFrac (n - shardSize) shardSize + 1 := by
  simp only [ceilFrac, hshard.ne', if_false]
  rcases Nat.lt_or_ge n shardSize with hlt | hle
  · have hzero : n - shardSize = 0 := Nat.sub_eq_zero_of_le hlt.le
    rw [hzero, Nat.mod_eq_of_lt hlt, Nat.div_eq_of_lt hlt, if_pos ⟨hn, hn.ne'⟩, if_neg (by omega),
      Nat.zero_div]
  · obtain ⟨m, rfl⟩ := Nat.exists_eq_add_of_le' hle
    rw [Nat.add_sub_cancel, Nat.add_mod_right, Nat.add_div_right _ hshard]
    cases m with
    | zero => simp
    | succ m => split <;> simp_all

theorem lt_ceilFrac (hshard : 0 < shardSize) {k till : ℕ} (h : shardSize * k < till) :
    k < ceilFrac till shardSize := by
  have hdiv := Nat.div_add_mod till shardSize
  have hle : k ≤ till / shardSize := (Nat.le_div_iff_mul_le hshard).mpr (by rw [Nat.mul_comm]; exact h.le)
  rw [ceilFrac, if_neg hshard.ne']
  split
  · exact Nat.lt_succ_of_le hle
  · -- a whole number of chunks
    have hmod : till % shardSize = 0 := by omega
    rw [hmod, Nat.add_zero] at hdiv
    rw [← hdiv] at h
    exact Nat.lt_of_mul_lt_mul_left h

theorem fileSize_step (hsize : ℕ) (hshard : 0 < shardSize) {n : ℕ} (hn : 0 < n) :
    fileSize hsize shardSize n = hsize + (min shardSize n + fileSize hsize shardSize (n - shardSize)) := by
  rw [fileSize, fileSize, ceilFrac_step hshard hn, Nat.succ_mul]
  omega

theorem fileSize_zero (hsize shardSize : ℕ) : fileSize hsize shardSize 0 = 0 := by simp [fileSize, ceilFrac]

/-- A round that finds no hash fails. -/
theorem verifyLoop_of_short (hash : Bytes → Bytes) (fuel : ℕ) {r : Bytes} {left : ℤ} (size : ℤ)
    (hleft : 0 < left) (hread : r.length < hsize) : ∃ err, verifyLoop hash hsize (fuel + 1) r left size = some (.error err) := by
  have hfail : ∃ err, readFull r hsize = .error err := by
    rw [readFull, if_neg (Nat.not_le.mpr hread)]
    split
    · exact ⟨_, rfl⟩
    · exact ⟨_, rfl⟩
  obtain ⟨err, herr⟩ := hfail
  refine ⟨err, ?_⟩
  rw [verifyLoop, if_neg (Int.not_le.mpr hleft), herr]

/-- A round that finds a hash compares it with that of the next bytes. -/
theorem verifyLoop_of_le {fuel : ℕ} {r : Bytes} {left size : ℤ} (hleft : 0 < left)
    (hread : hsize ≤ r.length) : verifyLoop hash hsize (fuel + 1) r left size =
      if hash ((r.drop hsize).take (min (left - hsize) size).toNat) ≠ r.take hsize then
        some (.error .fileCorrupt)
      else verifyLoop hash hsize fuel ((r.drop hsize).drop (min (left - hsize) size).toNat)
        (left - hsize - ((r.drop hsize).take (min (left - hsize) size).toNat).length)
        (min (left - hsize) size) := by
  have hfull : readFull r hsize = .ok (r.take hsize) := if_pos hread
  have hbuf : (r.take hsize).length = hsize := by
    rw [List.length_take]
    omega
  have hchunk : (if left - hsize < size then left - hsize else size) = min (left - hsize) size := by
    split <;> omega
  rw [verifyLoop, if_neg (Int.not_le.mpr hleft), hfull]
  simp only [hbuf, hchunk]

/-- **The loop ends**: every round takes a hash off what is left. -/
theorem verifyLoop_isSome (hash : Bytes → Bytes) (hsum : 0 < hsize) (fuel : ℕ) (r : Bytes) (left size : ℤ)
    (hfuel : left.toNat < fuel) : (verifyLoop hash hsize fuel r left size).isSome := by
  induction fuel generalizing r left size with
  | zero => exact absurd hfuel (Nat.not_lt_zero _)
  | succ fuel ih =>
    rcases le_or_gt left 0 with hdone | hleft
    · rw [verifyLoop, if_pos hdone]
      rfl
    · rcases Nat.lt_or_ge r.length hsize with hshort | hread
      · obtain ⟨err, herr⟩ := verifyLoop_of_short hash fuel size hleft hshort
        rw [herr]
        rfl
      · rw [verifyLoop_of_le hleft hread]
        split
        · rfl
        · exact ih _ _ _ (by omega)

/-- **The loop accepts** exactly the streams that begin with a written shard. -/
theorem verifyLoop_iff (hhash : ∀ b, (hash b).length = hsize) (hsum : 0 < hsize) (hshard : 0 < shardSize)
    (fuel n : ℕ) (r : Bytes) (size : ℤ) (hfuel : n < fuel) (hsize' : 0 < n → size = shardSize) :
    verifyLoop hash hsize fuel r (fileSize hsize shardSize n) size = some (.ok ()) ↔
      Accepted hash shardSize n r := by
  induction fuel generalizing n r size with
  | zero => exact absurd hfuel (Nat.not_lt_zero n)
  | succ fuel ih =>
    rcases Nat.eq_zero_or_pos n with rfl | hn
    · rw [verifyLoop, fileSize_zero]
      exact iff_of_true (if_pos le_rfl) (accepted_zero r)
    · have hstep := fileSize_step hsize hshard hn
      have hleft : (0 : ℤ) < fileSize hsize shardSize n := by omega
      rw [accepted_iff hhash hshard hn, hsize' hn]
      rcases Nat.lt_or_ge r.length hsize with hshort | hread
      · obtain ⟨err, herr⟩ := verifyLoop_of_short hash fuel shardSize hleft hshort
        rw [herr]
        exact iff_of_false (by simp) (fun h => Nat.not_le.mpr hshort h.1)
      · -- behind the hash are the chunk and the rest of the file
        have hchunk : min ((fileSize hsize shardSize n : ℤ) - hsize) shardSize = (min shardSize n : ℕ) := by
          have hlast : n ≤ shardSize → fileSize hsize shardSize (n - shardSize) = 0 := by
            intro hle
            rw [Nat.sub_eq_zero_of_le hle, fileSize_zero]
          omega
        rw [verifyLoop_of_le hleft hread, hchunk, Int.toNat_natCast]
        by_cases hmatch : hash ((r.drop hsize).take (min shardSize n)) = r.take hsize
        · rw [if_neg (not_not.mpr hmatch)]
          rcases Nat.lt_or_ge (r.drop hsize).length (min shardSize n) with hends | hfull
          · -- the stream ends inside the chunk, and the next round finds no hash
            have hend : (r.drop hsize).drop (min shardSize n) = [] := List.drop_of_length_le hends.le
            have hfuel' : ∃ m, fuel = m + 1 := ⟨fuel - 1, by omega⟩
            obtain ⟨m, rfl⟩ := hfuel'
            have hmore : (0 : ℤ) < fileSize hsize shardSize n - hsize -
                ((r.drop hsize).take (min shardSize n)).length := by
              rw [List.length_take]
              omega
            obtain ⟨err, herr⟩ := verifyLoop_of_short hash m (min shardSize n : ℕ) hmore
              (show ([] : Bytes).length < hsize from hsum)
            rw [hend, herr]
            exact iff_of_false (by simp) (fun h => Nat.not_le.mpr hends h.2.1)
          · have hdata : ((r.drop hsize).take (min shardSize n)).length = min shardSize n := by
              rw [List.length_take]
              omega
            have hrest : (fileSize hsize shardSize n : ℤ) - hsize -
                ((r.drop hsize).take (min shardSize n)).length = fileSize hsize shardSize (n - shardSize) := by
              omega
            rw [hrest, ih (n - shardSize) _ _ (by omega) (by omega)]
            constructor
            · intro h
              exact ⟨hread, hfull, hmatch, h⟩
            · intro h
              exact h.2.2.2
        · rw [if_pos hmatch]
          exact iff_of_false (by simp) (fun h => hmatch h.2.2.1)

theorem bitrotShardFileSize_eq {n : ℕ} (hfit : fileSize hsize shardSize n < 2 ^ 63) :
    bitrotShardFileSize hsize n shardSize = fileSize hsize shardSize n := by
  have hcast : (ceilFrac n shardSize * hsize + n : ℤ) = fileSize hsize shardSize n := by
    simp [fileSize]
  rw [bitrotShardFileSize, hcast]
  apply wrap64_of_mem
  constructor <;> omega

/-- The verifier returns. -/
theorem bitrotVerify_isSome (hsum : 0 < hsize) (r : Bytes) (wantSize : ℤ) (partSize shardSize : ℕ) :
    (bitrotVerify hash hsize r wantSize partSize shardSize).isSome := by
  rw [bitrotVerify]
  split
  · rfl
  · exact verifyLoop_isSome hash hsum _ r wantSize shardSize (Nat.lt_succ_self _)

/-- **The verifier**, for a size that fits: the size is that of the file of a shard, and the stream begins
with one. -/
theorem bitrotVerify_iff (hhash : ∀ b, (hash b).length = hsize) (hsum : 0 < hsize) (hshard : 0 < shardSize)
    {partSize : ℕ} (hfit : fileSize hsize shardSize partSize < 2 ^ 63) (r : Bytes) (wantSize : ℤ) :
    bitrotVerify hash hsize r wantSize partSize shardSize = some (.ok ()) ↔
      wantSize = bitrotShardFileSize hsize partSize shardSize ∧ Accepted hash shardSize partSize r := by
  rw [bitrotVerify, bitrotShardFileSize_eq hfit]
  by_cases hwant : wantSize = fileSize hsize shardSize partSize
  · rw [if_neg (not_not.mpr hwant), hwant, verifyLoop_iff hhash hsum hshard _ _ _ _ _ (fun _ => rfl)]
    · simp
    · rw [Int.toNat_natCast, fileSize]
      omega
  · rw [if_pos hwant]
    exact iff_of_false (by simp) (fun h => hwant h.1)

/-! ### The reader -/

/-- A stored chunk with the hash before it, one of them perhaps damaged. -/
structure Frame where
  sum : Bytes
  chunk : Bytes
deriving DecidableEq

def Frame.stored (f : Frame) : Bytes := f.sum ++ f.chunk

/-- What the call that covers a frame answers. -/
def Frame.answer (hash : Bytes → Bytes) (f : Frame) : Except BitrotErr Bytes :=
  if hash f.chunk = f.sum then .ok f.chunk else .error .fileCorrupt

/-- A frame that another can follow, as it was written. -/
structure Frame.Whole (hash : Bytes → Bytes) (hsize shardSize : ℕ) (f : Frame) : Prop where
  sum_length : f.sum.length = hsize
  chunk_length : f.chunk.length = shardSize
  intact : hash f.chunk = f.sum

theorem opened_shardSize (b : StreamReader) (offset : ℕ) :
    (b.opened hsize offset).shardSize = b.shardSize := by
  rw [StreamReader.opened]
  split <;> rfl

theorem readFull_append {a rest : Bytes} : readFull (a ++ rest) a.length = .ok a := by
  rw [readFull, if_pos (by simp), List.take_left]

/-- One call, on a stream that goes on with a frame. -/
theorem readAt_frame (hash : Bytes → Bytes) {b : StreamReader} {f : Frame} {rest : Bytes} {offset : ℕ}
    (hsum : f.sum.length = hsize) (haligned : offset % b.shardSize = 0)
    (hoffset : (b.opened hsize offset).currOffset = offset)
    (hrc : (b.opened hsize offset).rc = some (f.stored ++ rest)) :
    (b.readAt hash hsize f.chunk.length offset).1 = f.answer hash ∧
      (hash f.chunk = f.sum → (b.readAt hash hsize f.chunk.length offset).2 =
        { b.opened hsize offset with rc := some rest, currOffset := offset + f.chunk.length }) := by
  have hhead : readFull (f.stored ++ rest) hsize = .ok f.sum := by
    rw [Frame.stored, List.append_assoc, ← hsum]
    exact readFull_append
  have hdrop : (f.stored ++ rest).drop hsize = f.chunk ++ rest := by
    rw [Frame.stored, List.append_assoc, ← hsum, List.drop_left]
  have hread : b.readAt hash hsize f.chunk.length offset =
      (b.opened hsize offset).readChunk hash hsize f.chunk.length := by
    rw [StreamReader.readAt, if_neg (not_not.mpr haligned), if_neg (not_not.mpr hoffset.symm)]
  rw [hread, StreamReader.readChunk, hrc]
  simp only [Option.getD_some, hhead, hdrop, readFull_append, List.drop_left, Frame.answer, hoffset]
  by_cases hmatch : hash f.chunk = f.sum
  · simp [hmatch]
  · simp [hmatch]

/-- **Along the frames:** whole frames are answered with their chunks, and one behind them as it is. -/
theorem readAll_frames (before : List Frame) (f : Frame) (rest : Bytes) (b : StreamReader) (offset : ℕ)
    (hbefore : ∀ g ∈ before, g.Whole hash hsize b.shardSize) (hsum : f.sum.length = hsize)
    (haligned : offset % b.shardSize = 0) (hoffset : (b.opened hsize offset).currOffset = offset)
    (hrc : (b.opened hsize offset).rc =
      some (before.flatMap Frame.stored ++ (f.stored ++ rest))) :
    b.readAll hash hsize offset ((before ++ [f]).map fun g => g.chunk.length) =
      (before ++ [f]).map (Frame.answer hash) := by
  induction before generalizing b offset with
  | nil =>
    show [(b.readAt hash hsize f.chunk.length offset).1] = [f.answer hash]
    rw [(readAt_frame hash hsum haligned hoffset hrc).1]
  | cons g before ih =>
    have hg := hbefore g List.mem_cons_self
    rw [List.flatMap_cons, List.append_assoc] at hrc
    obtain ⟨hanswer, hnext⟩ := readAt_frame hash hg.sum_length haligned hoffset hrc
    show _ :: _ = _ :: _
    rw [hanswer, hnext hg.intact]
    -- the reader is open, and one chunk on
    congr 1
    apply ih
    · intro g' hg'
      show g'.Whole hash hsize (b.opened hsize offset).shardSize
      rw [opened_shardSize]
      exact hbefore g' (List.mem_cons_of_mem g hg')
    · show (offset + g.chunk.length) % (b.opened hsize offset).shardSize = 0
      rw [opened_shardSize, hg.chunk_length, Nat.add_mod_right]
      exact haligned
    · rfl
    · rfl

theorem length_stored (fs : List Frame) (hfs : ∀ g ∈ fs, g.Whole hash hsize shardSize) :
    (fs.flatMap Frame.stored).length = fs.length * hsize + shardSize * fs.length := by
  induction fs with
  | nil => simp
  | cons g fs ih =>
    have hg := hfs g List.mem_cons_self
    rw [List.flatMap_cons, List.length_append, ih fun g' hg' => hfs g' (List.mem_cons_of_mem g hg'),
      Frame.stored, List.length_append, hg.sum_length, hg.chunk_length, List.length_cons,
      Nat.succ_mul, Nat.mul_succ]
    omega

/-- What a new reader finds when it is opened at chunk `n`. -/
theorem opened_new (hshard : 0 < shardSize) (stream : Bytes) (till n : ℕ) :
    ((newStreamingBitrotReader hsize stream till shardSize).opened hsize (shardSize * n)).rc =
      some ((stream.drop (n * hsize + shardSize * n)).take
        (ceilFrac till shardSize * hsize + till - (n * hsize + shardSize * n))) := by
  have hdiv : shardSize * n / shardSize = n := Nat.mul_div_cancel_left n hshard
  simp only [newStreamingBitrotReader, StreamReader.opened, hdiv]

/-- A new reader that is opened behind whole frames finds the next ones, as far as its window goes. -/
theorem readAll_new (hash : Bytes → Bytes) (skipped before : List Frame) (f : Frame) (behind : Bytes)
    (till : ℕ)
    (hshard : 0 < shardSize) (hskipped : ∀ g ∈ skipped ++ before, g.Whole hash hsize shardSize)
    (hsum : f.sum.length = hsize) (hchunk : 0 < f.chunk.length)
    (htill : shardSize * (skipped ++ before).length + f.chunk.length ≤ till) :
    (newStreamingBitrotReader hsize
        ((skipped ++ before).flatMap Frame.stored ++ (f.stored ++ behind)) till shardSize).readAll hash hsize
        (shardSize * skipped.length) ((before ++ [f]).map fun g => g.chunk.length) =
      (before ++ [f]).map (Frame.answer hash) := by
  have hskip := length_stored skipped fun g hg => hskipped g (List.mem_append_left _ hg)
  have hread := length_stored before fun g hg => hskipped g (List.mem_append_right _ hg)
  -- the window has room for the hashes and the chunks up to the last call
  have hcount := lt_ceilFrac hshard
    (show shardSize * (skipped ++ before).length < till by omega)
  rw [List.length_append] at htill hcount
  have hroom : (before.flatMap Frame.stored ++ f.stored).length ≤
      ceilFrac till shardSize * hsize + till -
        (skipped.length * hsize + shardSize * skipped.length) := by
    have hmul := Nat.mul_le_mul_right hsize hcount
    rw [Nat.succ_mul, Nat.add_mul] at hmul
    rw [Nat.mul_add] at htill
    rw [List.length_append, hread, Frame.stored, List.length_append, hsum]
    omega
  apply readAll_frames before f (behind.take (ceilFrac till shardSize * hsize + till -
    (skipped.length * hsize + shardSize * skipped.length) -
      (before.flatMap Frame.stored ++ f.stored).length))
  · exact fun g hg => hskipped g (List.mem_append_right _ hg)
  · exact hsum
  · exact Nat.mul_mod_right _ _
  · rfl
  · rw [opened_new hshard, List.flatMap_append, List.append_assoc, ← hskip, List.drop_left,
      ← List.append_assoc, ← List.append_assoc, List.take_append, List.take_of_length_le (by omega)]

/-! ### Writer, verifier and reader -/

/-- The frames of a written shard. -/
def frames (hash : Bytes → Bytes) (chunks : List Bytes) : List Frame := chunks.map fun c => ⟨hash c, c⟩

theorem writeShard_eq_frames (hshard : 0 < shardSize) (content : Bytes) :
    writeShard hash shardSize content =
      (frames hash (cut shardSize content)).flatMap Frame.stored := by
  rw [writeShard_eq_blocks hshard, blocks, frames, List.flatMap_map, List.flatMap_def]
  rfl

theorem whole_frames (hhash : ∀ b, (hash b).length = hsize) {chunks : List Bytes}
    (hfull : ∀ c ∈ chunks, c.length = shardSize) :
    ∀ g ∈ frames hash chunks, g.Whole hash hsize shardSize := by
  intro g hg
  obtain ⟨c, hc, rfl⟩ := List.mem_map.mp hg
  exact ⟨hhash c, hfull c hc, rfl⟩

/-- The chunks before another one are full. -/
theorem full_of_cut (hshard : 0 < shardSize) {content chunk : Bytes} {before behind : List Bytes}
    (hcut : cut shardSize content = before ++ chunk :: behind) :
    ∀ c ∈ before, c.length = shardSize := by
  intro c hc
  obtain ⟨l₁, l₂, rfl⟩ := List.append_of_mem hc
  rw [List.append_assoc, List.cons_append] at hcut
  exact length_eq_of_not_last hshard content l₁ c _ hcut (by simp)

/-- **Reading a shard with one frame replaced**, up to that frame: the chunks before it are returned. -/
theorem readAll_replaced (hhash : ∀ b, (hash b).length = hsize) (hshard : 0 < shardSize)
    {content chunk : Bytes} {skipped before behind : List Bytes} {till : ℕ}
    (hcut : cut shardSize content = skipped ++ before ++ chunk :: behind)
    (htill : (skipped ++ before ++ [chunk]).flatten.length ≤ till) (f : Frame)
    (hsum : f.sum.length = hsize) (hchunk : f.chunk.length = chunk.length) :
    (newStreamingBitrotReader hsize
        ((frames hash (skipped ++ before) ++ f :: frames hash behind).flatMap Frame.stored) till
        shardSize).readAll hash hsize skipped.flatten.length
        ((before ++ [chunk]).map List.length) = before.map .ok ++ [f.answer hash] := by
  have hfull := full_of_cut hshard hcut
  have hne : chunk ≠ [] := (mem_cut hshard content chunk (by rw [hcut]; simp)).1
  have hflatten : ∀ cs : List Bytes, (∀ c ∈ cs, c.length = shardSize) →
      cs.flatten.length = shardSize * cs.length := by
    intro cs hcs
    rw [List.length_flatten, List.map_congr_left hcs, List.map_const', List.sum_replicate, smul_eq_mul,
      Nat.mul_comm]
  have hread := readAll_new hash (frames hash skipped) (frames hash before) f
    ((frames hash behind).flatMap Frame.stored) till hshard
    (by
      rw [frames, frames, ← List.map_append]
      exact whole_frames hhash hfull)
    hsum (by rw [hchunk]; exact List.length_pos_iff.mpr hne)
    (by
      rw [List.flatten_append, List.length_append, hflatten _ hfull] at htill
      simp only [frames, List.length_append, List.length_map, List.flatten_singleton] at htill ⊢
      omega)
  have hskip := hflatten skipped fun c hc => hfull c (List.mem_append_left _ hc)
  simp only [frames, List.length_map, List.map_append, List.map_map, List.map_cons, List.map_nil,
    List.flatMap_append, List.flatMap_cons, List.append_assoc, hchunk] at hread ⊢
  rw [hskip]
  refine hread.trans ?_
  congr 1
  apply List.map_congr_left
  intro c _
  simp [Frame.answer]

theorem length_writeShard (hhash : ∀ b, (hash b).length = hsize) (hshard : 0 < shardSize)
    (content : Bytes) :
    (writeShard hash shardSize content).length = fileSize hsize shardSize content.length := by
  rw [writeShard_eq_blocks hshard]
  induction content using cut_induction hshard with
  | h0 => simp [blocks, fileSize, ceilFrac]
  | hstep l hl ih =>
    rw [blocks_of_ne_nil hshard hl, List.length_append, List.length_append, ih, hhash, List.length_take,
      List.length_drop, fileSize_step hsize hshard (List.length_pos_iff.mpr hl)]

/-- **The format is verified exactly.** The verifier returns, and it accepts a size and a stream if and only if the size is
that of the file of the part, and that many bytes of the stream are what the writer makes of some shard of
the part's length; it does not look behind them.  Calls of the reader along the chunks return the chunks,
and the call that covers a chunk that was altered, or whose hash was, fails as corrupt, unless the altered
chunk has the hash of the chunk. -/
theorem streaming_bitrot_exact (hhash : ∀ b, (hash b).length = hsize) (hsum : 0 < hsize)
    (hshard : 0 < shardSize) :
    (∀ (partSize : ℕ) (wantSize : ℤ) (stream : Bytes),
      ceilFrac partSize shardSize * hsize + partSize < 2 ^ 63 →
      (bitrotVerify hash hsize stream wantSize partSize shardSize).isSome ∧
        (bitrotVerify hash hsize stream wantSize partSize shardSize = some (.ok ()) ↔
          wantSize = bitrotShardFileSize hsize partSize shardSize ∧
            ∃ content : Bytes, content.length = partSize ∧
              stream.take wantSize.toNat = writeShard hash shardSize content)) ∧
      ∀ (content chunk : Bytes) (skipped before behind : List Bytes) (till : ℕ),
        cut shardSize content = skipped ++ before ++ chunk :: behind →
        (skipped ++ before ++ [chunk]).flatten.length ≤ till →
        (newStreamingBitrotReader hsize (writeShard hash shardSize content) till shardSize).readAll hash hsize
            skipped.flatten.length ((before ++ [chunk]).map List.length) = (before ++ [chunk]).map .ok ∧
          ∀ f : Frame, f.sum.length = hsize → f.chunk.length = chunk.length →
            (f.chunk = chunk ∧ f.sum ≠ hash chunk ∨
              f.chunk ≠ chunk ∧ f.sum = hash chunk ∧ (hash f.chunk = hash chunk → f.chunk = chunk)) →
            (newStreamingBitrotReader hsize
                ((frames hash (skipped ++ before) ++ f :: frames hash behind).flatMap Frame.stored) till
                shardSize).readAll hash hsize skipped.flatten.length
                ((before ++ [chunk]).map List.length) = before.map .ok ++ [.error .fileCorrupt] := by
  constructor
  · intro partSize wantSize stream hfit
    refine ⟨bitrotVerify_isSome hsum stream wantSize partSize shardSize, ?_⟩
    rw [bitrotVerify_iff hhash hsum hshard hfit]
    have hwant : bitrotShardFileSize hsize partSize shardSize = fileSize hsize shardSize partSize :=
      bitrotShardFileSize_eq hfit
    constructor
    · intro h
      obtain ⟨hsize', content, hlen, hstarts⟩ := h
      refine ⟨hsize', content, hlen, ?_⟩
      rw [hsize', hwant, Int.toNat_natCast, ← hlen, ← length_writeShard hhash hshard]
      exact (List.prefix_iff_eq_take.mp hstarts).symm
    · intro h
      obtain ⟨hsize', content, hlen, hstream⟩ := h
      refine ⟨hsize', content, hlen, ?_⟩
      rw [← hstream]
      exact List.take_prefix _ stream
  · intro content chunk skipped before behind till hcut htill
    constructor
    · have hread := readAll_replaced hhash hshard hcut htill ⟨hash chunk, chunk⟩ (hhash chunk) rfl
      rw [writeShard_eq_frames hshard, hcut, frames, List.map_append, List.map_cons]
      refine hread.trans ?_
      rw [List.map_append, Frame.answer, if_pos rfl]
      rfl
    · intro f hlen hchunk haltered
      rw [readAll_replaced hhash hshard hcut htill f hlen hchunk]
      have hmismatch : hash f.chunk ≠ f.sum := by
        rcases haltered with ⟨hsame, hother⟩ | ⟨hother, hsame, hfree⟩
        · rw [hsame]
          exact hother.symm
        · rw [hsame]
          exact fun h => hother (hfree h)
      rw [Frame.answer, if_neg hmismatch]

/-- The format with a checksum of 32 bytes. -/
theorem streaming_bitrot_shortSum :
    bitrotVerify BitrotRead.shortSum 32 (writeShard BitrotRead.shortSum 2 [7, 8, 9]) 67 3 2 = some (.ok ()) ∧
      67 = bitrotShardFileSize 32 3 2 := by
  have hhash : ∀ b, (BitrotRead.shortSum b).length = 32 := by
    intro b
    simp [BitrotRead.shortSum]
  have hexact := (streaming_bitrot_exact hhash (by decide) (show 0 < 2 by decide)).1 3 67
    (writeShard BitrotRead.shortSum 2 [7, 8, 9]) (by decide)
  have hsize : (67 : ℤ) = bitrotShardFileSize 32 3 2 := by decide
  refine ⟨hexact.2.mpr ⟨hsize, [7, 8, 9], rfl, ?_⟩, hsize⟩
  decide

/-- **Bytes behind the shard are not looked at:** a stream of one byte too many is accepted with the size
of the file, and is not what the writer makes of any shard of the part's length.  And with a size that leaves
`int64` nothing is looked at: the empty stream is accepted for a part of the largest size. -/
theorem bitrotVerify_overlong :
    (bitrotVerify BitrotRead.shortSum 32 (writeShard BitrotRead.shortSum 2 [7] ++ [0])
          (bitrotShardFileSize 32 1 2) 1 2 = some (.ok ()) ∧
        ¬ ∃ content : Bytes, content.length = 1 ∧
          writeShard BitrotRead.shortSum 2 [7] ++ [0] = writeShard BitrotRead.shortSum 2 content) ∧
      bitrotVerify BitrotRead.shortSum 32 [] (bitrotShardFileSize 32 (2 ^ 63 - 1) (2 ^ 63 - 1)) (2 ^ 63 - 1)
          (2 ^ 63 - 1) = some (.ok ()) ∧
        ¬ ∃ content : Bytes, content.length = 2 ^ 63 - 1 ∧
          [] = writeShard BitrotRead.shortSum (2 ^ 63 - 1) content := by
  have hhash : ∀ b, (BitrotRead.shortSum b).length = 32 := by
    intro b
    simp [BitrotRead.shortSum]
  refine ⟨⟨by decide, ?_⟩, by decide, ?_⟩
  · intro h
    obtain ⟨content, hlen, hstream⟩ := h
    have hlength := congrArg List.length hstream
    rw [List.length_append, length_writeShard hhash (by decide), length_writeShard hhash (by decide), hlen]
      at hlength
    revert hlength
    decide
  · intro h
    obtain ⟨content, hlen, hstream⟩ := h
    have hlength := congrArg List.length hstream
    rw [length_writeShard hhash (by decide), hlen] at hlength
    revert hlength
    decide

end Zs3Server.Cmd.StreamingBitrot
