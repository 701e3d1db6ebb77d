import Zs3Server.Cmd.CacheRead

/-!
# Reading a damaged cache file

`bitrotReadFromCache` reads a range of a cache file of any content, block by block into a pooled buffer,
and checks each block against the checksum before it.  The end of the file is not an error for it: the
loop ends, and what it delivers of the last block is cut out of the buffer by the length that was asked
for.

* `bitrotLoop`, `bitrotReadFromCache` — the loop with its buffer, its reader and its writer;
* `Stored`, `Served` — a byte of a block that matches its checksum; a range of such bytes;
* `bitrotLoop_eq_steps` — a round is the two steps that `CacheRead` has for it;
* `bitrotLoop_intact`, `bitrotLoop_silent` — one block that is delivered, one that ends the loop;
* `bitrotRead_of_fits`, `bitrotRead_of_wraps`, `bitrotRead_of_limit` — the `int64` arithmetic;
* `bitrotRead_serves_iff` — exactly when a read without an error has served the range;
* `bitrotRead_serves_stale` — a file shorter than the range is filled up with the old buffer.
-/

namespace Zs3Server.Cmd.BitrotRead

open Lib.GoInt64
open Cmd.DiskCache
open Cmd.CacheRead

/-! ### The function -/

/-- A buffer of the pool. -/
abbrev Buffer := { b : Content // b.length = cacheBlkSize }

/-- What the writer does with the bytes of a block: it takes them, it has been closed with `short + 1` of
them still to be written, or it fails in another way. -/
inductive WriteOutcome where
  | ok
  | closed (short : ℕ)
  | failed
deriving Repr, DecidableEq

inductive BitrotErr where
  | unexpected
  | invalidArgument
  | eof
  | hashMismatch
  | write
deriving Repr, DecidableEq

/-- The error that is returned, nil as `none`, and what has been written. -/
structure BitrotResult where
  err : Option BitrotErr
  out : Content

section Function

variable (hash : Content → Content) (writer : ℕ → WriteOutcome)

/-- The loop over the blocks: `rem` blocks are left, the next one is `block`; `rc` is what the reader has
left and `buf` what the buffer holds. -/
def bitrotLoop (j : ReadJob) : (rem block : ℕ) → (rc buf out : Content) → BitrotResult
  | 0, _, _, _, out => ⟨none, out⟩
  | rem + 1, block, rc, buf, out =>
    if j.blockLength block = 0 then ⟨none, out⟩
    else if (rc.take hashSize).length < hashSize then ⟨some .eof, out⟩
    else
      let data := (rc.drop hashSize).take cacheBlkSize
      let buf' := data ++ buf.drop data.length
      -- the end of the file ends the loop, not the call
      if data.length = 0 ∧ j.len ≠ 0 then ⟨none, out⟩
      else if hash data ≠ rc.take hashSize then ⟨some .hashMismatch, out⟩
      else
        let piece := (buf'.drop (j.blockOffset block)).take (j.blockLength block)
        match writer block with
        | .failed => ⟨some .write, out⟩
        | .closed short => ⟨none, out ++ piece.take (piece.length - (short + 1))⟩
        | .ok =>
          if data.length < cacheBlkSize then ⟨none, out ++ piece⟩
          else bitrotLoop j rem (block + 1) ((rc.drop hashSize).drop cacheBlkSize) buf' (out ++ piece)

/-- `bitrotReadFromCache`.  The reader starts at the first block and is limited to the blocks of the range;
`readCacheFileStream` refuses a negative offset, and a negative limit leaves nothing to read. -/
def bitrotReadFromCache (file : Content) (pool : Buffer) (offset : ℤ) (length : ℕ) : BitrotResult :=
  let startBlock := offset.tdiv cacheBlkSize
  let endBlock := (wrap64 (offset + length)).tdiv cacheBlkSize
  let blockStartOffset := if 0 < startBlock then wrap64 ((cacheBlkSize + hashSize) * startBlock) else 0
  let tillLength := wrap64 ((cacheBlkSize + hashSize) * (endBlock - startBlock + 1))
  if offset < 0 then ⟨some .unexpected, []⟩
  else if blockStartOffset < 0 then ⟨some .invalidArgument, []⟩
  else
    bitrotLoop hash writer ⟨none, offset.toNat, length⟩ (endBlock + 1 - startBlock).toNat
      startBlock.toNat ((file.drop blockStartOffset.toNat).take tillLength.toNat) pool.val []

end Function

/-! ### Blocks of the file -/

/-- The checksum in front of block `n`, as far as the file has it. -/
def checksumAt (file : Content) (n : ℕ) : Content :=
  (file.drop ((hashSize + cacheBlkSize) * n)).take hashSize

/-- The data of block `n`, as far as the file has it. -/
def blockAt (file : Content) (n : ℕ) : Content :=
  (file.drop ((hashSize + cacheBlkSize) * n + hashSize)).take cacheBlkSize

/-- The byte `b` stands at position `p` of the object, in a block that matches its checksum. -/
def Stored (hash : Content → Content) (file : Content) (p : ℕ) (b : UInt8) : Prop :=
  hash (blockAt file (p / cacheBlkSize)) = checksumAt file (p / cacheBlkSize) ∧
    (blockAt file (p / cacheBlkSize))[p % cacheBlkSize]? = some b

/-- The bytes are those of a range of the object, all of them. -/
def Served (hash : Content → Content) (file : Content) (off len : ℕ) (out : Content) : Prop :=
  out.length = len ∧ ∀ k b, out[k]? = some b → Stored hash file (off + k) b

section Blocks

variable (hash : Content → Content) (writer : ℕ → WriteOutcome) (file : Content) (j : ReadJob)

/-- The block is delivered: it matches its checksum and has all the bytes that are asked for. -/
def Intact (n : ℕ) : Prop :=
  hashSize ≤ (checksumAt file n).length ∧ hash (blockAt file n) = checksumAt file n ∧
    j.blockOffset n + j.blockLength n ≤ (blockAt file n).length ∧ writer n = .ok

/-- The block ends the loop without an error although bytes are missing: the file ends right behind its
checksum, or the data that is there matches the checksum and is too short, or the client is gone. -/
def Silent (n : ℕ) : Prop :=
  hashSize ≤ (checksumAt file n).length ∧
    (blockAt file n = [] ∨
      hash (blockAt file n) = checksumAt file n ∧
        ((∃ short, writer n = .closed short) ∨
          writer n = .ok ∧ (blockAt file n).length < j.blockOffset n + j.blockLength n))

/-- No block that the loop comes to from block `n` on is silent. -/
def NoSilentFrom (n : ℕ) : Prop :=
  ∀ m, n ≤ m → m ≤ j.endBlock → j.blockLength m ≠ 0 →
    (∀ i, n ≤ i → i < m → Intact hash writer file j i) → ¬ Silent hash writer file j m

/-- No block of the range that the loop comes to is silent. -/
def NoSilentBlock : Prop := NoSilentFrom hash writer file j j.startBlock

end Blocks

/-- What the reader has left at the head of the loop. -/
def streamAt (file : Content) (j : ReadJob) (n : ℕ) : Content :=
  (file.drop ((hashSize + cacheBlkSize) * n)).take ((hashSize + cacheBlkSize) * (j.endBlock + 1 - n))

/-- The limit of the reader is not met: it covers every block of the range. -/
theorem streamAt_limit {j : ReadJob} {n : ℕ} (hn : n ≤ j.endBlock) :
    hashSize + cacheBlkSize ≤ (hashSize + cacheBlkSize) * (j.endBlock + 1 - n) :=
  Nat.le_mul_of_pos_right _ (by omega)

theorem take_streamAt {file : Content} {j : ReadJob} {n : ℕ} (hn : n ≤ j.endBlock) :
    (streamAt file j n).take hashSize = checksumAt file n := by
  have hlimit := streamAt_limit hn
  unfold streamAt checksumAt
  rw [List.take_take, Nat.min_eq_left (by omega)]

theorem block_streamAt {file : Content} {j : ReadJob} {n : ℕ} (hn : n ≤ j.endBlock) :
    ((streamAt file j n).drop hashSize).take cacheBlkSize = blockAt file n := by
  have hlimit := streamAt_limit hn
  unfold streamAt blockAt
  rw [List.drop_take, List.take_take, List.drop_drop, Nat.min_eq_left (by omega)]

theorem drop_streamAt {file : Content} {j : ReadJob} {n : ℕ} (hn : n ≤ j.endBlock) :
    ((streamAt file j n).drop hashSize).drop cacheBlkSize = streamAt file j (n + 1) := by
  have hleft : j.endBlock + 1 - n = j.endBlock + 1 - (n + 1) + 1 := by omega
  unfold streamAt
  rw [List.drop_drop, List.drop_take, List.drop_drop, hleft, Nat.mul_succ, Nat.mul_succ,
    Nat.add_sub_cancel]

/-! ### One block -/

section Loop

variable {hash : Content → Content} {writer : ℕ → WriteOutcome} {file : Content} {j : ReadJob}

theorem len_ne_zero {n : ℕ} (hstart : j.startBlock ≤ n) (hend : n ≤ j.endBlock)
    (hlen : j.blockLength n ≠ 0) : j.len ≠ 0 := by
  have hblock := (blockRange j hstart hend).2
  have hbounds := block_bounds hstart hend
  omega

/-- **One round** of the loop is the two steps that a `Get` call takes at a block. -/
theorem bitrotLoop_eq_steps (rem inode : ℕ) (buf out : Content) {n : ℕ} (hend : n ≤ j.endBlock) :
    bitrotLoop hash (fun _ => .ok) j (rem + 1) n (streamAt file j n) buf out =
      match nextBlock file j inode n out with
      | .data _ _ _ _ checksum =>
        match readBlock hash file j inode n out checksum buf false with
        | .block _ _ _ out' => bitrotLoop hash (fun _ => .ok) j rem (n + 1) (streamAt file j (n + 1))
            (blockAt file n ++ buf.drop (blockAt file n).length) out'
        | .done _ out' => ⟨none, out'⟩
        | _ => ⟨some .hashMismatch, out⟩
      | .done _ out' => ⟨none, out'⟩
      | _ => ⟨some .eof, out⟩ := by
  have hsum : (file.drop ((hashSize + cacheBlkSize) * n)).take hashSize = checksumAt file n := rfl
  have hdata : (file.drop ((hashSize + cacheBlkSize) * n + hashSize)).take cacheBlkSize =
      blockAt file n := rfl
  rw [bitrotLoop, take_streamAt hend, block_streamAt hend, drop_streamAt hend, nextBlock,
    if_neg (Nat.not_lt.mpr hend), hsum]
  by_cases hlen : j.blockLength n = 0
  · simp only [hlen, if_true]
  · by_cases hshort : (checksumAt file n).length < hashSize
    · simp only [hlen, hshort, if_false, if_true]
    · simp only [hlen, hshort, if_false, readBlock, hdata, Bool.false_eq_true]
      split
      · rfl
      · split
        · rfl
        · split
          · rfl
          · rfl

/-- A block that is delivered is the data of the file, and the end of the file ends the loop. -/
theorem bitrotLoop_intact {rem n : ℕ} {buf out : Content} (hend : n ≤ j.endBlock)
    (hlen : j.blockLength n ≠ 0) (hintact : Intact hash writer file j n) :
    bitrotLoop hash writer j (rem + 1) n (streamAt file j n) buf out =
      let piece := ((blockAt file n).drop (j.blockOffset n)).take (j.blockLength n)
      if (blockAt file n).length < cacheBlkSize then ⟨none, out ++ piece⟩
      else bitrotLoop hash writer j rem (n + 1) (streamAt file j (n + 1))
        (blockAt file n ++ buf.drop (blockAt file n).length) (out ++ piece) := by
  obtain ⟨hsum, hmatch, hfits, hok⟩ := hintact
  have hdata : (blockAt file n).length ≠ 0 := by omega
  -- the bytes asked for lie in the part of the buffer that was read
  have hpiece : ((blockAt file n ++ buf.drop (blockAt file n).length).drop (j.blockOffset n)).take
      (j.blockLength n) = ((blockAt file n).drop (j.blockOffset n)).take (j.blockLength n) := by
    rw [List.drop_append_of_le_length (by omega), List.take_append_of_le_length]
    rw [List.length_drop]
    omega
  simp only [bitrotLoop, take_streamAt hend, block_streamAt hend, drop_streamAt hend, hlen, if_false,
    Nat.not_lt.mpr hsum, hdata, false_and, hmatch, ne_eq, not_true_eq_false, hok, hpiece]

/-- A block that is neither delivered nor silent ends the loop with an error. -/
theorem bitrotLoop_error (rem : ℕ) (buf out : Content) {n : ℕ} (hend : n ≤ j.endBlock)
    (hlen : j.blockLength n ≠ 0) (hintact : ¬ Intact hash writer file j n)
    (hsilent : ¬ Silent hash writer file j n) :
    (bitrotLoop hash writer j (rem + 1) n (streamAt file j n) buf out).err ≠ none := by
  simp only [bitrotLoop, take_streamAt hend, block_streamAt hend, hlen, if_false]
  by_cases hsum : (checksumAt file n).length < hashSize
  · simp [hsum]
  · have hsum' : hashSize ≤ (checksumAt file n).length := Nat.not_lt.mp hsum
    have hdata : blockAt file n ≠ [] := fun h => hsilent ⟨hsum', Or.inl h⟩
    have hdata' : (blockAt file n).length ≠ 0 := fun h => hdata (List.length_eq_zero_iff.mp h)
    by_cases hmatch : hash (blockAt file n) = checksumAt file n
    · simp only [hsum, if_false, hdata', false_and, hmatch, ne_eq, not_true_eq_false]
      cases hw : writer n with
      | failed => simp
      | closed short => exact absurd ⟨hsum', Or.inr ⟨hmatch, Or.inl ⟨short, hw⟩⟩⟩ hsilent
      | ok =>
        by_cases hfits : j.blockOffset n + j.blockLength n ≤ (blockAt file n).length
        · exact absurd ⟨hsum', hmatch, hfits, hw⟩ hintact
        · exact absurd ⟨hsum', Or.inr ⟨hmatch, Or.inr ⟨hw, Nat.not_le.mp hfits⟩⟩⟩ hsilent
    · simp [hsum, hdata', hmatch]

/-- What has been delivered before block `n`. -/
def Delivered (hash : Content → Content) (file : Content) (j : ReadJob) (n : ℕ) (out : Content) : Prop :=
  out.length = min j.len (cacheBlkSize * n - j.off) ∧
    ∀ k b, out[k]? = some b → Stored hash file (j.off + k) b

theorem delivered_nil : Delivered hash file j j.startBlock [] := by
  have hle : cacheBlkSize * j.startBlock ≤ j.off := Nat.mul_div_le j.off cacheBlkSize
  constructor
  · rw [List.length_nil]
    omega
  · intro k b hb
    simp at hb

theorem Delivered.served {n : ℕ} {out : Content} (h : Delivered hash file j n out)
    (hn : j.len ≤ cacheBlkSize * n - j.off) : Served hash file j.off j.len out :=
  ⟨by rw [h.1, Nat.min_eq_left hn], h.2⟩

/-- The piece of a block that is delivered follows what was delivered before. -/
theorem Delivered.append {n : ℕ} {out : Content} (h : Delivered hash file j n out)
    (hstart : j.startBlock ≤ n) (hend : n ≤ j.endBlock) (hintact : Intact hash writer file j n) :
    Delivered hash file j (n + 1)
      (out ++ ((blockAt file n).drop (j.blockOffset n)).take (j.blockLength n)) := by
  obtain ⟨_, hmatch, hfits, _⟩ := hintact
  obtain ⟨hlen, hstored⟩ := h
  obtain ⟨hoffset, hlength⟩ := blockRange j hstart hend
  have hbounds := block_bounds hstart hend
  have hsucc : cacheBlkSize * (n + 1) = cacheBlkSize * n + cacheBlkSize := Nat.mul_succ _ _
  have hpiece : (((blockAt file n).drop (j.blockOffset n)).take (j.blockLength n)).length =
      j.blockLength n := by
    rw [List.length_take, List.length_drop]
    omega
  constructor
  · rw [List.length_append, hpiece]
    omega
  · intro k b hb
    rcases Nat.lt_or_ge k out.length with hk | hk
    · rw [List.getElem?_append_left hk] at hb
      exact hstored k b hb
    · rw [List.getElem?_append_right hk] at hb
      have hkp : k - out.length < j.blockLength n := by
        have hbound := (List.getElem?_eq_some_iff.mp hb).1
        rw [hpiece] at hbound
        exact hbound
      rw [List.getElem?_take_of_lt hkp, List.getElem?_drop] at hb
      -- the byte is at its position in block `n`
      have hpos : j.off + k = cacheBlkSize * n + (j.blockOffset n + (k - out.length)) := by omega
      have hlt : j.blockOffset n + (k - out.length) < cacheBlkSize := by omega
      have hdiv : (j.off + k) / cacheBlkSize = n := by
        rw [hpos, Nat.mul_add_div (by decide), Nat.div_eq_of_lt hlt, Nat.add_zero]
      have hmod : (j.off + k) % cacheBlkSize = j.blockOffset n + (k - out.length) := by
        rw [hpos, Nat.mul_add_mod, Nat.mod_eq_of_lt hlt]
      unfold Stored
      rw [hdiv, hmod]
      exact ⟨hmatch, hb⟩

/-- A silent block ends the loop without an error and without the range. -/
theorem bitrotLoop_silent (rem : ℕ) (buf : Content) {n : ℕ} {out : Content} (hstart : j.startBlock ≤ n)
    (hend : n ≤ j.endBlock) (hlen : j.blockLength n ≠ 0) (hout : Delivered hash file j n out)
    (hsilent : Silent hash writer file j n) :
    (bitrotLoop hash writer j (rem + 1) n (streamAt file j n) buf out).err = none ∧
      ¬ Served hash file j.off j.len
        (bitrotLoop hash writer j (rem + 1) n (streamAt file j n) buf out).out := by
  obtain ⟨hsum, hcase⟩ := hsilent
  obtain ⟨hoffset, hlength⟩ := blockRange j hstart hend
  have hbounds := block_bounds hstart hend
  have hnz := len_ne_zero hstart hend hlen
  -- a block that is too short has no byte at the last position that is asked for
  have hshort : (blockAt file n).length < j.blockOffset n + j.blockLength n →
      ∀ o, ¬ Served hash file j.off j.len o := by
    rintro hlt o ⟨holen, hostored⟩
    have hlast : cacheBlkSize * n + (j.blockOffset n + j.blockLength n - 1) - j.off < o.length := by
      omega
    obtain ⟨_, hbyte⟩ := hostored _ _ (List.getElem?_eq_getElem hlast)
    have hpos : j.off + (cacheBlkSize * n + (j.blockOffset n + j.blockLength n - 1) - j.off) =
        cacheBlkSize * n + (j.blockOffset n + j.blockLength n - 1) := by omega
    have hin : j.blockOffset n + j.blockLength n - 1 < cacheBlkSize := by omega
    rw [hpos, Nat.mul_add_div (by decide), Nat.div_eq_of_lt hin, Nat.add_zero, Nat.mul_add_mod,
      Nat.mod_eq_of_lt hin] at hbyte
    have hbound := (List.getElem?_eq_some_iff.mp hbyte).1
    omega
  simp only [bitrotLoop, take_streamAt hend, block_streamAt hend, hlen, if_false,
    Nat.not_lt.mpr hsum]
  by_cases hdata : (blockAt file n).length = 0
  · simp only [hdata, hnz, ne_eq, not_false_eq_true, and_self, if_true]
    exact ⟨trivial, hshort (by omega) out⟩
  · obtain ⟨hmatch, hw⟩ := hcase.resolve_left fun h => hdata (by rw [h]; rfl)
    simp only [hdata, false_and, if_false, hmatch, ne_eq, not_true_eq_false]
    rcases hw with ⟨short, hw⟩ | ⟨hw, hlt⟩
    · simp only [hw]
      refine ⟨trivial, ?_⟩
      rintro ⟨holen, _⟩
      have houtlen := hout.1
      simp only [List.length_append, List.length_take, List.length_drop] at holen
      omega
    · simp only [hw]
      by_cases hfull : (blockAt file n).length < cacheBlkSize
      · rw [if_pos hfull]
        exact ⟨rfl, hshort hlt _⟩
      · omega

/-! ### The whole loop -/

theorem noSilentFrom_succ {n : ℕ} (hintact : Intact hash writer file j n)
    (hsilent : ¬ Silent hash writer file j n) :
    NoSilentFrom hash writer file j n ↔ NoSilentFrom hash writer file j (n + 1) := by
  constructor
  · intro h m hm hend hlen hbefore
    refine h m (by omega) hend hlen ?_
    intro i hi him
    rcases Nat.eq_or_lt_of_le hi with rfl | hlt
    · exact hintact
    · exact hbefore i hlt him
  · intro h m hm hend hlen hbefore
    rcases Nat.eq_or_lt_of_le hm with rfl | hlt
    · exact hsilent
    · exact h m hlt hend hlen fun i hi him => hbefore i (by omega) him

/-- From the head of the loop on: no error means the range, exactly when no block is silent. -/
theorem bitrotLoop_serves_iff {rem n : ℕ} {buf out : Content} (hrem : rem = j.endBlock + 1 - n)
    (hstart : j.startBlock ≤ n) (hn : n ≤ j.endBlock + 1) (hout : Delivered hash file j n out) :
    ((bitrotLoop hash writer j rem n (streamAt file j n) buf out).err = none →
        Served hash file j.off j.len
          (bitrotLoop hash writer j rem n (streamAt file j n) buf out).out) ↔
      NoSilentFrom hash writer file j n := by
  induction rem generalizing n buf out with
  | zero =>
    -- behind the last block
    have hall : j.len ≤ cacheBlkSize * n - j.off := covered_of_lt (by omega)
    constructor
    · intro _ m hm hend
      omega
    · intro _ _
      exact hout.served hall
  | succ rem ih =>
    have hend : n ≤ j.endBlock := by omega
    obtain ⟨hoffset, hlength⟩ := blockRange j hstart hend
    have hbounds := block_bounds hstart hend
    by_cases hlen : j.blockLength n = 0
    · -- the range ends before this block
      have hpos : 0 < cacheBlkSize := by decide
      have hall : j.len ≤ cacheBlkSize * n - j.off := by omega
      have hlast : n = j.endBlock := by
        by_contra hne
        have hnext := block_bounds (j := j) (n := n + 1) (by omega) (by omega)
        rw [Nat.mul_succ] at hnext
        omega
      constructor
      · intro _ m hm hmend hmlen
        have hmn : m = n := by omega
        rw [hmn] at hmlen
        exact absurd hlen hmlen
      · intro _ _
        simp only [bitrotLoop, hlen, if_true]
        exact hout.served hall
    · by_cases hsilent : Silent hash writer file j n
      · obtain ⟨herr, hnot⟩ :=
          bitrotLoop_silent rem buf hstart hend hlen hout hsilent
        constructor
        · intro h
          exact absurd (h herr) hnot
        · intro h
          exact absurd hsilent (h n (Nat.le_refl n) hend hlen fun i hi him => by omega)
      · by_cases hintact : Intact hash writer file j n
        · rw [noSilentFrom_succ hintact hsilent, bitrotLoop_intact hend hlen hintact]
          have hnext := hout.append hstart hend hintact
          by_cases heof : (blockAt file n).length < cacheBlkSize
          · -- the file ends in this block, and so does the range
            have hlast : n = j.endBlock := by
              by_contra hne
              have hfits := hintact.2.2.1
              have hnextb := block_bounds (j := j) (n := n + 1) (by omega) (by omega)
              rw [Nat.mul_succ] at hnextb
              omega
            have hall : j.len ≤ cacheBlkSize * (n + 1) - j.off := by
              have hfits := hintact.2.2.1
              rw [Nat.mul_succ]
              omega
            simp only [heof, if_true]
            constructor
            · intro _ m hm hmend
              omega
            · intro _ _
              exact hnext.served hall
          · simp only [heof, if_false]
            exact ih (by omega) (by omega) (by omega) hnext
        · have herr := bitrotLoop_error rem buf out hend hlen hintact hsilent
          constructor
          · intro _ m hm _ _ hbefore
            rcases Nat.eq_or_lt_of_le hm with rfl | hlt
            · exact hsilent
            · exact absurd (hbefore n (Nat.le_refl n) hlt) hintact
          · intro _ h
            exact absurd h herr

end Loop

/-! ### The arithmetic -/

section Arithmetic

variable {hash : Content → Content} {writer : ℕ → WriteOutcome} {file : Content} {pool : Buffer}
  {off len : ℕ}

/-- The offset of the first block is an `int64`. -/
def StartFits (j : ReadJob) : Prop := (cacheBlkSize + hashSize) * j.startBlock < 2 ^ 63

/-- The limit on the reader is an `int64`. -/
def LimitFits (j : ReadJob) : Prop :=
  (cacheBlkSize + hashSize) * (j.endBlock + 1 - j.startBlock) < 2 ^ 63

theorem tdiv_blkSize (n : ℕ) : (n : ℤ).tdiv cacheBlkSize = (n / cacheBlkSize : ℕ) := by
  rw [Int.tdiv_eq_ediv_of_nonneg (Int.natCast_nonneg n), Int.natCast_ediv]

/-- The bytes of blocks with their checksums: exact, or negative after the product wrapped. -/
theorem wrap64_blocks {n : ℕ} (hn : n ≤ 2 ^ 43) :
    ((cacheBlkSize + hashSize) * n < 2 ^ 63 →
      wrap64 ((cacheBlkSize + hashSize) * (n : ℤ)) = ((cacheBlkSize + hashSize) * n : ℕ)) ∧
    (¬ (cacheBlkSize + hashSize) * n < 2 ^ 63 → wrap64 ((cacheBlkSize + hashSize) * (n : ℤ)) < 0) := by
  unfold cacheBlkSize hashSize
  constructor
  · intro hfits
    rw [wrap64_of_mem ⟨by push_cast; omega, by push_cast; omega⟩]
    push_cast
    rfl
  · intro hwraps
    rw [wrap64_of_ge (by push_cast; omega) (by push_cast; omega)]
    push_cast
    omega

theorem startBlock_lt (hoff : off < 2 ^ 63) : off / cacheBlkSize < 2 ^ 43 := by
  rw [Nat.div_lt_iff_lt_mul (by decide)]
  exact hoff

/-- The function on a range whose first block can be found. -/
theorem bitrotRead_of_start (hoff : off < 2 ^ 63) (hstart : StartFits ⟨none, off, len⟩) :
    bitrotReadFromCache hash writer file pool off len =
      let endBlock := (wrap64 ((off : ℤ) + len)).tdiv cacheBlkSize
      bitrotLoop hash writer ⟨none, off, len⟩ (endBlock + 1 - (off / cacheBlkSize : ℕ)).toNat
        (off / cacheBlkSize) ((file.drop ((cacheBlkSize + hashSize) * (off / cacheBlkSize))).take
          (wrap64 ((cacheBlkSize + hashSize) * (endBlock - (off / cacheBlkSize : ℕ) + 1))).toNat)
        pool.val [] := by
  have hexact := (wrap64_blocks (startBlock_lt hoff).le).1 hstart
  unfold bitrotReadFromCache
  simp only [tdiv_blkSize]
  generalize off / cacheBlkSize = s at *
  have hoffset : (if (0 : ℤ) < (s : ℤ) then wrap64 ((cacheBlkSize + hashSize) * (s : ℤ)) else 0) =
      ((cacheBlkSize + hashSize) * s : ℕ) := by
    split
    · exact hexact
    · next hzero =>
      rw [show s = 0 by omega]
      rfl
  simp only [hoffset, Int.toNat_natCast]
  rw [if_neg (by omega), if_neg (by omega)]

/-- The first block lies behind what an `int64` can address. -/
theorem bitrotRead_of_not_start (hoff : off < 2 ^ 63) (hstart : ¬ StartFits ⟨none, off, len⟩) :
    (bitrotReadFromCache hash writer file pool off len).err ≠ none := by
  have hneg := (wrap64_blocks (startBlock_lt hoff).le).2 hstart
  have hpos : 0 < off / cacheBlkSize := by
    rcases Nat.eq_zero_or_pos (off / cacheBlkSize) with hzero | hpos
    · refine absurd ?_ hstart
      rw [StartFits, ReadJob.startBlock, hzero]
      decide
    · exact hpos
  have hcast : (0 : ℤ) < (off / cacheBlkSize : ℕ) := Int.natCast_pos.mpr hpos
  unfold bitrotReadFromCache
  simp only [tdiv_blkSize, hcast, if_true, hneg]
  rw [if_neg (by omega)]
  simp

/-- **The arithmetic is exact**: the loop reads the blocks of the range. -/
theorem bitrotRead_of_fits (hsum : off + len < 2 ^ 63) (hstart : StartFits ⟨none, off, len⟩)
    (hlimit : LimitFits ⟨none, off, len⟩) :
    bitrotReadFromCache hash writer file pool off len =
      bitrotLoop hash writer ⟨none, off, len⟩
        (ReadJob.endBlock ⟨none, off, len⟩ + 1 - ReadJob.startBlock ⟨none, off, len⟩)
        (ReadJob.startBlock ⟨none, off, len⟩)
        (streamAt file ⟨none, off, len⟩ (ReadJob.startBlock ⟨none, off, len⟩)) pool.val [] := by
  rw [bitrotRead_of_start (by omega) hstart]
  have hwrap : wrap64 ((off : ℤ) + len) = (off + len : ℕ) := by
    rw [wrap64_of_mem ⟨by omega, by omega⟩]
    push_cast
    rfl
  have hle : off / cacheBlkSize ≤ (off + len) / cacheBlkSize := Nat.div_le_div_right (by omega)
  have hend := startBlock_lt hsum
  unfold LimitFits at hlimit
  unfold streamAt
  simp only [ReadJob.startBlock, ReadJob.endBlock, hwrap, tdiv_blkSize] at hlimit ⊢
  generalize off / cacheBlkSize = s at *
  generalize (off + len) / cacheBlkSize = e at *
  have hrem : ((e : ℤ) + 1 - s).toNat = e + 1 - s := by omega
  have hcount : (e : ℤ) - s + 1 = (e + 1 - s : ℕ) := by omega
  rw [hrem, hcount, (wrap64_blocks (by omega)).1 hlimit, Int.toNat_natCast, Nat.add_comm hashSize]

/-- The limit on the reader has wrapped: it gives no checksum. -/
theorem bitrotRead_of_limit (hsum : off + len < 2 ^ 63) (hstart : StartFits ⟨none, off, len⟩)
    (hlimit : ¬ LimitFits ⟨none, off, len⟩) :
    (bitrotReadFromCache hash writer file pool off len).err ≠ none := by
  rw [bitrotRead_of_start (by omega) hstart]
  have hwrap : wrap64 ((off : ℤ) + len) = (off + len : ℕ) := by
    rw [wrap64_of_mem ⟨by omega, by omega⟩]
    push_cast
    rfl
  have hle : off / cacheBlkSize ≤ (off + len) / cacheBlkSize := Nat.div_le_div_right (by omega)
  have hend := startBlock_lt hsum
  unfold LimitFits at hlimit
  simp only [ReadJob.startBlock, ReadJob.endBlock] at hlimit
  -- there is more than one block, so that the first one has a share
  have hmany : off / cacheBlkSize ≠ (off + len) / cacheBlkSize := by
    intro hone
    rw [hone, Nat.add_sub_cancel_left] at hlimit
    exact hlimit (by decide)
  have hshare : ReadJob.blockLength ⟨none, off, len⟩ (off / cacheBlkSize) ≠ 0 := by
    have hmod := Nat.mod_lt off (show 0 < cacheBlkSize by decide)
    simp only [ReadJob.blockLength, ReadJob.startBlock, ReadJob.endBlock, hmany, if_false, if_true]
    omega
  simp only [hwrap, tdiv_blkSize]
  generalize off / cacheBlkSize = s at *
  generalize (off + len) / cacheBlkSize = e at *
  have hcount : (e : ℤ) - s + 1 = (e + 1 - s : ℕ) := by omega
  obtain ⟨rem, hrem⟩ : ∃ rem, ((e : ℤ) + 1 - s).toNat = rem + 1 := ⟨e - s, by omega⟩
  have hnone : (wrap64 ((cacheBlkSize + hashSize) * ((e + 1 - s : ℕ) : ℤ))).toNat = 0 :=
    Int.toNat_eq_zero.mpr ((wrap64_blocks (by omega)).2 hlimit).le
  rw [hrem, hcount, hnone, List.take_zero]
  simp [bitrotLoop, hshare, hashSize]

/-- **The end of the range has wrapped**: no block is read, and no error is returned. -/
theorem bitrotRead_of_wraps (hoff : off < 2 ^ 63) (hlen : len < 2 ^ 63) (hwraps : 2 ^ 63 ≤ off + len)
    (hstart : StartFits ⟨none, off, len⟩) :
    bitrotReadFromCache hash writer file pool off len = ⟨none, []⟩ := by
  rw [bitrotRead_of_start hoff hstart]
  have hsum : wrap64 ((off : ℤ) + len) = off + len - 2 ^ 64 := wrap64_of_ge (by omega) (by omega)
  have hblk : (cacheBlkSize : ℤ) = 1048576 := rfl
  have hend : (wrap64 ((off : ℤ) + len)).tdiv cacheBlkSize < (off / cacheBlkSize : ℕ) := by
    rw [hsum]
    rcases Nat.eq_zero_or_pos (off / cacheBlkSize) with hzero | hpos
    · have hsmall : off < cacheBlkSize := (Nat.div_eq_zero_iff_lt (by decide)).mp hzero
      rw [hzero]
      exact tdiv_neg_of_le_neg (by omega) (by omega)
    · have hneg : 0 ≤ (-((off : ℤ) + len - 2 ^ 64)).tdiv cacheBlkSize :=
        Int.tdiv_nonneg (by omega) (by omega)
      rw [Int.neg_tdiv] at hneg
      omega
  have hrem : ((wrap64 ((off : ℤ) + len)).tdiv cacheBlkSize + 1 - (off / cacheBlkSize : ℕ)).toNat = 0 := by
    omega
  simp only [hrem, bitrotLoop]

end Arithmetic

/-- **A read without an error**, of an `int64` offset and length.  It has served the range exactly in these
cases: the offset is negative, or the first block lies behind what an `int64` can address; or else the end
of the range is an `int64`, and the limit on the reader is none or no block that the loop comes to is
silent.  Then as many bytes were written as were asked for, each of them from its position in a block that
matches its checksum, or an error was returned. -/
theorem bitrotRead_serves_iff (hash : Content → Content) (writer : ℕ → WriteOutcome) (file : Content)
    (pool : Buffer) (offset : ℤ) (length : ℕ) (hoffset : IsInt64 offset) (hlength : IsInt64 length) :
    ((bitrotReadFromCache hash writer file pool offset length).err = none →
        Served hash file offset.toNat length
          (bitrotReadFromCache hash writer file pool offset length).out) ↔
      (0 ≤ offset → StartFits ⟨none, offset.toNat, length⟩ →
        IsInt64 (offset + length) ∧ (LimitFits ⟨none, offset.toNat, length⟩ →
          NoSilentBlock hash writer file ⟨none, offset.toNat, length⟩)) := by
  by_cases hneg : offset < 0
  · have herr : (bitrotReadFromCache hash writer file pool offset length).err ≠ none := by
      simp [bitrotReadFromCache, hneg]
    exact ⟨fun _ hpos => absurd hneg (Int.not_lt.mpr hpos), fun _ h => absurd h herr⟩
  · obtain ⟨off, rfl⟩ := Int.eq_ofNat_of_zero_le (Int.not_lt.mp hneg)
    have hoff : off < 2 ^ 63 := by exact_mod_cast hoffset.2
    have hlen : length < 2 ^ 63 := by exact_mod_cast hlength.2
    simp only [Int.toNat_natCast, Int.natCast_nonneg, true_implies]
    by_cases hstart : StartFits ⟨none, off, length⟩
    · simp only [hstart, true_implies]
      by_cases hsum : off + length < 2 ^ 63
      · have hfits : IsInt64 ((off : ℤ) + length) := ⟨by omega, by omega⟩
        simp only [hfits, true_and]
        by_cases hlimit : LimitFits ⟨none, off, length⟩
        · have hle : (ReadJob.mk none off length).startBlock ≤ (ReadJob.mk none off length).endBlock :=
            Nat.div_le_div_right (Nat.le_add_right _ _)
          simp only [hlimit, true_implies, bitrotRead_of_fits hsum hstart hlimit]
          exact bitrotLoop_serves_iff rfl (Nat.le_refl _) (by omega) delivered_nil
        · exact ⟨fun _ h => absurd h hlimit, fun _ h => absurd h (bitrotRead_of_limit hsum hstart hlimit)⟩
      · -- nothing is written although something is asked for
        have hnot : ¬ IsInt64 ((off : ℤ) + length) := fun h => hsum (by have := h.2; omega)
        simp only [hnot, false_and, iff_false, bitrotRead_of_wraps hoff hlen (by omega) hstart]
        intro h
        have hserved := (h trivial).1
        rw [List.length_nil] at hserved
        omega
    · exact ⟨fun _ h => absurd h hstart, fun _ h => absurd h (bitrotRead_of_not_start hoff hstart)⟩

/-! ### A file that is too short -/

/-- A checksum of 32 bytes that tells all blocks of fewer than 32 bytes apart, for the run below. -/
def shortSum (b : Content) : Content := (b.length.toUInt8 :: b ++ List.replicate 32 0).take 32

/-- Without a short file the range is served, whatever the buffer held. -/
theorem bitrotRead_serves_one :
    ∃ pool : Buffer,
      (bitrotReadFromCache shortSum (fun _ => .ok) (shortSum [7] ++ [7]) pool 0 1).err = none ∧
        Served shortSum (shortSum [7] ++ [7]) 0 1
          (bitrotReadFromCache shortSum (fun _ => .ok) (shortSum [7] ++ [7]) pool 0 1).out := by
  have hblock : blockAt (shortSum [7] ++ [7]) 0 = [7] := by decide
  refine ⟨⟨List.replicate cacheBlkSize 9, List.length_replicate⟩, rfl, ?_⟩
  refine (bitrotRead_serves_iff shortSum (fun _ => .ok) (shortSum [7] ++ [7])
    ⟨List.replicate cacheBlkSize 9, List.length_replicate⟩ 0 1 (by decide) (by decide)).mpr ?_ rfl
  intro _ _
  refine ⟨by decide, fun _ m _ hend _ _ => ?_⟩
  obtain rfl : m = 0 := Nat.le_zero.mp hend
  rintro ⟨-, hnil | ⟨-, ⟨short, hclosed⟩ | ⟨-, hlt⟩⟩⟩
  · rw [hblock] at hnil
    cases hnil
  · cases hclosed
  · rw [hblock] at hlt
    exact absurd hlt (by decide)

/-- **Bytes of another object.** The file holds one block of one byte with its checksum, as for an object
of one byte; two bytes are asked for.  The second one comes from the old content of the buffer. -/
theorem bitrotRead_serves_stale :
    ∃ pool : Buffer,
      (bitrotReadFromCache shortSum (fun _ => .ok) (shortSum [7] ++ [7]) pool 0 2).err = none ∧
        (bitrotReadFromCache shortSum (fun _ => .ok) (shortSum [7] ++ [7]) pool 0 2).out = [7, 9] ∧
        ¬ Served shortSum (shortSum [7] ++ [7]) 0 2 [7, 9] := by
  have hblock : blockAt (shortSum [7] ++ [7]) 0 = [7] := by decide
  refine ⟨⟨List.replicate cacheBlkSize 9, List.length_replicate⟩, ?_, ?_, ?_⟩
  · rfl
  · rfl
  · rintro ⟨_, hstored⟩
    have hbyte := (hstored 1 9 rfl).2
    rw [show (0 + 1) / cacheBlkSize = 0 by decide, hblock] at hbyte
    cases hbyte

end Zs3Server.Cmd.BitrotRead
