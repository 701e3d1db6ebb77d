import Zs3Server.Lib.GoInt64
import Zs3Server.Lib.ByteString

/-!
# Range reads through the block download

`getFileReader` turns a byte range into a range of 1-based blocks of the allocation, downloads
those blocks, seeks to the start of the range and limits the reader to its length.  The block
download itself is a function of the SDK: it is a parameter here, and `DownloadsBlocks` is what the
gateway relies on — the blocks `start..stop` are written in order, `stop = 0` meaning through the
last one, block `b` being the bytes `[(b - 1) E, b E)` of the object.

* `blockRange` — the start block, end block and length the source computes, in `int64` arithmetic;
* `getFileReader_closed` — what the reader of a closed range yields: the bytes of the range that lie
  in the downloaded blocks;
* `ClosedRangeCovered` — the downloaded blocks reach the last byte of the range: the range starts at
  0, or its last position is not a multiple of the chunk size (and the rounding does not overflow);
* `getFileReader_range_iff` — the reader yields exactly the range precisely then.
-/

namespace Zs3Server.Gateway.RangeRead

open Lib.GoInt64 Lib.ByteString

/-! ### The model -/

/-- `defaultChunkSize`. -/
def defaultChunkSize : ℤ := 64 * 1024

/-- What the gateway knows of the allocation's block layout: the number of data shards and the two
size constants of the SDK's encryption.  A chunk is a positive amount that fits an `int64` with room
to spare. -/
structure ShardLayout where
  dataShards : ℤ
  encryptionHeaderSize : ℤ
  encryptedDataPaddingSize : ℤ
  one_le_dataShards : 1 ≤ dataShards
  overhead_nonneg : 0 ≤ encryptionHeaderSize + encryptedDataPaddingSize
  overhead_lt : encryptionHeaderSize + encryptedDataPaddingSize < defaultChunkSize
  chunk_fits : defaultChunkSize * dataShards ≤ 2 ^ 62

/-- `effectiveChunkSize`: the bytes of an object in one block row of the allocation. -/
def effectiveChunkSize (L : ShardLayout) (isEncrypted : Bool) : ℤ :=
  let effectiveBlockSize :=
    if isEncrypted then
      wrap64 (defaultChunkSize - (L.encryptionHeaderSize + L.encryptedDataPaddingSize))
    else defaultChunkSize
  wrap64 (effectiveBlockSize * L.dataShards)

/-- The blocks to download and the length to limit the reader to. -/
structure BlockRange where
  startBlock : ℤ
  endBlock : ℤ
  fileRangeSize : ℤ
  deriving DecidableEq

/-- The first block of a range starting at `rangeStart`. -/
def firstBlock (chunk rangeStart : ℤ) : ℤ :=
  let startBlock := rangeStart.tdiv chunk
  if startBlock = 0 then 1 else startBlock

/-- The block arithmetic of `getFileReader`, for an object of `size` bytes. -/
def blockRange (chunk size rangeStart rangeEnd : ℤ) : BlockRange :=
  let rangeLen := wrap64 (rangeEnd - rangeStart + 1)
  let fileRangeSize := if rangeEnd < rangeStart then size else rangeLen
  let r : BlockRange :=
    if rangeEnd ≥ rangeStart then
      { startBlock := firstBlock chunk rangeStart
        endBlock :=
          if rangeEnd < fileRangeSize then (wrap64 (fileRangeSize + chunk - 1)).tdiv chunk
          else (wrap64 (rangeEnd + chunk - 1)).tdiv chunk
        fileRangeSize := fileRangeSize }
    else { startBlock := 1, endBlock := 0, fileRangeSize := fileRangeSize }
  if rangeEnd = -1 then
    { startBlock := firstBlock chunk rangeStart
      endBlock := 0
      fileRangeSize := wrap64 (size - rangeStart) }
  else r

/-- The outcome of a block download: what was written to the file handle, and the error reported. -/
structure Download where
  written : List UInt8
  err : Option GoString
  deriving DecidableEq

/-- A reader: the bytes it yields, and then the error it ends with (`none` for `io.EOF`). -/
structure Reader where
  bytes : List UInt8
  err : Option GoString
  deriving DecidableEq

/-- What `getObjectRef` tells about an object. -/
structure ObjectRef where
  size : ℤ
  isEncrypted : Bool

/-- `getFileReader`, for a `download` of the object's blocks.  A download of the whole object from
block 1 goes through a pipe, whose reader is handed out unseeked; any other is written to a file,
sought and limited. -/
def getFileReader (L : ShardLayout) (ref : Except GoString ObjectRef)
    (download : ℤ → ℤ → Download) (rangeStart rangeEnd : ℤ) : Except GoString Reader :=
  match ref with
  | .error e => .error e
  | .ok ref =>
    let chunk := effectiveChunkSize L ref.isEncrypted
    let r := blockRange chunk ref.size rangeStart rangeEnd
    let d := download r.startBlock r.endBlock
    if r.startBlock = 1 ∧ r.endBlock = 0 then .ok ⟨d.written, d.err⟩
    else match d.err with
    | some e => .error e
    | none =>
      let startOffset := wrap64 (rangeStart - (r.startBlock - 1) * chunk)
      let startOffset := if startOffset < 0 then 0 else startOffset
      .ok ⟨(d.written.drop startOffset.toNat).take r.fileRangeSize.toNat, none⟩

/-! ### The block download of the SDK -/

/-- The bytes of the 1-based blocks `start..stop` of `content`; `stop = 0` means through the last. -/
def blockBytes (chunk : ℤ) (content : List UInt8) (start stop : ℤ) : List UInt8 :=
  (if stop = 0 then content else content.take (stop * chunk).toNat).drop ((start - 1) * chunk).toNat

/-- What the gateway relies on: the download of an object's blocks writes their bytes. -/
def DownloadsBlocks (chunk : ℤ) (sdk : List UInt8 → ℤ → ℤ → Download) : Prop :=
  ∀ content start stop, 1 ≤ start →
    sdk content start stop = ⟨blockBytes chunk content start stop, none⟩

/-- The bytes `[a, b]` of an object. -/
def closedSlice (content : List UInt8) (a b : ℤ) : List UInt8 :=
  (content.drop a.toNat).take (b - a + 1).toNat

/-! ### Chunk sizes and block numbers -/

theorem effectiveChunkSize_eq (L : ShardLayout) (isEncrypted : Bool) :
    effectiveChunkSize L isEncrypted =
      (if isEncrypted then
        defaultChunkSize - (L.encryptionHeaderSize + L.encryptedDataPaddingSize)
        else defaultChunkSize) * L.dataShards := by
  have h1 := L.one_le_dataShards
  have h2 := L.overhead_nonneg
  have h3 := L.overhead_lt
  have h4 := L.chunk_fits
  unfold effectiveChunkSize
  unfold defaultChunkSize at *
  cases isEncrypted with
  | false =>
    simp only [Bool.false_eq_true, if_false]
    exact wrap64_of_mem ⟨by omega, by omega⟩
  | true =>
    simp only [if_true]
    rw [wrap64_of_mem (x := 64 * 1024 - _) ⟨by omega, by omega⟩]
    refine wrap64_of_mem ⟨by nlinarith, ?_⟩
    have : (64 * 1024 - (L.encryptionHeaderSize + L.encryptedDataPaddingSize)) * L.dataShards ≤
        64 * 1024 * L.dataShards := by nlinarith
    omega

theorem effectiveChunkSize_bounds (L : ShardLayout) (isEncrypted : Bool) :
    0 < effectiveChunkSize L isEncrypted ∧ effectiveChunkSize L isEncrypted ≤ 2 ^ 62 := by
  have h1 := L.one_le_dataShards
  have h2 := L.overhead_nonneg
  have h3 := L.overhead_lt
  have h4 := L.chunk_fits
  rw [effectiveChunkSize_eq]
  split
  · exact ⟨by nlinarith, by nlinarith⟩
  · refine ⟨?_, h4⟩
    unfold defaultChunkSize
    omega

theorem firstBlock_eq {chunk a : ℤ} (ha : 0 ≤ a) :
    firstBlock chunk a = if a / chunk = 0 then 1 else a / chunk := by
  unfold firstBlock
  rw [Int.tdiv_eq_ediv_of_nonneg ha]

/-- The first block starts at or before the range and is a real block number. -/
theorem firstBlock_bounds {chunk a : ℤ} (hc : 0 < chunk) (ha : 0 ≤ a) :
    1 ≤ firstBlock chunk a ∧ (firstBlock chunk a - 1) * chunk ≤ a := by
  have hq : 0 ≤ a / chunk := Int.ediv_nonneg ha hc.le
  have hm : a / chunk * chunk ≤ a := Int.ediv_mul_le a hc.ne'
  rw [firstBlock_eq ha]
  split
  · exact ⟨le_rfl, by simpa using ha⟩
  · refine ⟨by omega, ?_⟩
    nlinarith

/-- The rounded-up quotient by which the source finds an end block. -/
def blockCeil (chunk x : ℤ) : ℤ := (wrap64 (x + chunk - 1)).tdiv chunk

/-- Without overflow the blocks up to `blockCeil` end in `[x, x + chunk)`. -/
theorem blockCeil_bounds {chunk x : ℤ} (hc : 0 < chunk) (hx : 0 ≤ x) (h : x + chunk ≤ 2 ^ 63) :
    x ≤ blockCeil chunk x * chunk ∧ blockCeil chunk x * chunk < x + chunk := by
  unfold blockCeil
  rw [wrap64_of_mem ⟨by omega, by omega⟩, Int.tdiv_eq_ediv_of_nonneg (by omega)]
  have h1 : (x + chunk - 1) / chunk * chunk ≤ x + chunk - 1 := Int.ediv_mul_le _ hc.ne'
  have h2 : x + chunk - 1 < (x + chunk - 1) / chunk * chunk + chunk :=
    Int.lt_ediv_add_one_mul_self (x + chunk - 1) hc |>.trans_eq (by ring)
  exact ⟨by omega, by omega⟩

/-- On a multiple of the chunk size the blocks end exactly there. -/
theorem blockCeil_of_dvd {chunk x : ℤ} (hc : 0 < chunk) (hx : 0 ≤ x) (h : x + chunk ≤ 2 ^ 63)
    (hd : chunk ∣ x) : blockCeil chunk x * chunk = x := by
  obtain ⟨h1, h2⟩ := blockCeil_bounds hc hx h
  obtain ⟨q, rfl⟩ := hd
  have h3 : q ≤ blockCeil chunk (chunk * q) := by nlinarith
  have h4 : blockCeil chunk (chunk * q) < q + 1 := by nlinarith
  obtain h5 : blockCeil chunk (chunk * q) = q := by omega
  rw [h5, mul_comm]

/-- An overflow makes the end block negative. -/
theorem blockCeil_of_overflow {chunk x : ℤ} (hc : 0 < chunk) (hc' : chunk ≤ 2 ^ 62)
    (hx : x ≤ 2 ^ 63) (h : 2 ^ 63 < x + chunk) : blockCeil chunk x < 0 :=
  tdiv_wrapped_neg hc hc' (by omega) (by omega)

/-- The end block of a closed range. -/
def closedEndBlock (chunk a b : ℤ) : ℤ :=
  if a = 0 ∧ b + 1 < 2 ^ 63 then blockCeil chunk (b + 1) else blockCeil chunk b

theorem blockRange_closed {chunk size a b : ℤ} (ha : 0 ≤ a) (hab : a ≤ b) (hb : b < 2 ^ 63) :
    blockRange chunk size a b =
      ⟨firstBlock chunk a, closedEndBlock chunk a b, wrap64 (b - a + 1)⟩ := by
  have hend : (if b < wrap64 (b - a + 1) then (wrap64 (wrap64 (b - a + 1) + chunk - 1)).tdiv chunk
      else (wrap64 (b + chunk - 1)).tdiv chunk) = closedEndBlock chunk a b := by
    unfold closedEndBlock blockCeil
    by_cases h0 : a = 0 ∧ b + 1 < 2 ^ 63
    · have hw : wrap64 (b - a + 1) = b + 1 := by
        rw [wrap64_of_mem ⟨by omega, by omega⟩]
        omega
      rw [if_pos h0, hw, if_pos (by omega)]
    · have hw : ¬ b < wrap64 (b - a + 1) := by
        rcases not_and_or.mp h0 with h1 | h1
        · rw [wrap64_of_mem ⟨by omega, by omega⟩]
          omega
        · by_cases h2 : b - a + 1 < 2 ^ 63
          · rw [wrap64_of_mem ⟨by omega, h2⟩]
            omega
          · rw [wrap64_of_ge (by omega) (by omega)]
            omega
      rw [if_neg h0, if_neg hw]
  unfold blockRange
  simp only [if_neg (show ¬ b < a by omega), if_pos (show b ≥ a from hab),
    if_neg (show ¬ b = -1 by omega), hend]

/-- The end block of a closed range is never the 0 that asks for the whole rest. -/
theorem closedEndBlock_ne_zero {chunk a b : ℤ} (hc : 0 < chunk) (hc' : chunk ≤ 2 ^ 62) (ha : 0 ≤ a)
    (hab : a ≤ b) (hb : b < 2 ^ 63) : closedEndBlock chunk a b ≠ 0 := by
  have key : ∀ x, 0 < x → x ≤ 2 ^ 63 → blockCeil chunk x ≠ 0 := by
    intro x hx hx' h0
    by_cases ho : x + chunk ≤ 2 ^ 63
    · have h1 := (blockCeil_bounds hc hx.le ho).1
      rw [h0] at h1
      omega
    · have h1 := blockCeil_of_overflow hc hc' hx' (by omega)
      omega
  unfold closedEndBlock
  split
  · exact key (b + 1) (by omega) (by omega)
  · exact key b (by omega) (by omega)

/-- When rounding up overflows, no block is downloaded. -/
theorem closedEnd_of_overflow {chunk a b : ℤ} (hc : 0 < chunk) (hc' : chunk ≤ 2 ^ 62)
    (hb : b < 2 ^ 63)
    (h : (a = 0 ∧ b + 1 < 2 ^ 63 ∧ 2 ^ 63 ≤ b + chunk) ∨ (a ≠ 0 ∧ 2 ^ 63 < b + chunk)) :
    closedEndBlock chunk a b * chunk ≤ 0 := by
  have hneg : closedEndBlock chunk a b < 0 := by
    unfold closedEndBlock
    rcases h with ⟨h0, hlast, ho⟩ | ⟨h0, ho⟩
    · rw [if_pos ⟨h0, hlast⟩]
      exact blockCeil_of_overflow hc hc' (by omega) (by omega)
    · rw [if_neg (fun h => h0 h.1)]
      exact blockCeil_of_overflow hc hc' (by omega) ho
  exact Int.mul_nonpos_of_nonpos_of_nonneg hneg.le hc.le

/-- Otherwise the blocks of a range that does not start at 0 end at its last position or later. -/
theorem le_closedEnd {chunk a b : ℤ} (hc : 0 < chunk) (h0 : a ≠ 0) (hb : 0 ≤ b)
    (ho : b + chunk ≤ 2 ^ 63) : b ≤ closedEndBlock chunk a b * chunk := by
  unfold closedEndBlock
  rw [if_neg (fun h => h0 h.1)]
  exact (blockCeil_bounds hc hb ho).1

/-! ### What the reader of a closed range yields -/

section
variable {L : ShardLayout} {isEncrypted : Bool} {sdk : List UInt8 → ℤ → ℤ → Download}

/-- **The reader of a closed range** yields the bytes from `a` on that lie in the downloaded blocks,
up to the length of the range. -/
theorem getFileReader_closed (hsdk : DownloadsBlocks (effectiveChunkSize L isEncrypted) sdk)
    (content : List UInt8) (size : ℤ) {a b : ℤ} (ha : 0 ≤ a) (hab : a ≤ b) (hb : b < 2 ^ 63) :
    getFileReader L (.ok ⟨size, isEncrypted⟩) (sdk content) a b =
      .ok ⟨((content.take (closedEndBlock (effectiveChunkSize L isEncrypted) a b *
          effectiveChunkSize L isEncrypted).toNat).drop a.toNat).take (wrap64 (b - a + 1)).toNat,
        none⟩ := by
  obtain ⟨hc, hc'⟩ := effectiveChunkSize_bounds L isEncrypted
  set chunk := effectiveChunkSize L isEncrypted with hchunk
  obtain ⟨hf1, hf2⟩ := firstBlock_bounds hc ha
  have hend := closedEndBlock_ne_zero hc hc' ha hab hb
  have hoff : wrap64 (a - (firstBlock chunk a - 1) * chunk) =
      a - (firstBlock chunk a - 1) * chunk := by
    refine wrap64_of_mem ⟨by omega, ?_⟩
    have : 0 ≤ (firstBlock chunk a - 1) * chunk := by nlinarith
    omega
  have hpos : 0 ≤ (firstBlock chunk a - 1) * chunk := by nlinarith
  have hrange : blockRange chunk size a b =
      ⟨firstBlock chunk a, closedEndBlock chunk a b, wrap64 (b - a + 1)⟩ :=
    blockRange_closed ha hab hb
  unfold getFileReader
  simp only [← hchunk, hrange, hsdk content _ _ hf1, hoff]
  rw [if_neg (by tauto), if_neg (by omega)]
  unfold blockBytes
  rw [if_neg hend, List.drop_drop]
  congr 4
  omega

/-- **When a closed range is covered**: the range starts at 0, or its last position is not a
multiple of the chunk size; and rounding its end up to a block does not overflow. -/
def ClosedRangeCovered (chunk a b : ℤ) : Prop :=
  (a = 0 ∧ b + chunk < 2 ^ 63) ∨ (a ≠ 0 ∧ ¬ chunk ∣ b ∧ b + chunk ≤ 2 ^ 63)

/-- A covered range ends inside the downloaded blocks. -/
theorem ClosedRangeCovered.lt_end {chunk a b : ℤ} (h : ClosedRangeCovered chunk a b) (hc : 0 < chunk)
    (ha : 0 ≤ a) (hab : a ≤ b) : b + 1 ≤ closedEndBlock chunk a b * chunk := by
  rcases h with ⟨h0, ho⟩ | ⟨h0, hd, ho⟩
  · unfold closedEndBlock
    rw [if_pos ⟨h0, by omega⟩]
    exact (blockCeil_bounds hc (by omega) (by omega)).1
  · rcases lt_or_eq_of_le (le_closedEnd hc h0 (show 0 ≤ b by omega) ho) with h2 | h2
    · exact h2
    · exact absurd ⟨closedEndBlock chunk a b, by rw [mul_comm]; exact h2⟩ hd

/-- The blocks of a range that is not covered end at or before its last position. -/
theorem end_le_of_not_covered {chunk a b : ℤ} (h : ¬ ClosedRangeCovered chunk a b) (hc : 0 < chunk)
    (hc' : chunk ≤ 2 ^ 62) (ha : 0 ≤ a) (hab : a ≤ b) (hb : b + 1 < 2 ^ 63) :
    closedEndBlock chunk a b * chunk ≤ b := by
  unfold ClosedRangeCovered at h
  have hend : closedEndBlock chunk a b * chunk ≤ 0 → closedEndBlock chunk a b * chunk ≤ b :=
    fun hle => hle.trans (ha.trans hab)
  by_cases h0 : a = 0
  · exact hend (closedEnd_of_overflow hc hc' (by omega) (.inl ⟨h0, hb, by omega⟩))
  · by_cases ho : b + chunk ≤ 2 ^ 63
    · unfold closedEndBlock
      rw [if_neg (by tauto)]
      exact (blockCeil_of_dvd hc (by omega) ho (by tauto)).le
    · exact hend (closedEnd_of_overflow hc hc' (by omega) (.inr ⟨h0, by omega⟩))

/-- A prefix that contains the window does not change it. -/
theorem window_take (content : List UInt8) {hi a n : ℕ} (h : a + n ≤ hi) :
    ((content.take hi).drop a).take n = (content.drop a).take n := by
  rw [List.drop_take, List.take_take, min_eq_left (by omega)]

/-- **A range read returns the right bytes exactly on covered ranges.**  For every object size, block
layout and closed range inside the object, the reader yields exactly the bytes `[a, b]` of every
object of that size if and only if the range starts at 0 or its end is not a multiple of the chunk
size (and its rounding does not overflow). -/
theorem getFileReader_range_iff (L : ShardLayout) (isEncrypted : Bool)
    (sdk : List UInt8 → ℤ → ℤ → Download)
    (hsdk : DownloadsBlocks (effectiveChunkSize L isEncrypted) sdk)
    (s : ℕ) (hs : (s : ℤ) < 2 ^ 63) (a b : ℤ) (ha : 0 ≤ a) (hab : a ≤ b) (hb : b < s) :
    (∀ content : List UInt8, content.length = s →
      getFileReader L (.ok ⟨s, isEncrypted⟩) (sdk content) a b = .ok ⟨closedSlice content a b, none⟩)
      ↔ ClosedRangeCovered (effectiveChunkSize L isEncrypted) a b := by
  obtain ⟨hc, hc'⟩ := effectiveChunkSize_bounds L isEncrypted
  have hw : wrap64 (b - a + 1) = b - a + 1 := wrap64_of_mem ⟨by omega, by omega⟩
  constructor
  · intro h
    by_contra hcov
    have hle := end_le_of_not_covered hcov hc hc' ha hab (by omega)
    have hread := h (List.replicate s 0) (by simp)
    rw [getFileReader_closed hsdk _ _ ha hab (by omega), hw] at hread
    have hbytes := congrArg (fun r : Reader => r.bytes.length) (Except.ok.inj hread)
    simp only [closedSlice, List.length_take, List.length_drop, List.length_replicate] at hbytes
    omega
  · intro hcov content hlen
    have hle := hcov.lt_end hc ha hab
    rw [getFileReader_closed hsdk _ _ ha hab (by omega), hw, closedSlice,
      window_take content (by omega)]

/-- An allocation with one data shard and the SDK's encryption sizes. -/
def oneShard : ShardLayout :=
  ⟨1, 256, 16, by norm_num, by norm_num, by decide, by decide⟩

/-- The block download of the SDK as a function. -/
def blockSdk (chunk : ℤ) (content : List UInt8) (start stop : ℤ) : Download :=
  ⟨blockBytes chunk content start stop, none⟩

theorem blockSdk_downloads (chunk : ℤ) : DownloadsBlocks chunk (blockSdk chunk) :=
  fun _ _ _ _ => rfl

/-- The range `[5, 70000]` of an object of 100000 bytes crosses a chunk boundary and is read
correctly. -/
theorem getFileReader_range_crossing :
    ClosedRangeCovered (effectiveChunkSize oneShard false) 5 70000 ∧
      ((∀ content : List UInt8, content.length = 100000 →
        getFileReader oneShard (.ok ⟨(100000 : ℕ), false⟩)
          (blockSdk (effectiveChunkSize oneShard false) content) 5 70000 =
            .ok ⟨closedSlice content 5 70000, none⟩) ↔
        ClosedRangeCovered (effectiveChunkSize oneShard false) 5 70000) := by
  refine ⟨Or.inr ⟨by decide, by decide, by decide⟩, ?_⟩
  exact getFileReader_range_iff oneShard false _ (blockSdk_downloads _) 100000 (by norm_num) 5 70000
    (by norm_num) (by norm_num) (by norm_num)

/-- **The last byte of the range `[1, 65536]` is lost**: 65536 is a multiple of the chunk size, so
the download stops at block 1, one byte before the end of the range. -/
theorem getFileReader_loses_last_byte :
    ¬ ∀ content : List UInt8, content.length = 70000 →
      getFileReader oneShard (.ok ⟨(70000 : ℕ), false⟩)
        (blockSdk (effectiveChunkSize oneShard false) content) 1 65536 =
          .ok ⟨closedSlice content 1 65536, none⟩ := by
  intro h
  have hread := h (List.replicate 70000 0) List.length_replicate
  rw [getFileReader_closed (blockSdk_downloads _) _ _ (by norm_num) (by norm_num) (by norm_num)]
    at hread
  have hbytes := congrArg (fun r : Reader => r.bytes.length) (Except.ok.inj hread)
  simp only [closedSlice, List.length_take, List.length_drop, List.length_replicate] at hbytes
  exact absurd hbytes (by decide)

end

end Zs3Server.Gateway.RangeRead
