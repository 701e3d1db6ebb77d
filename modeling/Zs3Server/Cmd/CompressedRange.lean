import Zs3Server.Cmd.EncryptedRange

/-!
# Ranges of compressed objects

Each part of a compressed object is stored as a stream of its own.  A range of the plaintext is served from
the start of the part that holds its offset: `getCompressedOffsets` finds the part in two coordinate
systems at once, the stored bytes and the actual ones, and `NewGetObjectReader` decompresses from there,
skips to the range and keeps its length.  A part number is turned into a range first.

* `getCompressedOffsets`, `partNumberToRangeSpec`, `readCompressed` — the numbers and what is served;
* `Decompressor`, `Laid` — what is assumed of the streams, and what is on disk;
* `offsetsFrom_spec` — the part that holds an offset;
* `partBounds_eq` — the loop over the first parts;
* `compressed_ranges` — the window of the plaintext, by offsets, by part number and as served.

The totals of both sizes are `int64` values of the metadata, and no sum in the loops exceeds them.
-/

namespace Zs3Server.Cmd.CompressedRange

open Lib.ByteString
open Lib.SealedStream
open Cmd.HttpRange
open Cmd.EncryptedRange (Sio Keys StoredPart StoredAs Lists cipherOf plainOf decryptBlocks
  decryptBlocksRequestR packageBlockSize packageMetaSize packageBlockSize_pos)

/-! ### The numbers -/

structure PartInfo where
  number : ℕ
  size : ℕ
  actualSize : ℕ

/-- The fields of `ObjectInfo` that are read; `actualSize` is the entry of the metadata. -/
structure CompressedInfo where
  encrypted : Bool
  multipart : Bool
  erasureBackend : Bool
  etag : GoString
  size : ℕ
  actualSize : ℕ
  parts : List PartInfo

/-- The object as the decryption sees it. -/
def CompressedInfo.stored (o : CompressedInfo) : EncryptedRange.ObjectInfo :=
  ⟨o.encrypted, o.multipart, o.erasureBackend, o.etag, o.size,
    o.parts.map fun part => ⟨part.number, part.size⟩⟩

structure Offsets where
  compressedOffset : ℤ
  partSkip : ℤ
  firstPart : ℕ

/-- The loop of `getCompressedOffsets`.  If no part holds the offset, the index and the length to skip
keep the zeros that they were declared with. -/
def offsetsFrom (offset : ℤ) : ℕ → ℤ → ℤ → List PartInfo → Offsets
  | _, _, compressedOffset, [] => ⟨compressedOffset, offset - 0, 0⟩
  | i, cumulativeActualSize, compressedOffset, part :: parts =>
    if cumulativeActualSize + part.actualSize ≤ offset then
      offsetsFrom offset (i + 1) (cumulativeActualSize + part.actualSize) (compressedOffset + part.size)
        parts
    else ⟨compressedOffset, offset - (cumulativeActualSize + part.actualSize - part.actualSize), i⟩

def getCompressedOffsets (o : CompressedInfo) (offset : ℤ) : Offsets := offsetsFrom offset 0 0 0 o.parts

/-- One round of the loop over the parts, with the start and the end so far. -/
def nextBounds (bounds : ℤ × ℤ) (part : PartInfo) : ℤ × ℤ :=
  (bounds.2 + 1, bounds.2 + 1 + part.actualSize - 1)

def partNumberToRangeSpec (o : CompressedInfo) (partNumber : ℕ) : Option HTTPRangeSpec :=
  if o.size = 0 ∨ o.parts.length = 0 then none
  else
    let bounds := (o.parts.take partNumber).foldl nextBounds (0, -1)
    some ⟨false, bounds.1, bounds.2⟩

/-! ### What is served -/

/-- Decompression with the streams that it accepts: a concatenation of streams decodes to the
concatenation of what they hold. -/
structure Decompressor where
  stream : List UInt8 → List UInt8 → Prop
  decode : List UInt8 → List UInt8
  decode_flatten : ∀ cs : List (List UInt8 × List UInt8), (∀ c ∈ cs, stream c.1 c.2) →
    decode (cs.map Prod.fst).flatten = (cs.map Prod.snd).flatten

inductive CompError where
  | range (e : RangeError)
  | unexpectedEOF

section Serve

variable [Sio] (s2 : Decompressor) (keys : Keys) (o : CompressedInfo)

/-- The input of the decompression. -/
def decrypted (firstPart : ℕ) (input : List UInt8) : List UInt8 :=
  if o.encrypted then decryptBlocksRequestR keys o.stored 0 firstPart input else input

/-- The reader over the stored bytes: decryption, decompression, the skip, which fails beyond the end, and
the limit. -/
def serve (firstPart : ℕ) (decOff decLength : ℤ) (input : List UInt8) : Except CompError (List UInt8) :=
  let plain := s2.decode (decrypted keys o firstPart input)
  if decOff > 0 ∧ (plain.length : ℤ) < decOff then .error .unexpectedEOF
  else .ok ((plain.drop decOff.toNat).take decLength.toNat)

/-- The reader of `NewGetObjectReader` for a compressed object, on the bytes of the object on disk. -/
def readCompressed (rs : Option HTTPRangeSpec) (partNumber : ℕ) (disk : List UInt8) :
    Except CompError (List UInt8) :=
  match (if rs.isNone && 0 < partNumber then partNumberToRangeSpec o partNumber else rs) with
  | none => serve s2 keys o (if 0 < partNumber then partNumber - 1 else 0) 0 o.actualSize (disk.take o.size)
  | some rs =>
    match getOffsetLength (some rs) o.actualSize with
    | .error e => .error (.range e)
    | .ok (offset, rangeLength) =>
      let r := getCompressedOffsets o offset
      let decLength := if rangeLength < 0 then o.actualSize - r.partSkip else rangeLength
      if r.partSkip > o.actualSize ∨ r.partSkip + decLength > o.actualSize then
        .error (.range .invalidRange)
      else
        serve s2 keys o r.firstPart r.partSkip decLength
          ((disk.drop r.compressedOffset.toNat).take (o.size - r.compressedOffset).toNat)

end Serve

/-! ### Objects on disk -/

/-- A part: its stream, what the stream holds, and the key that seals it if the object is encrypted. -/
structure Segment where
  number : ℕ
  key : Sealing UInt8 packageBlockSize packageMetaSize
  compressed : List UInt8
  plain : List UInt8

def Segment.onDisk (encrypted : Bool) (s : Segment) : List UInt8 :=
  if encrypted then sealStream s.key 0 s.compressed else s.compressed

/-- What the metadata says of a part. -/
def Segment.info (encrypted : Bool) (s : Segment) : PartInfo :=
  ⟨s.number, (s.onDisk encrypted).length, s.plain.length⟩

def diskOf (encrypted : Bool) (segs : List Segment) : List UInt8 :=
  (segs.map (Segment.onDisk encrypted)).flatten

def textOf (segs : List Segment) : List UInt8 := (segs.map Segment.plain).flatten

/-- What a compressed object is on disk. -/
structure Laid [Sio] (s2 : Decompressor) (keys : Keys) (o : CompressedInfo) (segs : List Segment) : Prop where
  parts : o.parts = segs.map (Segment.info o.encrypted)
  streams : ∀ s ∈ segs, s2.stream s.compressed s.plain
  positive : ∀ s ∈ segs, s.plain ≠ []
  size : o.size = (diskOf o.encrypted segs).length
  actualSize : o.actualSize = (textOf segs).length
  sealing : o.encrypted = true → StoredAs keys o.stored (segs.map fun s => ⟨s.key, s.compressed⟩)

section Segments

variable {P Q segs : List Segment} {b : Bool}

theorem diskOf_append : diskOf b (P ++ Q) = diskOf b P ++ diskOf b Q := by
  simp [diskOf]

theorem textOf_append : textOf (P ++ Q) = textOf P ++ textOf Q := by
  simp [textOf]

theorem textOf_cons (x : Segment) : textOf (x :: Q) = x.plain ++ textOf Q := rfl

theorem length_textOf_cons (x : Segment) : (textOf (x :: Q)).length = x.plain.length + (textOf Q).length := by
  rw [textOf_cons, List.length_append]

theorem length_diskOf_cons (x : Segment) :
    (diskOf b (x :: Q)).length = (x.onDisk b).length + (diskOf b Q).length := by
  simp [diskOf]

/-- **The loop finds the part that holds an offset**, with the bytes before it in both counts. -/
theorem offsetsFrom_spec (offset : ℕ) (segs : List Segment) (i cum comp : ℕ) (hcum : cum ≤ offset) :
    (cum + (textOf segs).length ≤ offset ∧
      offsetsFrom offset i cum comp (segs.map (Segment.info b)) =
        ⟨comp + (diskOf b segs).length, offset, 0⟩) ∨
    ∃ P x Q, segs = P ++ x :: Q ∧ cum + (textOf P).length ≤ offset ∧
      offset < cum + (textOf P).length + x.plain.length ∧
      offsetsFrom offset i cum comp (segs.map (Segment.info b)) =
        ⟨comp + (diskOf b P).length, offset - (cum + (textOf P).length), i + P.length⟩ := by
  induction segs generalizing i cum comp with
  | nil =>
    left
    exact ⟨by simpa [textOf] using hcum, by simp [offsetsFrom, diskOf]⟩
  | cons s segs ih =>
    have hstep : offsetsFrom offset i cum comp ((s :: segs).map (Segment.info b)) =
        if (cum : ℤ) + s.plain.length ≤ offset then
          offsetsFrom offset (i + 1) (cum + s.plain.length) (comp + (s.onDisk b).length)
            (segs.map (Segment.info b))
        else ⟨comp, offset - (cum + s.plain.length - s.plain.length), i⟩ := rfl
    rw [hstep]
    by_cases hle : cum + s.plain.length ≤ offset
    · rw [if_pos (by exact_mod_cast hle)]
      rcases ih (i + 1) (cum + s.plain.length) (comp + (s.onDisk b).length) hle with
        ⟨hend, heq⟩ | ⟨P, x, Q, rfl, hlow, hhigh, heq⟩
      · left
        refine ⟨by rw [length_textOf_cons]; omega, ?_⟩
        push_cast at heq
        rw [heq, length_diskOf_cons]
        congr 1
        push_cast
        ring
      · right
        refine ⟨s :: P, x, Q, rfl, by rw [length_textOf_cons]; omega, by rw [length_textOf_cons]; omega, ?_⟩
        push_cast at heq
        rw [heq, length_textOf_cons, length_diskOf_cons, List.length_cons]
        congr 1
        · push_cast
          ring
        · push_cast
          ring
        · omega
    · rw [if_neg (by exact_mod_cast hle)]
      right
      refine ⟨[], s, segs, rfl, by simpa [textOf] using hcum, by simp [textOf]; omega, ?_⟩
      simp [diskOf, textOf]

/-- The loop over the first parts ends with the bounds of the last of them. -/
theorem partBounds_eq (P : List Segment) (x : Segment) :
    ((P ++ [x]).map (Segment.info b)).foldl nextBounds (0, -1) =
      (((textOf P).length : ℤ), ((textOf P).length : ℤ) + x.plain.length - 1) := by
  have hend : ∀ P : List Segment,
      ((P.map (Segment.info b)).foldl nextBounds (0, -1)).2 = ((textOf P).length : ℤ) - 1 := by
    intro P
    induction P using List.reverseRecOn with
    | nil => rfl
    | append_singleton P x ih =>
      rw [List.map_append, List.foldl_append, List.map_singleton, List.foldl_cons, List.foldl_nil,
        nextBounds, ih, textOf_append, List.length_append]
      simp only [textOf, Segment.info, List.map_cons, List.map_nil, List.flatten_singleton]
      push_cast
      ring
  rw [List.map_append, List.foldl_append, List.map_singleton, List.foldl_cons, List.foldl_nil, nextBounds,
    hend P]
  dsimp only [Segment.info]
  congr 1
  · ring
  · ring

theorem diskOf_sealed (T : List Segment) :
    diskOf true T = cipherOf (T.map fun s => ⟨s.key, s.compressed⟩) := by
  unfold diskOf cipherOf
  rw [List.map_map]
  rfl

theorem exists_split {p : ℕ} {x : Segment} (hx : segs[p]? = some x) :
    ∃ P Q, segs = P ++ x :: Q ∧ P.length = p := by
  obtain ⟨hp, rfl⟩ := List.getElem?_eq_some_iff.mp hx
  refine ⟨segs.take p, segs.drop (p + 1), ?_, ?_⟩
  · rw [List.getElem_cons_drop, List.take_append_drop]
  · rw [List.length_take]
    omega

theorem textOf_part {P Q : List Segment} {x : Segment} (hsegs : segs = P ++ x :: Q) :
    ((textOf segs).drop (textOf P).length).take x.plain.length = x.plain ∧
      (textOf segs).length = (textOf P).length + (x.plain.length + (textOf Q).length) := by
  rw [hsegs, textOf_append, List.drop_left, textOf_cons, List.take_left, List.length_append,
    List.length_append]
  exact ⟨rfl, rfl⟩

theorem window_append {α : Type*} (l₁ l₂ : List α) {offset : ℕ} (h : l₁.length ≤ offset) (length : ℕ) :
    (l₂.drop (offset - l₁.length)).take length = ((l₁ ++ l₂).drop offset).take length := by
  rw [List.drop_append, List.drop_eq_nil_of_le h, List.nil_append]

end Segments

/-! ### From a part on -/

section Laid

variable [Sio] {s2 : Decompressor} {keys : Keys} {o : CompressedInfo} {segs : List Segment}

/-- The decryption of whole parts. -/
theorem decryptBlocks_cipherOf {M : List StoredPart} :
    ∀ {parts : List EncryptedRange.ObjectPartInfo}, Lists keys parts M →
      (∀ y ∈ M, y.plain.length ≤ EncryptedRange.maxDecryptedSize) →
      decryptBlocks keys parts 0 (cipherOf M) = plainOf M := by
  induction M with
  | nil =>
    intro parts _ _
    exact EncryptedRange.decryptBlocks_nil keys parts 0
  | cons y M ih =>
    intro parts hparts hbound
    obtain ⟨part, rest, rfl, hsize, hkey, hrest⟩ := hparts.exists_cons
    have hlen : (sealStream y.key 0 y.plain).length =
        part.size - 0 * (packageBlockSize + packageMetaSize) := by
      rw [EncryptedRange.length_sealed (hbound y List.mem_cons_self), hsize, Nat.zero_mul, Nat.sub_zero]
    rw [EncryptedRange.cipherOf_cons, EncryptedRange.decryptBlocks_cons hkey (Or.inr hlen),
      ih hrest fun z hz => hbound z (List.mem_cons_of_mem y hz)]
    rfl

/-- **Decryption from a part on gives the streams from there on.** -/
theorem Laid.decrypted_eq (h : Laid s2 keys o segs) {P T : List Segment} (hsegs : segs = P ++ T)
    (hfirst : T = [] → P = []) :
    decrypted keys o P.length (diskOf o.encrypted T) = (T.map Segment.compressed).flatten := by
  unfold decrypted
  cases henc : o.encrypted with
  | false => rfl
  | true =>
    have hstored := h.sealing henc
    rw [if_pos rfl, diskOf_sealed]
    unfold decryptBlocksRequestR
    cases hmulti : o.stored.isMultipart with
    | false =>
      -- a single stream, so the part is the first
      obtain ⟨plain, hone⟩ := hstored.single hmulti
      obtain ⟨x, rfl, hx⟩ := List.map_eq_singleton_iff.mp hone
      have hP : P = [] := by
        cases P with
        | nil => rfl
        | cons p P =>
          have hT : T = [] := by
            have hlen := congrArg List.length hsegs
            rw [List.length_singleton, List.length_append, List.length_cons] at hlen
            exact List.length_eq_zero_iff.mp (by omega)
          exact hfirst hT
      rw [hP, List.nil_append] at hsegs
      rw [← hsegs, if_pos rfl]
      injection hx with hkey hplain
      show (openStream keys.object 0 (sealStream x.key 0 x.compressed ++ [])).1 = x.compressed ++ []
      rw [List.append_nil, List.append_nil, hkey, openStream_sealStream packageBlockSize_pos]
    | true =>
      have hlists := (hstored.multi hmulti).drop P.length
      rw [hsegs, List.map_append, List.drop_left' (List.length_map _)] at hlists
      rw [if_neg (by simp), decryptBlocks_cipherOf hlists]
      · unfold plainOf
        rw [List.map_map]
        rfl
      · intro y hy
        apply hstored.bounded y
        rw [hsegs, List.map_append]
        exact List.mem_append_right _ hy

theorem Laid.decode_eq (h : Laid s2 keys o segs) {P T : List Segment} (hsegs : segs = P ++ T) :
    s2.decode (T.map Segment.compressed).flatten = textOf T := by
  have hdecode := s2.decode_flatten (T.map fun s => (s.compressed, s.plain)) (by
    intro c hc
    obtain ⟨s, hs, rfl⟩ := List.mem_map.mp hc
    apply h.streams s
    rw [hsegs]
    exact List.mem_append_right P hs)
  rw [List.map_map, List.map_map] at hdecode
  exact hdecode

/-- The numbers for an offset inside the object. -/
theorem Laid.offsets_of_lt (h : Laid s2 keys o segs) {offset : ℕ} (hlt : offset < (textOf segs).length) :
    ∃ P T, segs = P ++ T ∧ T ≠ [] ∧ (textOf P).length ≤ offset ∧
      getCompressedOffsets o offset =
        ⟨(diskOf o.encrypted P).length, (offset - (textOf P).length : ℕ), P.length⟩ := by
  unfold getCompressedOffsets
  rw [h.parts]
  have hspec := offsetsFrom_spec (b := o.encrypted) offset segs 0 0 0 (Nat.zero_le offset)
  simp only [Nat.cast_zero, zero_add] at hspec
  rcases hspec with ⟨hend, -⟩ | ⟨P, x, Q, hsegs, hlow, -, heq⟩
  · omega
  · refine ⟨P, x :: Q, hsegs, List.cons_ne_nil x Q, hlow, ?_⟩
    rw [heq, Nat.cast_sub hlow]

/-- The numbers for an offset behind the object. -/
theorem Laid.offsets_of_le (h : Laid s2 keys o segs) {offset : ℕ} (hle : (textOf segs).length ≤ offset) :
    getCompressedOffsets o offset = ⟨(diskOf o.encrypted segs).length, offset, 0⟩ := by
  unfold getCompressedOffsets
  rw [h.parts]
  have hspec := offsetsFrom_spec (b := o.encrypted) offset segs 0 0 0 (Nat.zero_le offset)
  simp only [Nat.cast_zero, zero_add] at hspec
  rcases hspec with ⟨-, heq⟩ | ⟨P, x, Q, rfl, -, hhigh, -⟩
  · exact heq
  · rw [textOf_append, textOf_cons, List.length_append, List.length_append] at hle
    omega

/-- **What is decompressed** for an offset inside the object: the plaintext from its part on. -/
theorem Laid.decoded (h : Laid s2 keys o segs) {P T : List Segment} (hsegs : segs = P ++ T) (hT : T ≠ []) :
    s2.decode (decrypted keys o P.length
      ((diskOf o.encrypted segs).drop (diskOf o.encrypted P).length)) = textOf T := by
  have hdrop : (diskOf o.encrypted segs).drop (diskOf o.encrypted P).length = diskOf o.encrypted T := by
    rw [hsegs, diskOf_append, List.drop_left]
  rw [hdrop, h.decrypted_eq hsegs fun hnil => absurd hnil hT, h.decode_eq hsegs]

/-- Nothing is read behind the object. -/
theorem decode_nil (s2 : Decompressor) (keys : Keys) (o : CompressedInfo) (firstPart : ℕ) :
    s2.decode (decrypted keys o firstPart []) = [] := by
  have hinput : decrypted keys o firstPart [] = [] := by
    unfold decrypted decryptBlocksRequestR
    split_ifs
    · rfl
    · exact EncryptedRange.decryptBlocks_nil keys _ 0
    · rfl
  rw [hinput]
  exact s2.decode_flatten [] fun c hc => absurd hc List.not_mem_nil

/-- The window by the offsets. -/
theorem Laid.window (h : Laid s2 keys o segs) (offset length : ℕ) :
    ((s2.decode (decrypted keys o (getCompressedOffsets o offset).firstPart ((diskOf o.encrypted segs).drop
      (getCompressedOffsets o offset).compressedOffset.toNat))).drop
        (getCompressedOffsets o offset).partSkip.toNat).take length =
      ((textOf segs).drop offset).take length := by
  by_cases hlt : offset < (textOf segs).length
  · obtain ⟨P, T, hsegs, hT, hlow, heq⟩ := h.offsets_of_lt hlt
    rw [heq]
    simp only [Int.toNat_natCast]
    rw [h.decoded hsegs hT, hsegs, textOf_append, window_append _ _ hlow]
  · rw [h.offsets_of_le (Nat.not_lt.mp hlt)]
    simp only [Int.toNat_natCast]
    rw [List.drop_length, decode_nil, List.drop_nil, List.take_nil,
      List.drop_eq_nil_of_le (Nat.not_lt.mp hlt), List.take_nil]

/-- The window as it is served. -/
theorem Laid.served (h : Laid s2 keys o segs) {rs : HTTPRangeSpec} {offset length : ℕ}
    (hrs : getOffsetLength (some rs) o.actualSize = .ok ((offset : ℤ), (length : ℤ)))
    (hlt : offset < o.actualSize) (hle : offset + length ≤ o.actualSize) (partNumber : ℕ) :
    readCompressed s2 keys o (some rs) partNumber (diskOf o.encrypted segs) =
      .ok (((textOf segs).drop offset).take length) := by
  have hwindow := h.window offset length
  have hactual := h.actualSize
  obtain ⟨P, T, hsegs, hT, hlow, heq⟩ := h.offsets_of_lt (show offset < (textOf segs).length by omega)
  -- the whole of the stored bytes from the part on is read
  have hinput : (((diskOf o.encrypted segs).drop (diskOf o.encrypted P).length).take
      ((o.size : ℤ) - (diskOf o.encrypted P).length).toNat) =
        (diskOf o.encrypted segs).drop (diskOf o.encrypted P).length := by
    apply List.take_of_length_le
    rw [List.length_drop, h.size]
    omega
  have hlength : (textOf segs).length = (textOf P).length + (textOf T).length := by
    rw [hsegs, textOf_append, List.length_append]
  unfold readCompressed
  rw [Option.isNone_some, Bool.false_and, if_neg Bool.false_ne_true]
  dsimp only
  rw [hrs]
  dsimp only
  rw [heq] at hwindow ⊢
  simp only [Int.toNat_natCast] at hwindow
  dsimp only
  rw [if_neg (by omega : ¬ (length : ℤ) < 0), if_neg (by omega), Int.toNat_natCast, hinput]
  unfold serve
  dsimp only
  rw [if_neg]
  · simp only [Int.toNat_natCast]
    rw [hwindow]
  · rw [h.decoded hsegs hT]
    omega

/-- The range of the part after `P`. -/
theorem Laid.partRange (h : Laid s2 keys o segs) {P Q : List Segment} {x : Segment}
    (hsegs : segs = P ++ x :: Q) :
    ∃ rs, partNumberToRangeSpec o (P.length + 1) = some rs ∧
      getOffsetLength (some rs) o.actualSize = .ok (((textOf P).length : ℤ), (x.plain.length : ℤ)) := by
  have hx : x ∈ segs := by
    rw [hsegs]
    exact List.mem_append_right P List.mem_cons_self
  have hpos : 0 < x.plain.length := List.length_pos_iff.mpr (h.positive x hx)
  have hactual : o.actualSize = (textOf P).length + (x.plain.length + (textOf Q).length) :=
    h.actualSize.trans (textOf_part hsegs).2
  -- a stream of something is not empty
  have hsize : o.size ≠ 0 := by
    intro hzero
    rw [h.size] at hzero
    have hdecoded := h.decoded (P := []) (List.nil_append segs).symm (List.ne_nil_of_mem hx)
    rw [List.length_eq_zero_iff.mp hzero, List.drop_nil, decode_nil] at hdecoded
    have hlen := congrArg List.length hdecoded
    rw [← h.actualSize, List.length_nil] at hlen
    omega
  have hparts : o.parts.length ≠ 0 := by
    rw [h.parts, List.length_map]
    exact Nat.ne_of_gt (List.length_pos_of_mem hx)
  have htake : o.parts.take (P.length + 1) = (P ++ [x]).map (Segment.info o.encrypted) := by
    rw [h.parts, ← List.map_take, hsegs, List.take_append, List.take_of_length_le (Nat.le_succ _),
      Nat.add_sub_cancel_left]
    rfl
  refine ⟨⟨false, (textOf P).length, (textOf P).length + x.plain.length - 1⟩, ?_, ?_⟩
  · unfold partNumberToRangeSpec
    rw [if_neg (by simp [hsize, hparts]), htake, partBounds_eq]
  · rw [getOffsetLength_closed (by omega) (by omega) (by omega)]
    congr 2
    omega

end Laid

/-- **Ranges of compressed objects.**  The stored bytes from the compressed offset on, decompressed and
skipped, hold the window of the plaintext; the range of a part number is the part; and this is what is
served for a part number and for a range. -/
theorem compressed_ranges [Sio] (s2 : Decompressor) (keys : Keys) (o : CompressedInfo) (segs : List Segment)
    (h : Laid s2 keys o segs) :
    (∀ offset length : ℕ,
      ((s2.decode (decrypted keys o (getCompressedOffsets o offset).firstPart
        ((diskOf o.encrypted segs).drop (getCompressedOffsets o offset).compressedOffset.toNat))).drop
          (getCompressedOffsets o offset).partSkip.toNat).take length =
        ((textOf segs).drop offset).take length) ∧
    (∀ (p : ℕ) (x : Segment), segs[p]? = some x →
      ∃ (rs : HTTPRangeSpec) (offset length : ℕ), partNumberToRangeSpec o (p + 1) = some rs ∧
        getOffsetLength (some rs) o.actualSize = .ok ((offset : ℤ), (length : ℤ)) ∧
        ((textOf segs).drop offset).take length = x.plain ∧
        readCompressed s2 keys o none (p + 1) (diskOf o.encrypted segs) = .ok x.plain) ∧
    (∀ (rs : HTTPRangeSpec) (offset length : ℕ),
      getOffsetLength (some rs) o.actualSize = .ok ((offset : ℤ), (length : ℤ)) →
      offset < o.actualSize → offset + length ≤ o.actualSize →
      readCompressed s2 keys o (some rs) 0 (diskOf o.encrypted segs) =
        .ok (((textOf segs).drop offset).take length)) := by
  refine ⟨h.window, ?_,
    fun rs offset length hrs hlt hle => h.served hrs hlt hle 0⟩
  intro p x hx
  obtain ⟨P, Q, hsegs, rfl⟩ := exists_split hx
  obtain ⟨rs, hspec, hrange⟩ := h.partRange hsegs
  obtain ⟨hpart, hlength⟩ := textOf_part hsegs
  have hpos : 0 < x.plain.length :=
    List.length_pos_iff.mpr (h.positive x (List.mem_of_getElem? hx))
  have hactual := h.actualSize
  refine ⟨rs, _, _, hspec, hrange, hpart, ?_⟩
  have hserved := h.served hrange (by omega) (by omega) (P.length + 1)
  rw [hpart] at hserved
  rw [← hserved]
  unfold readCompressed
  rw [hspec]
  rfl

/-- Streams that hold what they are. -/
def verbatim : Decompressor where
  stream c p := c = p
  decode := id
  decode_flatten := by
    intro cs hcs
    rw [id, List.map_congr_left hcs]

def twoSegments : List Segment :=
  [⟨1, EncryptedRange.numberSeal, [1, 2, 3], [1, 2, 3]⟩, ⟨2, EncryptedRange.numberSeal, [4, 5], [4, 5]⟩]

def twoSegmentInfo : CompressedInfo := ⟨false, true, false, [], 5, 5, [⟨1, 3, 3⟩, ⟨2, 2, 2⟩]⟩

theorem twoSegments_laid :
    Laid verbatim ⟨EncryptedRange.numberSeal, fun _ => EncryptedRange.numberSeal⟩ twoSegmentInfo
      twoSegments := by
  refine ⟨rfl, ?_, ?_, rfl, rfl, fun h => absurd h Bool.false_ne_true⟩
  · intro s hs
    simp only [twoSegments, List.mem_cons, List.not_mem_nil, or_false] at hs
    rcases hs with rfl | rfl <;> rfl
  · intro s hs
    simp only [twoSegments, List.mem_cons, List.not_mem_nil, or_false] at hs
    rcases hs with rfl | rfl <;> simp

/-- The second part by its number. -/
theorem readCompressed_secondPart :
    readCompressed verbatim ⟨EncryptedRange.numberSeal, fun _ => EncryptedRange.numberSeal⟩ twoSegmentInfo
      none 2 (diskOf false twoSegments) = .ok [4, 5] := by
  obtain ⟨-, hparts, -⟩ := compressed_ranges _ _ _ _ twoSegments_laid
  obtain ⟨-, -, -, -, -, -, hread⟩ := hparts 1 _ rfl
  exact hread

end Zs3Server.Cmd.CompressedRange
