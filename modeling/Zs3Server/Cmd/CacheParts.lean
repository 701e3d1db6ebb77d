import Zs3Server.Cmd.BitrotRead
import Zs3Server.Cmd.CacheServe

/-!
# Reading back what was cached

A cached object is one file of blocks behind their checksums, or one such file for each part.  `Get`
reads a range from the file, or from the parts that the range lies in.

* `bitrotWriteToCache`, `cacheObjectToPartOffset`, `getParts` — the code;
* `bitrotReadFromCache_written` — a range of a file comes back as it was written;
* `partLoop_written` — so does a range of some parts, read one after the other;
* `readParts_written` — the parts as `CacheServe` reads them;
* `written_getParts_iff` — a range of all parts, unless it is the first byte and the first part is empty;
* `cached_range_exact` — so a range of any object all of whose parts but the last have bytes.
-/

namespace Zs3Server.Cmd.CacheParts

open Lib.BlockFile
open Cmd.DiskCache
open Cmd.CacheRead
open Cmd.BitrotRead

/-! ### The code -/

/-- The loop of `bitrotWriteToCache` over what the reader has left. -/
def writeLoop (hash : Content → Content) (size : ℕ) : ℕ → Content → Content
  | 0, _ => []
  | fuel + 1, reader =>
    let data := reader.take cacheBlkSize
    if data.length = 0 ∧ size ≠ 0 then []
    else hash data ++ (data ++
      if data.length < cacheBlkSize then [] else writeLoop hash size fuel (reader.drop cacheBlkSize))

/-- The file that `bitrotWriteToCache` writes.  Every round but the last one takes a full block. -/
def bitrotWriteToCache (hash : Content → Content) (size : ℕ) (content : Content) : Content :=
  writeLoop hash size (content.length / cacheBlkSize + 1) content

structure PartInfo where
  number : ℕ
  size : ℕ

/-- The loop of `cacheObjectToPartOffset`. -/
def partOffsetLoop : ℕ → ℕ → List PartInfo → Option (ℕ × ℕ)
  | _, _, [] => none
  | i, partOffset, part :: parts =>
    if partOffset < part.size then some (i, partOffset)
    else partOffsetLoop (i + 1) (partOffset - part.size) parts

/-- The part that an offset lies in, and the offset in this part; `none` is `InvalidRange`. -/
def cacheObjectToPartOffset (parts : List PartInfo) (offset : ℕ) : Option (ℕ × ℕ) :=
  if offset = 0 then some (0, 0) else partOffsetLoop 0 offset parts

section Get

variable (hash : Content → Content) (files : ℕ → Content) (pool : ℕ → Buffer) (length : ℕ)

/-- The loop of `Get` over the parts of the range.  The buffer may hold anything. -/
def partLoop : List PartInfo → (partOffset totalBytesRead : ℕ) → Content → BitrotResult
  | [], _, _, out => ⟨none, out⟩
  | part :: parts, partOffset, totalBytesRead, out =>
    if length = totalBytesRead then ⟨none, out⟩
    else
      let partLength := min (part.size - partOffset) (length - totalBytesRead)
      let r := bitrotReadFromCache hash (fun _ => .ok) (files part.number) (pool part.number)
        partOffset partLength
      match r.err with
      | some err => ⟨some err, out ++ r.out⟩
      | none => partLoop parts 0 (totalBytesRead + partLength) (out ++ r.out)

/-- `Get` of an object with parts, up to a reader that takes everything; `none` is `InvalidRange`. -/
def getParts (parts : List PartInfo) (startOffset : ℕ) : Option BitrotResult :=
  let size := (parts.map PartInfo.size).sum
  if size < startOffset ∨ size < startOffset + length then none
  else
    match cacheObjectToPartOffset parts startOffset,
      cacheObjectToPartOffset parts (if 0 < length then startOffset + (length - 1) else startOffset) with
    | some (partIndex, partOffset), some (lastPartIndex, _) =>
      some (partLoop hash files pool length ((parts.take (lastPartIndex + 1)).drop partIndex) partOffset
        0 [])
    | _, _ => none

end Get

/-- The bytes that reach the reader. -/
def written (r : Option BitrotResult) : Content := (r.map BitrotResult.out).getD []

/-- The file of a content, filled up to whole blocks, has a size that is an `int64`. -/
def FileFits (c : Content) : Prop :=
  (cacheBlkSize + hashSize) * (c.length / cacheBlkSize + 1) < 2 ^ 63

/-- The parts have these contents, each in the file of its number. -/
def PartsStored (hash : Content → Content) (files : ℕ → Content) (parts : List PartInfo)
    (contents : List Content) : Prop :=
  List.Forall₂ (fun part c => part.size = c.length ∧ FileFits c ∧
    ∃ size, files part.number = bitrotWriteToCache hash size c) parts contents

/-! ### One file -/

section File

variable {hash : Content → Content} (hlen : ∀ b, (hash b).length = hashSize) {c : Content}

theorem blkSize_pos : 0 < cacheBlkSize := by decide

/-- The file has the blocks of the content.  Something may follow if the last one is full. -/
theorem writeLoop_eq (hash : Content → Content) (size fuel : ℕ) :
    ∀ c : Content, c.length / cacheBlkSize < fuel →
      ∃ tail, writeLoop hash size fuel c = blocks hash cacheBlkSize c ++ tail ∧
        (tail = [] ∨ cacheBlkSize ∣ c.length) := by
  induction fuel with
  | zero =>
    intro c h
    exact absurd h (Nat.not_lt_zero _)
  | succ fuel ih =>
    intro c hfuel
    have hnil : blocks hash cacheBlkSize [] = [] := rfl
    rw [writeLoop]
    by_cases hc : c = []
    · subst hc
      rw [hnil]
      exact ⟨_, rfl, Or.inr (dvd_zero _)⟩
    · have hcpos := List.length_pos_iff.mpr hc
      have hpos := blkSize_pos
      have hdata : (c.take cacheBlkSize).length = min cacheBlkSize c.length := List.length_take
      rw [blocks_of_ne_nil blkSize_pos hc]
      by_cases hshort : c.length < cacheBlkSize
      · -- the last block, which is not full
        refine ⟨[], ?_, Or.inl rfl⟩
        rw [List.drop_eq_nil_of_le hshort.le, hnil]
        simp only [hdata]
        rw [if_neg (by omega), if_pos (by omega), List.append_nil, List.append_nil]
      · have hdiv := Nat.div_eq_sub_div hpos (Nat.not_lt.mp hshort)
        obtain ⟨tail, hrest, htail⟩ := ih (c.drop cacheBlkSize) (by rw [List.length_drop]; omega)
        refine ⟨tail, ?_, htail.imp_right fun hdvd => ?_⟩
        · simp only [hdata]
          rw [if_neg (by omega), if_neg (by omega), hrest]
          simp only [List.append_assoc]
        · rw [List.length_drop] at hdvd
          exact (Nat.dvd_sub_iff_left (Nat.not_lt.mp hshort) (dvd_refl _)).mp hdvd

section

include hlen

/-- Every block of a range is intact. -/
theorem intact_written (size : ℕ) {j : ReadJob} (hfits : j.off + j.len ≤ c.length) {n : ℕ}
    (hstart : j.startBlock ≤ n) (hend : n ≤ j.endBlock) (hblock : j.blockLength n ≠ 0) :
    blockAt (bitrotWriteToCache hash size c) n = (c.drop (cacheBlkSize * n)).take cacheBlkSize ∧
      Intact hash (fun _ => .ok) (bitrotWriteToCache hash size c) j n := by
  obtain ⟨hoffset, hlength⟩ := blockRange j hstart hend
  have hbounds := block_bounds hstart hend
  have hin : cacheBlkSize * n < c.length := by omega
  obtain ⟨tail, hfile, htail⟩ := writeLoop_eq hash size _ c (Nat.lt_succ_self _)
  have hdata := read_block blkSize_pos hlen htail hin
  have hsum := read_hash blkSize_pos hlen tail hin
  rw [← hfile] at hdata hsum
  refine ⟨hdata, ?_, ?_, ?_, rfl⟩
  · show hashSize ≤ (checksumAt (bitrotWriteToCache hash size c) n).length
    rw [checksumAt, bitrotWriteToCache, hsum, hlen]
  · rw [blockAt, checksumAt, bitrotWriteToCache, hdata, hsum]
  · rw [blockAt, bitrotWriteToCache, hdata, List.length_take, List.length_drop]
    omega

/-- From the head of the loop on, the rest of the range is delivered. -/
theorem bitrotLoop_written (size : ℕ) {j : ReadJob} (hfits : j.off + j.len ≤ c.length) (rem : ℕ) :
    ∀ {n : ℕ} (buf : Content), rem = j.endBlock + 1 - n → j.startBlock ≤ n →
      bitrotLoop hash (fun _ => .ok) j rem n (streamAt (bitrotWriteToCache hash size c) j n) buf
        (delivered c j n) = ⟨none, (c.drop j.off).take j.len⟩ := by
  induction rem with
  | zero =>
    intro n buf hrem hstart
    rw [bitrotLoop, delivered_all c (covered_of_lt (by omega))]
  | succ rem ih =>
    intro n buf hrem hstart
    have hend : n ≤ j.endBlock := by omega
    by_cases hzero : j.blockLength n = 0
    · rw [bitrotLoop, if_pos hzero, delivered_all c (covered_of_blockLength hstart hend hzero)]
    · obtain ⟨hdata, hintact⟩ := intact_written hlen size hfits hstart hend hzero
      rw [bitrotLoop_intact hend hzero hintact]
      simp only [hdata, delivered_succ c hstart hend]
      split
      · next hshort =>
        -- the content ends in this block
        rw [List.length_take, List.length_drop] at hshort
        have hsucc : cacheBlkSize * (n + 1) = cacheBlkSize * n + cacheBlkSize := Nat.mul_succ _ _
        rw [delivered_all c (by omega)]
      · exact ih _ (by omega) (by omega)

/-- **A range of a file** comes back as it was written. -/
theorem bitrotReadFromCache_written (size : ℕ) (pool : Buffer) {off len : ℕ} (hfile : FileFits c)
    (hfits : off + len ≤ c.length) :
    bitrotReadFromCache hash (fun _ => .ok) (bitrotWriteToCache hash size c) pool off len =
      ⟨none, (c.drop off).take len⟩ := by
  have hloop := bitrotLoop_written hlen size (j := ⟨none, off, len⟩) hfits _ pool.val rfl le_rfl
  rw [delivered_startBlock] at hloop
  -- no more blocks are read than the file has
  have hstart : off / cacheBlkSize ≤ c.length / cacheBlkSize := Nat.div_le_div_right (by omega)
  have hend : (off + len) / cacheBlkSize ≤ c.length / cacheBlkSize := Nat.div_le_div_right hfits
  have hmono : ∀ n, n ≤ c.length / cacheBlkSize + 1 → (cacheBlkSize + hashSize) * n < 2 ^ 63 :=
    fun n hn => lt_of_le_of_lt (Nat.mul_le_mul_left _ hn) hfile
  have hsize : c.length < 2 ^ 63 := by
    have hdiv := Nat.div_add_mod c.length cacheBlkSize
    have hmod := Nat.mod_lt c.length blkSize_pos
    unfold FileFits at hfile
    unfold cacheBlkSize hashSize at *
    omega
  rw [bitrotRead_of_fits (by omega) (hmono _ (Nat.le_succ_of_le hstart))
    (hmono _ ((Nat.sub_le _ _).trans (Nat.succ_le_succ hend)))]
  exact hloop

end

end File

/-! ### Parts -/

/-- The part that an offset is found in. -/
theorem partOffsetLoop_some {i off k o : ℕ} : ∀ {parts : List PartInfo} {contents : List Content},
    parts.map PartInfo.size = contents.map List.length →
    partOffsetLoop i off parts = some (k, o) →
    i ≤ k ∧ off = (contents.take (k - i)).flatten.length + o ∧
      off < (contents.take (k - i + 1)).flatten.length := by
  intro parts
  induction parts generalizing i off with
  | nil =>
    intro contents _ h
    cases h
  | cons part parts ih =>
    intro contents hsizes h
    cases contents with
    | nil => cases hsizes
    | cons c contents =>
      obtain ⟨hsize, hsizes⟩ := List.cons.inj hsizes
      rw [partOffsetLoop] at h
      split at h
      · next hlt =>
        cases h
        simp only [Nat.sub_self, List.take_zero, List.flatten_nil, List.length_nil, Nat.zero_add,
          List.take_succ_cons, List.flatten_cons, List.append_nil]
        exact ⟨le_rfl, trivial, hsize ▸ hlt⟩
      · next hge =>
        obtain ⟨hle, hoff, hend⟩ := ih hsizes h
        have hk : k - i = k - (i + 1) + 1 := by omega
        rw [hk]
        simp only [List.take_succ_cons, List.flatten_cons, List.length_append]
        rw [hsize] at hge hoff hend
        omega

theorem partOffsetLoop_isSome {off i : ℕ} {parts : List PartInfo}
    (h : off < (parts.map PartInfo.size).sum) : ∃ r, partOffsetLoop i off parts = some r := by
  induction parts generalizing i off with
  | nil => exact absurd h (Nat.not_lt_zero _)
  | cons part parts ih =>
    rw [List.map_cons, List.sum_cons] at h
    rw [partOffsetLoop]
    split
    · exact ⟨_, rfl⟩
    · exact ih (by omega)

/-- The part that an offset of the object lies in; offset 0 is given to the first part. -/
theorem cacheObjectToPartOffset_some {parts : List PartInfo} {contents : List Content}
    (hsizes : parts.map PartInfo.size = contents.map List.length) (off : ℕ)
    (hoff : off < contents.flatten.length) :
    ∃ k o, cacheObjectToPartOffset parts off = some (k, o) ∧
      off = (contents.take k).flatten.length + o ∧
      (off = 0 ∧ k = 0 ∨ off ≠ 0 ∧ off < (contents.take (k + 1)).flatten.length) := by
  rw [List.length_flatten, ← hsizes] at hoff
  unfold cacheObjectToPartOffset
  by_cases hzero : off = 0
  · exact ⟨0, 0, by rw [if_pos hzero], by simp [hzero], Or.inl ⟨hzero, rfl⟩⟩
  · obtain ⟨⟨k, o⟩, hr⟩ := partOffsetLoop_isSome (i := 0) hoff
    obtain ⟨-, hsum, hlt⟩ := partOffsetLoop_some hsizes hr
    exact ⟨k, o, by rw [if_neg hzero, hr], by simpa using hsum,
      Or.inr ⟨hzero, by simpa using hlt⟩⟩

theorem length_flatten_take_succ (contents : List Content) (k : ℕ) :
    (contents.take (k + 1)).flatten.length =
      (contents.take k).flatten.length + (contents[k]?.getD []).length := by
  rw [List.take_add_one, List.flatten_append, List.length_append]
  cases contents[k]? <;> simp

theorem length_flatten_take_mono (contents : List Content) {k k' : ℕ} (h : k ≤ k') :
    (contents.take k).flatten.length ≤ (contents.take k').flatten.length := by
  obtain ⟨d, rfl⟩ := Nat.exists_eq_add_of_le h
  rw [List.take_add, List.flatten_append, List.length_append]
  exact Nat.le_add_right _ _

section Parts

variable {hash : Content → Content} (hlen : ∀ b, (hash b).length = hashSize) {files : ℕ → Content}

include hlen

/-- **A range of some parts**, read one after the other. -/
theorem partLoop_written (pool : ℕ → Buffer) (length : ℕ) {parts : List PartInfo}
    {contents : List Content} (hstored : PartsStored hash files parts contents) :
    ∀ {partOffset total : ℕ} (out : Content), partOffset ≤ (contents.headD []).length →
      total ≤ length →
      partLoop hash files pool length parts partOffset total out =
        ⟨none, out ++ (contents.flatten.drop partOffset).take (length - total)⟩ := by
  induction hstored with
  | nil =>
    intro partOffset total out _ _
    simp [partLoop]
  | @cons part c parts contents hpart hrest ih =>
    obtain ⟨hsize, hfits, size, hfile⟩ := hpart
    intro partOffset total out hoff htotal
    have hoff : partOffset ≤ c.length := hoff
    rw [partLoop]
    split
    · next hdone => simp [hdone]
    · have hread : bitrotReadFromCache hash (fun _ => .ok) (files part.number) (pool part.number)
          partOffset (min (part.size - partOffset) (length - total)) =
            ⟨none, (c.drop partOffset).take (min (part.size - partOffset) (length - total))⟩ := by
        rw [hfile]
        exact bitrotReadFromCache_written hlen size _ hfits (by omega)
      simp only [hread]
      have hleft : length - (total + min (part.size - partOffset) (length - total)) =
          length - total - (c.length - partOffset) := by omega
      have hpiece : (c.drop partOffset).take (min (part.size - partOffset) (length - total)) =
          (c.drop partOffset).take (length - total) := by
        rw [hsize, Nat.min_comm, ← List.length_drop, ← List.take_eq_take_min]
      rw [ih _ (Nat.zero_le _) (by omega), hpiece, hleft, List.append_assoc, List.flatten_cons,
        List.drop_append_of_le_length hoff, List.take_append, List.length_drop, List.drop_zero]

/-- **The part loops agree**: `CacheServe` reads from the contents of the parts what the loop reads from
their files. -/
theorem readParts_written {file : ℕ → Option Content} {parts : List PartInfo} {contents : List Content}
    (hstored : PartsStored hash files parts contents)
    (hfile : List.Forall₂ (fun part c => file part.number = some c) parts contents) (pool : ℕ → Buffer)
    (length : ℕ) :
    CacheServe.readParts file (parts.map fun part => (part.number, part.size)) length =
      some (partLoop hash files pool length parts 0 0 []).out := by
  rw [partLoop_written hlen pool length hstored [] (Nat.zero_le _) (Nat.zero_le _), List.nil_append,
    List.drop_zero, Nat.sub_zero]
  show _ = some (contents.flatten.take length)
  induction hstored generalizing length with
  | nil => simp [CacheServe.readParts]
  | @cons part c parts contents hpart hrest ih =>
    obtain ⟨hc, hfile⟩ := List.forall₂_cons.mp hfile
    rw [List.map_cons, CacheServe.readParts]
    split
    · next hzero => simp [hzero]
    · have hleft : length - min part.size length = length - c.length := by
        rw [hpart.1]
        omega
      have hpiece : c.take (min part.size length) = c.take length := by
        rw [hpart.1, Nat.min_comm, ← List.take_eq_take_min]
      simp only [hc, ih hfile, hleft, hpiece, Option.map_some, List.flatten_cons, List.take_append]

/-- The parts from `k` to `k'` hold the range. -/
theorem partLoop_between (pool : ℕ → Buffer) {parts : List PartInfo} {contents : List Content}
    (hstored : PartsStored hash files parts contents) {off len k k' o : ℕ} (hk : k ≤ k')
    (hoff : off = (contents.take k).flatten.length + o)
    (hfirst : off ≤ (contents.take (k + 1)).flatten.length)
    (hlast : off + len ≤ (contents.take (k' + 1)).flatten.length) :
    partLoop hash files pool len ((parts.take (k' + 1)).drop k) o 0 [] =
      ⟨none, (contents.flatten.drop off).take len⟩ := by
  have hhead : ((contents.take (k' + 1)).drop k).headD [] = contents[k]?.getD [] := by
    rw [List.headD_eq_head?_getD, List.head?_drop, List.getElem?_take_of_lt (by omega)]
  rw [length_flatten_take_succ] at hfirst
  rw [partLoop_written hlen pool len (List.forall₂_drop k (List.forall₂_take (k' + 1) hstored)) []
    (by rw [hhead]; omega) (Nat.zero_le _), List.nil_append, Nat.sub_zero]
  -- the content is what lies before the parts, in them and behind them
  have hmid : (contents.take (k' + 1)).flatten =
      (contents.take k).flatten ++ ((contents.take (k' + 1)).drop k).flatten := by
    have htake : (contents.take (k' + 1)).take k = contents.take k := by
      rw [List.take_take, Nat.min_eq_left (by omega)]
    rw [← htake, ← List.flatten_append, List.take_append_drop]
  have hall : contents.flatten =
      (contents.take (k' + 1)).flatten ++ (contents.drop (k' + 1)).flatten := by
    rw [← List.flatten_append, List.take_append_drop]
  have hin : o + len ≤ ((contents.take (k' + 1)).drop k).flatten.length := by
    rw [hmid, List.length_append] at hlast
    omega
  rw [hall, hmid, List.append_assoc, hoff, ← List.drop_drop, List.drop_left,
    List.drop_append_of_le_length (by omega), List.take_append_of_le_length]
  rw [List.length_drop]
  omega

/-- Of the first part alone, the first byte is read if there is one. -/
theorem partLoop_first_byte (pool : ℕ → Buffer) {part : PartInfo} {c : Content}
    {contents : List Content} (hpart : PartsStored hash files [part] [c])
    (hfits : 1 ≤ (c :: contents).flatten.length) :
    (partLoop hash files pool 1 [part] 0 0 []).out = (c :: contents).flatten.take 1 ↔ c ≠ [] := by
  rw [partLoop_written hlen pool 1 hpart [] (Nat.zero_le _) (Nat.zero_le _)]
  cases c with
  | nil =>
    simp only [List.flatten_cons, List.nil_append, List.flatten_nil, List.drop_nil, List.take_nil,
      ne_eq, not_true_eq_false, iff_false] at hfits ⊢
    intro h
    have hlength := congrArg List.length h
    rw [List.length_take, List.length_nil] at hlength
    omega
  | cons b c => simp

end Parts

theorem PartsStored.sizes {hash : Content → Content} {files : ℕ → Content} {parts : List PartInfo}
    {contents : List Content} (h : PartsStored hash files parts contents) :
    parts.map PartInfo.size = contents.map List.length := by
  induction h with
  | nil => rfl
  | cons hpart _ ih => rw [List.map_cons, List.map_cons, hpart.1, ih]

/-- An empty range: nothing is read. -/
theorem written_getParts_zero (hash : Content → Content) (files : ℕ → Content) (pool : ℕ → Buffer)
    (parts : List PartInfo) (off : ℕ) : written (getParts hash files pool 0 parts off) = [] := by
  have hloop : ∀ (ps : List PartInfo) o, partLoop hash files pool 0 ps o 0 [] = ⟨none, []⟩ := by
    intro ps o
    cases ps with
    | nil => rfl
    | cons p ps => rw [partLoop, if_pos rfl]
  unfold getParts
  simp only [hloop]
  split
  · rfl
  · split
    · rfl
    · rfl

/-- **A range of an object with parts** is read, unless it is the first byte alone and the first part is
empty. -/
theorem written_getParts_iff {hash : Content → Content} (hlen : ∀ b, (hash b).length = hashSize)
    {files : ℕ → Content} (pool : ℕ → Buffer) {parts : List PartInfo} {contents : List Content}
    (hne : parts ≠ []) (hstored : PartsStored hash files parts contents) {off len : ℕ}
    (hfits : off + len ≤ contents.flatten.length) :
    written (getParts hash files pool len parts off) = (contents.flatten.drop off).take len ↔
      ¬ (off = 0 ∧ len = 1 ∧ contents.head? = some []) := by
  by_cases hzero : len = 0
  · subst hzero
    rw [written_getParts_zero, List.take_zero]
    simp
  have hsizes := hstored.sizes
  have htotal : (parts.map PartInfo.size).sum = contents.flatten.length := by
    rw [hsizes, List.length_flatten]
  obtain ⟨k, o, hstart, hoff, hfirst⟩ :=
    cacheObjectToPartOffset_some hsizes off (by omega)
  obtain ⟨k', o', hend, hoff', hlast⟩ :=
    cacheObjectToPartOffset_some hsizes (off + (len - 1)) (by omega)
  have hget : getParts hash files pool len parts off =
      some (partLoop hash files pool len ((parts.take (k' + 1)).drop k) o 0 []) := by
    unfold getParts
    simp only [htotal]
    rw [if_neg (by omega), hstart, if_pos (by omega), hend]
  have hk : k ≤ k' := by
    by_contra hlt
    have hmono := length_flatten_take_mono contents (by omega : k' + 1 ≤ k)
    omega
  have hfirst' : off ≤ (contents.take (k + 1)).flatten.length := by omega
  rw [hget]
  show (partLoop hash files pool len _ o 0 []).out = _ ↔ _
  by_cases hbyte : off = 0 ∧ len = 1
  · -- the first byte: only the first part is read
    obtain ⟨rfl, rfl⟩ := hbyte
    have hzeros : k' = 0 := by
      rw [cacheObjectToPartOffset, if_pos rfl] at hend
      exact (Prod.mk.inj (Option.some.inj hend)).1.symm
    obtain rfl : k = 0 := by omega
    obtain rfl : o = 0 := by omega
    subst hzeros
    cases hstored with
    | nil => exact absurd rfl hne
    | @cons part c parts contents hpart hrest =>
      have hfirst := partLoop_first_byte hlen pool (.cons hpart .nil) hfits
      simpa using hfirst
  · have hlast' : off + (len - 1) < (contents.take (k' + 1)).flatten.length := by omega
    rw [partLoop_between hlen pool hstored hk hoff hfirst' (by omega)]
    simp only [true_iff]
    exact fun h => hbyte ⟨h.1, h.2.1⟩

/-- **Reading back what was cached.**  A range of a file comes back as it was written, and so does a range of
an object with parts, if all parts but the last have bytes.  The files are no longer than an `int64` can
say. -/
theorem cached_range_exact (hash : Content → Content) (hlen : ∀ b, (hash b).length = hashSize) :
    (∀ (c : Content) (size : ℕ) (pool : Buffer) (off len : ℕ), FileFits c → off + len ≤ c.length →
      bitrotReadFromCache hash (fun _ => .ok) (bitrotWriteToCache hash size c) pool off len =
        ⟨none, (c.drop off).take len⟩) ∧
    ∀ files pool parts contents, parts ≠ [] → PartsStored hash files parts contents →
      (∀ c ∈ contents.dropLast, c ≠ []) → ∀ off len, off + len ≤ contents.flatten.length →
        written (getParts hash files pool len parts off) = (contents.flatten.drop off).take len := by
  refine ⟨fun c size pool off len hfile h => bitrotReadFromCache_written hlen size pool hfile h, ?_⟩
  intro files pool parts contents hne hstored hbytes off len hfits
  rw [written_getParts_iff hlen pool hne hstored hfits]
  rintro ⟨-, rfl, hhead⟩
  -- an empty first part is the last one, so that there is no byte
  cases contents with
  | nil => cases hhead
  | cons c contents =>
    obtain rfl : c = [] := Option.some.inj hhead
    cases contents with
    | nil => simp at hfits
    | cons c' contents => exact hbytes [] (by simp) rfl

/-- Two parts of one byte each, of which the second is read. -/
theorem cached_range_exact_two :
    written (getParts headHash
      (fun n => bitrotWriteToCache headHash 1 (if n = 1 then [1] else [2]))
      (fun _ => ⟨List.replicate cacheBlkSize 0, List.length_replicate⟩) 1 [⟨1, 1⟩, ⟨2, 1⟩] 1) =
      [2] :=
  (cached_range_exact headHash headHash_length).2 _ _ [⟨1, 1⟩, ⟨2, 1⟩] [[1], [2]] (by simp)
    (.cons ⟨rfl, by unfold FileFits; decide, 1, rfl⟩
      (.cons ⟨rfl, by unfold FileFits; decide, 1, rfl⟩ .nil)) (by simp) 1 1 (by simp)

/-- **The first byte is lost** when an empty part comes first. -/
theorem first_byte_lost :
    PartsStored headHash
      (fun n => bitrotWriteToCache headHash n (if n = 0 then [] else [1])) [⟨0, 0⟩, ⟨1, 1⟩] [[], [1]] ∧
    ∀ pool, written (getParts headHash
      (fun n => bitrotWriteToCache headHash n (if n = 0 then [] else [1])) pool 1
        [⟨0, 0⟩, ⟨1, 1⟩] 0) = [] := by
  exact ⟨.cons ⟨rfl, by unfold FileFits; decide, 0, rfl⟩
    (.cons ⟨rfl, by unfold FileFits; decide, 1, rfl⟩ .nil), fun pool => rfl⟩

end Zs3Server.Cmd.CacheParts
