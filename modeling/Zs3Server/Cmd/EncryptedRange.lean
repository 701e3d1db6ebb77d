import Zs3Server.Lib.SealedStream
import Zs3Server.Cmd.HttpRange

/-!
# Ranges of encrypted objects

An encrypted object is stored as one stream of packages for each of its parts.  A range of the plaintext
is served from the packages that hold it: `GetDecryptedRange` says where they are, and
`NewGetObjectReader` decrypts them, skips to the range and keeps its length.

* `Sio` — what is assumed of the sizes of sealed streams;
* `getDecryptedRange` — the numbers, as the code computes them; `readEncrypted` — what is served;
* `StoredAs` — what is on disk for an object with given parts;
* `locate_spec` — the part that holds an offset;
* `decryptBlocks_sealed` — decryption of whole packages from the middle of a part to the middle of
  another;
* `sums_le` — the sums of the code are at most the size of the object and one package, so that the
  integers here need not wrap;
* `readEncrypted_eq` — the range of the plaintext.
-/

namespace Zs3Server.Cmd.EncryptedRange

open Lib.ByteString
open Lib.SealedStream
open Cmd.HttpRange

/-! ### Sizes -/

/-- `SSEDAREPackageBlockSize`. -/
def packageBlockSize : ℕ := 64 * 1024

/-- `SSEDAREPackageMetaSize`. -/
def packageMetaSize : ℕ := 32

/-- The largest plaintext of one stream, `2^32` full packages. -/
def maxDecryptedSize : ℕ := 2 ^ 48

theorem packageBlockSize_pos : 0 < packageBlockSize := by decide

theorem lt_packages (n : ℕ) : n < (n / packageBlockSize + 1) * packageBlockSize := by
  rw [Nat.mul_comm]
  exact Nat.lt_mul_div_succ n packageBlockSize_pos

/-! ### Objects on disk -/

/-- A part that is stored: its key and its plaintext. -/
structure StoredPart where
  key : Sealing UInt8 packageBlockSize packageMetaSize
  plain : List UInt8

def plainOf (stored : List StoredPart) : List UInt8 := (stored.map (·.plain)).flatten

/-- The streams of the parts, one after the other. -/
def cipherOf (stored : List StoredPart) : List UInt8 :=
  (stored.map fun part => sealStream part.key 0 part.plain).flatten

def sizesOf (stored : List StoredPart) : List ℕ := stored.map (·.plain.length)

/-- A part up to a number of packages. -/
def StoredPart.cutAfter (x : StoredPart) (n : ℕ) : StoredPart := ⟨x.key, x.plain.take (n * packageBlockSize)⟩

section Stored

variable {P Q stored : List StoredPart}

theorem plainOf_append : plainOf (P ++ Q) = plainOf P ++ plainOf Q := by
  simp [plainOf]

theorem cipherOf_append : cipherOf (P ++ Q) = cipherOf P ++ cipherOf Q := by
  simp [cipherOf]

theorem plainOf_cons (x : StoredPart) : plainOf (x :: Q) = x.plain ++ plainOf Q := rfl

theorem cipherOf_cons (x : StoredPart) : cipherOf (x :: Q) = sealStream x.key 0 x.plain ++ cipherOf Q := rfl

theorem sum_sizesOf : (sizesOf stored).sum = (plainOf stored).length := by
  simp [sizesOf, plainOf, List.length_flatten, Function.comp_def]

theorem plainOf_singleton_cutAfter (x : StoredPart) (n : ℕ) :
    plainOf [x.cutAfter n] = x.plain.take (n * packageBlockSize) := by
  rw [plainOf_cons, StoredPart.cutAfter]
  exact List.append_nil _

theorem cipherOf_singleton_cutAfter (x : StoredPart) (n : ℕ) :
    cipherOf [x.cutAfter n] = sealStream x.key 0 (x.plain.take (n * packageBlockSize)) := by
  rw [cipherOf_cons, StoredPart.cutAfter]
  exact List.append_nil _

theorem plainOf_cutAfter (x : StoredPart) (n : ℕ) :
    plainOf (P ++ [x.cutAfter n]) <+: plainOf (P ++ x :: Q) := by
  rw [plainOf_append, plainOf_append, plainOf_singleton_cutAfter, plainOf_cons]
  refine (List.prefix_append_right_inj _).mpr ?_
  exact (List.take_prefix _ _).trans (List.prefix_append _ _)

/-- A window of a list is the same window of a part of it from the start. -/
theorem window_of_isPrefix {α : Type*} {l₁ l₂ : List α} (h : l₁ <+: l₂) {off length : ℕ}
    (hlen : off + length ≤ l₁.length) : (l₂.drop off).take length = (l₁.drop off).take length := by
  obtain ⟨t, rfl⟩ := h
  rw [List.drop_append_of_le_length (by omega), List.take_append_of_le_length (by rw [List.length_drop]; omega)]

end Stored

/-! ### Decryption of the parts -/

structure ObjectPartInfo where
  number : ℕ
  size : ℕ

/-- The streams of the object key and of the keys derived for the parts. -/
structure Keys where
  object : Sealing UInt8 packageBlockSize packageMetaSize
  part : ℕ → Sealing UInt8 packageBlockSize packageMetaSize

/-- The plaintext that is behind a `DecryptBlocksReader`: each part is decrypted from its own share of the
input, the first from the given package on.  A package that does not open ends the plaintext. -/
def decryptBlocks (keys : Keys) : List ObjectPartInfo → ℕ → List UInt8 → List UInt8
  | [], _, _ => []
  | part :: parts, seqNumber, input =>
    let encLenToRead := part.size - seqNumber * (packageBlockSize + packageMetaSize)
    let plain := openStream (keys.part part.number) seqNumber (input.take encLenToRead)
    if plain.2 then plain.1 ++ decryptBlocks keys parts 0 (input.drop encLenToRead) else plain.1

theorem decryptBlocks_nil (keys : Keys) (parts : List ObjectPartInfo) :
    ∀ s, decryptBlocks keys parts s [] = [] := by
  induction parts with
  | nil =>
    intro s
    rfl
  | cons part parts ih =>
    intro s
    have hopen : openStream (keys.part part.number) s [] = ([], true) := rfl
    simp only [decryptBlocks, List.take_nil, List.drop_nil, hopen, if_true, ih, List.append_nil]

/-- The share of the input that belongs to one part is decrypted, and the rest is left to the parts after
it. -/
theorem decryptBlocks_cons {keys : Keys} {part : ObjectPartInfo} {rest : List ObjectPartInfo}
    {key : Sealing UInt8 packageBlockSize packageMetaSize} (hkey : keys.part part.number = key) {s : ℕ}
    {plain tail : List UInt8}
    (htail : tail = [] ∧ (sealStream key s plain).length ≤
        part.size - s * (packageBlockSize + packageMetaSize) ∨
      (sealStream key s plain).length = part.size - s * (packageBlockSize + packageMetaSize)) :
    decryptBlocks keys (part :: rest) s (sealStream key s plain ++ tail) =
      plain ++ decryptBlocks keys rest 0 tail := by
  have hsplit : (sealStream key s plain ++ tail).take
        (part.size - s * (packageBlockSize + packageMetaSize)) = sealStream key s plain ∧
      (sealStream key s plain ++ tail).drop
        (part.size - s * (packageBlockSize + packageMetaSize)) = tail := by
    rcases htail with ⟨rfl, hle⟩ | heq
    · rw [List.append_nil]
      exact ⟨List.take_of_length_le hle, List.drop_eq_nil_of_le hle⟩
    · rw [← heq]
      exact ⟨List.take_left, List.drop_left⟩
  simp only [decryptBlocks, hsplit.1, hsplit.2, hkey, openStream_sealStream packageBlockSize_pos, if_true]

/-! ### The sizes of the streams -/

/-- **What is assumed of the sizes of `minio/sio`.**  A plaintext of up to `maxDecryptedSize` bytes is
sealed in packages of `packageBlockSize` bytes, of which only the last may be smaller, each longer by
`packageMetaSize`; and the size of a stream gives that of its plaintext. -/
class Sio where
  /-- `sio.EncryptedSize` without its error, which the callers drop. -/
  encryptedSize : ℕ → ℕ
  /-- `sio.DecryptedSize`; `none` is its error. -/
  decryptedSize : ℕ → Option ℕ
  encryptedSize_of_le : ∀ {n : ℕ}, n ≤ maxDecryptedSize →
    encryptedSize n = sealedLength packageBlockSize packageMetaSize n
  decryptedSize_encryptedSize : ∀ {n : ℕ}, n ≤ maxDecryptedSize →
    decryptedSize (encryptedSize n) = some n

open Sio

section Ranges

variable [Sio]

/-! ### The range to read -/

/-- The fields of `ObjectInfo` that are read: `encrypted` and `multipart` are what `crypto.IsEncrypted`
and `crypto.IsMultiPart` say of the metadata. -/
structure ObjectInfo where
  encrypted : Bool
  multipart : Bool
  erasureBackend : Bool
  etag : GoString
  size : ℕ
  parts : List ObjectPartInfo

def ObjectInfo.isMultipart (o : ObjectInfo) : Bool :=
  if o.parts.length = 0 then false
  else if o.encrypted && !o.multipart then false
  else if o.encrypted && o.parts.any fun part => (decryptedSize part.size).isNone then false
  else !(o.erasureBackend && o.etag.length == 32)

inductive EncError where
  | notEncrypted
  | objectTampered
  | range (e : RangeError)

/-- `sio.DecryptedSize` of one part. -/
def partSize (size : ℕ) : Except EncError ℕ :=
  match decryptedSize size with
  | none => .error .objectTampered
  | some n => .ok n

/-- The decrypted sizes of the parts; an object that is not multipart has one. -/
def ObjectInfo.sizes (o : ObjectInfo) : Except EncError (List ℕ) :=
  if o.isMultipart then o.parts.mapM fun part => partSize part.size
  else (partSize o.size).map fun n => [n]

/-- A part with the sums of the sizes before it. -/
structure Located where
  index : ℕ
  sum : ℤ
  encSum : ℤ

/-- The loop that looks for the part with an offset.  If there is none, the index keeps the zero that
it was declared with. -/
def locate (off : ℤ) : ℕ → ℤ → ℤ → List ℕ → Located
  | _, sum, encSum, [] => ⟨0, sum, encSum⟩
  | i, sum, encSum, size :: sizes =>
    if off < sum + size then ⟨i, sum, encSum⟩
    else locate off (i + 1) (sum + size) (encSum + encryptedSize size) sizes

structure DecryptedRange where
  encOff : ℤ
  encLength : ℤ
  skipLen : ℤ
  seqNumber : ℕ
  partStart : ℕ

/-- The end of the package with an offset in the located part, whose last package may be smaller. -/
def endEncOffset (sizes : List ℕ) (endOffset : ℤ) (last : Located) : ℤ :=
  let endPkgNum := (endOffset - last.sum).tdiv packageBlockSize
  let endEncOffset := last.encSum + (endPkgNum + 1) * (packageBlockSize + packageMetaSize : ℕ)
  let lastPartSize := encryptedSize (sizes[last.index]?.getD 0)
  if endEncOffset > last.encSum + lastPartSize then last.encSum + lastPartSize else endEncOffset

/-- The computation on the sizes, with the offset and the length of the range. -/
def decryptedRange (sizes : List ℕ) (off length : ℤ) : DecryptedRange :=
  let first := locate off 0 0 0 sizes
  let startPkgNum := (off - first.sum).tdiv packageBlockSize
  let encOff := first.encSum + startPkgNum * (packageBlockSize + packageMetaSize : ℕ)
  let endOffset := off + length - 1
  let last := locate endOffset first.index first.sum first.encSum (sizes.drop first.index)
  { encOff := encOff
    encLength := endEncOffset sizes endOffset last - encOff
    skipLen := (off - first.sum).tmod packageBlockSize
    seqNumber := (startPkgNum % 2 ^ 32).toNat
    partStart := first.index }

/-- `GetDecryptedRange`. -/
def getDecryptedRange (o : ObjectInfo) (rs : Option HTTPRangeSpec) : Except EncError DecryptedRange :=
  if o.encrypted = false then .error .notEncrypted
  else match rs with
  | none => .ok ⟨0, o.size, 0, 0, 0⟩
  | some rs =>
    match o.sizes with
    | .error e => .error e
    | .ok sizes =>
      match getOffsetLength (some rs) sizes.sum with
      | .error e => .error (.range e)
      | .ok (off, length) => .ok (decryptedRange sizes off length)

/-! ### What is served -/

/-- `DecryptBlocksRequestR`. -/
def decryptBlocksRequestR (keys : Keys) (o : ObjectInfo) (seqNumber partStart : ℕ) (input : List UInt8) :
    List UInt8 :=
  if o.isMultipart = false then (openStream keys.object seqNumber input).1
  else decryptBlocks keys (o.parts.drop partStart) seqNumber input

/-- `DecryptedSize`. -/
def ObjectInfo.decryptedSize (o : ObjectInfo) : Except EncError ℕ :=
  if o.encrypted = false then .error .notEncrypted else o.sizes.map List.sum

/-- The reader of `NewGetObjectReader` for an encrypted object, on the bytes of the object on disk. -/
def readEncrypted (keys : Keys) (o : ObjectInfo) (rs : Option HTTPRangeSpec) (cipher : List UInt8) :
    Except EncError (List UInt8) :=
  match getDecryptedRange o rs with
  | .error e => .error e
  | .ok r =>
    match o.decryptedSize with
    | .error e => .error e
    | .ok decSize =>
      match getLength rs decSize with
      | .error e => .error (.range e)
      | .ok decRangeLength =>
        .ok (((decryptBlocksRequestR keys o r.seqNumber r.partStart
          ((cipher.drop r.encOff.toNat).take r.encLength.toNat)).drop r.skipLen.toNat).take
            decRangeLength.toNat)

/-! ### What the metadata lists -/

/-- The metadata lists the stored parts. -/
def Lists (keys : Keys) (parts : List ObjectPartInfo) (stored : List StoredPart) : Prop :=
  parts.map (fun part => (part.size, keys.part part.number)) =
    stored.map fun part => (encryptedSize part.plain.length, part.key)

/-- What an encrypted object is on disk: the parts that the metadata lists, each sealed with the key of
its number, or one stream of the object key. -/
structure StoredAs (keys : Keys) (o : ObjectInfo) (stored : List StoredPart) : Prop where
  encrypted : o.encrypted = true
  nonempty : stored ≠ []
  bounded : ∀ part ∈ stored, part.plain.length ≤ maxDecryptedSize
  size : o.size = (cipherOf stored).length
  single : o.isMultipart = false → ∃ plain, stored = [⟨keys.object, plain⟩]
  multi : o.isMultipart = true → Lists keys o.parts stored

section Stored

variable {P Q stored : List StoredPart}

theorem length_sealed {x : StoredPart} (h : x.plain.length ≤ maxDecryptedSize) :
    (sealStream x.key 0 x.plain).length = encryptedSize x.plain.length := by
  rw [encryptedSize_of_le h]
  exact length_sealStream packageBlockSize_pos _ _

/-- **The loop finds the part that holds an offset**, with the plaintext and the packages before it. -/
theorem locate_spec (off : ℤ) : ∀ (stored : List StoredPart) (i : ℕ) (sum encSum : ℤ),
    (∀ part ∈ stored, part.plain.length ≤ maxDecryptedSize) → sum ≤ off →
    off < sum + (plainOf stored).length →
    ∃ P x R, stored = P ++ x :: R ∧
      locate off i sum encSum (sizesOf stored) =
        ⟨i + P.length, sum + (plainOf P).length, encSum + (cipherOf P).length⟩ ∧
      sum + (plainOf P).length ≤ off ∧ off < sum + (plainOf P).length + x.plain.length := by
  intro stored
  induction stored with
  | nil =>
    intro i sum encSum _ hle hlt
    simp only [plainOf, List.map_nil, List.flatten_nil, List.length_nil] at hlt
    omega
  | cons x stored ih =>
    intro i sum encSum hbound hle hlt
    rw [plainOf_cons, List.length_append] at hlt
    by_cases hhere : off < sum + x.plain.length
    · refine ⟨[], x, stored, rfl, ?_, ?_, ?_⟩
      · show (if off < sum + x.plain.length then _ else _) = _
        rw [if_pos hhere]
        simp [plainOf, cipherOf]
      · simpa [plainOf] using hle
      · simpa [plainOf] using hhere
    · obtain ⟨P, y, R, rfl, hloc, hP, hy⟩ := ih (i + 1) (sum + x.plain.length)
        (encSum + encryptedSize x.plain.length) (fun part hp => hbound part (List.mem_cons_of_mem x hp))
        (by omega) (by push_cast at hlt; omega)
      have hlen : (plainOf (x :: P)).length = x.plain.length + (plainOf P).length := by
        rw [plainOf_cons, List.length_append]
      have henc : (cipherOf (x :: P)).length = encryptedSize x.plain.length + (cipherOf P).length := by
        rw [cipherOf_cons, List.length_append, length_sealed (hbound x List.mem_cons_self)]
      refine ⟨x :: P, y, R, rfl, ?_, ?_, ?_⟩
      · show (if off < sum + x.plain.length then _ else _) = _
        rw [if_neg hhere, hlen, henc]
        refine hloc.trans ?_
        rw [List.length_cons]
        push_cast
        congr 1
        · omega
        · omega
        · omega
      · rw [hlen]
        push_cast
        omega
      · rw [hlen]
        push_cast
        omega

/-! ### Decryption of whole packages -/

/-- The packages before the end of one of them are those of the object that ends there. -/
theorem take_cipherOf (x : StoredPart) (n : ℕ) (hx : x.plain.length ≤ maxDecryptedSize) :
    (cipherOf (P ++ x :: Q)).take ((cipherOf P).length +
      min (n * (packageBlockSize + packageMetaSize)) (encryptedSize x.plain.length)) =
        cipherOf (P ++ [x.cutAfter n]) := by
  rw [cipherOf_append, cipherOf_append, List.take_length_add_append, cipherOf_cons,
    cipherOf_singleton_cutAfter]
  congr 1
  have hle : min (n * (packageBlockSize + packageMetaSize)) (encryptedSize x.plain.length) ≤
      (sealStream x.key 0 x.plain).length := by
    rw [length_sealed hx]
    exact Nat.min_le_right _ _
  rw [List.take_append_of_le_length hle, ← length_sealed hx, ← List.take_eq_take_min,
    take_sealStream packageBlockSize_pos]

theorem Lists.exists_cons {keys : Keys} {parts : List ObjectPartInfo} {x : StoredPart}
    (h : Lists keys parts (x :: Q)) : ∃ part rest, parts = part :: rest ∧
      part.size = encryptedSize x.plain.length ∧ keys.part part.number = x.key ∧ Lists keys rest Q := by
  cases parts with
  | nil => cases h
  | cons part rest =>
    obtain ⟨hhead, htail⟩ := List.cons.inj h
    obtain ⟨hsize, hkey⟩ := Prod.mk.inj hhead
    exact ⟨part, rest, rfl, hsize, hkey, htail⟩

theorem Lists.drop {keys : Keys} {parts : List ObjectPartInfo} (h : Lists keys parts stored) (n : ℕ) :
    Lists keys (parts.drop n) (stored.drop n) := by
  unfold Lists at h ⊢
  rw [List.map_drop, List.map_drop, h]

/-- The start of a package inside the plaintext is the start of one inside the stream. -/
theorem mul_le_encryptedSize {x : StoredPart} (hx : x.plain.length ≤ maxDecryptedSize) {s : ℕ}
    (hs : s * packageBlockSize ≤ x.plain.length) :
    s * (packageBlockSize + packageMetaSize) ≤ encryptedSize x.plain.length := by
  rw [encryptedSize_of_le hx]
  have hdiv : s ≤ x.plain.length / packageBlockSize :=
    (Nat.le_div_iff_mul_le packageBlockSize_pos).mpr hs
  unfold sealedLength
  exact (Nat.mul_le_mul_right _ hdiv).trans (Nat.le_add_right _ _)

/-- **Packages from the middle of a part to the middle of another decrypt to their payloads.** -/
theorem decryptBlocks_sealed {keys : Keys} {x : StoredPart} (n : ℕ) (M : List StoredPart) :
    ∀ (parts : List ObjectPartInfo) (s : ℕ), Lists keys parts (M ++ x :: Q) →
      (∀ part ∈ M ++ [x], part.plain.length ≤ maxDecryptedSize) →
      (∀ y ∈ M.head?, s * packageBlockSize ≤ y.plain.length) →
      decryptBlocks keys parts s
          ((cipherOf (M ++ [x.cutAfter n])).drop (s * (packageBlockSize + packageMetaSize))) =
        (plainOf (M ++ [x.cutAfter n])).drop (s * packageBlockSize) := by
  induction M with
  | nil =>
    intro parts s hparts hbound _
    obtain ⟨part, rest, rfl, hsize, hkey, -⟩ := hparts.exists_cons
    have hx := hbound x List.mem_cons_self
    have hcipher : (cipherOf ([] ++ [x.cutAfter n])).drop (s * (packageBlockSize + packageMetaSize)) =
        sealStream x.key s ((x.plain.take (n * packageBlockSize)).drop (s * packageBlockSize)) ++ [] := by
      rw [List.nil_append, cipherOf_singleton_cutAfter, List.append_nil,
        drop_sealStream packageBlockSize_pos, Nat.zero_add]
    have hlen : (sealStream x.key s
        ((x.plain.take (n * packageBlockSize)).drop (s * packageBlockSize))).length ≤
          part.size - s * (packageBlockSize + packageMetaSize) := by
      have hdrop := drop_sealStream (S := x.key) packageBlockSize_pos s 0
        (x.plain.take (n * packageBlockSize))
      rw [Nat.zero_add, ← take_sealStream packageBlockSize_pos] at hdrop
      rw [← hdrop, List.length_drop, List.length_take, length_sealed hx, ← hsize]
      exact Nat.sub_le_sub_right (Nat.min_le_right _ _) _
    rw [hcipher, decryptBlocks_cons hkey (Or.inl ⟨rfl, hlen⟩), decryptBlocks_nil, List.nil_append,
      plainOf_singleton_cutAfter, List.append_nil]
  | cons y M ih =>
    intro parts s hparts hbound hs
    obtain ⟨part, rest, rfl, hsize, hkey, hrest⟩ := hparts.exists_cons
    have hy := hbound y List.mem_cons_self
    have hsy := hs y rfl
    have hle := mul_le_encryptedSize hy hsy
    rw [List.cons_append, cipherOf_cons, plainOf_cons,
      List.drop_append_of_le_length (by rw [length_sealed hy]; exact hle),
      List.drop_append_of_le_length hsy, drop_sealStream packageBlockSize_pos, Nat.zero_add]
    have hlen : (sealStream y.key s (y.plain.drop (s * packageBlockSize))).length =
        part.size - s * (packageBlockSize + packageMetaSize) := by
      have hdrop := drop_sealStream (S := y.key) packageBlockSize_pos s 0 y.plain
      rw [Nat.zero_add] at hdrop
      rw [← hdrop, List.length_drop, length_sealed hy, ← hsize]
    rw [decryptBlocks_cons hkey (Or.inr hlen)]
    have htail := ih rest 0 hrest (fun p hp => hbound p (List.mem_cons_of_mem y hp))
      (fun z _ => by rw [Nat.zero_mul]; exact Nat.zero_le _)
    rw [Nat.zero_mul, Nat.zero_mul, List.drop_zero, List.drop_zero] at htail
    rw [htail]

/-! ### The numbers -/

/-- The range is served from the packages from `s` of the part after `P` to the one before `n` of `x`. -/
structure Spans (stored : List StoredPart) (off length : ℕ) (r : DecryptedRange) (P M : List StoredPart)
    (x : StoredPart) (Q : List StoredPart) (s n : ℕ) : Prop where
  parts : stored = P ++ (M ++ x :: Q)
  start : r.partStart = P.length
  seq : r.seqNumber = s
  encOff : r.encOff = ((cipherOf P).length + s * (packageBlockSize + packageMetaSize) : ℕ)
  encEnd : r.encOff + r.encLength = ((cipherOf (P ++ M)).length +
    min (n * (packageBlockSize + packageMetaSize)) (encryptedSize x.plain.length) : ℕ)
  skip : ∃ skip : ℕ, r.skipLen = skip ∧ off = (plainOf P).length + s * packageBlockSize + skip
  inside : ∀ y ∈ M.head?, s * packageBlockSize ≤ y.plain.length
  covered : off + length ≤ (plainOf (P ++ M)).length + min (n * packageBlockSize) x.plain.length

/-- The package of the end is clipped to its part. -/
theorem endEncOffset_eq {sizes : List ℕ} {last : Located} {endOffset : ℤ} {e size : ℕ}
    (hsize : sizes[last.index]? = some size) (hoff : endOffset - last.sum = e) :
    endEncOffset sizes endOffset last = last.encSum +
      (min ((e / packageBlockSize + 1) * (packageBlockSize + packageMetaSize)) (encryptedSize size) : ℕ) := by
  simp only [endEncOffset, hsize, hoff, Option.getD_some, ← Int.ofNat_tdiv]
  split
  · next h =>
    rw [Nat.min_eq_right (by push_cast at h; zify; linarith)]
  · next h =>
    rw [Nat.min_eq_left (by push_cast at h; zify; linarith)]
    push_cast
    rfl

/-- What the loop finds for the first byte of a range. -/
def locateFirst (sizes : List ℕ) (off : ℤ) : Located := locate off 0 0 0 sizes

/-- What the second loop finds for the last byte, from the part of the first one on. -/
def locateLast (sizes : List ℕ) (off length : ℤ) : Located :=
  let first := locateFirst sizes off
  locate (off + length - 1) first.index first.sum first.encSum (sizes.drop first.index)

/-- **The loops find the parts of the range.** -/
theorem exists_located (hbound : ∀ part ∈ stored, part.plain.length ≤ maxDecryptedSize)
    {off length : ℕ} (hpos : 0 < length) (hin : off + length ≤ (plainOf stored).length) :
    ∃ P M x Q, stored = P ++ (M ++ x :: Q) ∧
      locateFirst (sizesOf stored) off = ⟨P.length, (plainOf P).length, (cipherOf P).length⟩ ∧
      locateLast (sizesOf stored) off length =
        ⟨(P ++ M).length, (plainOf (P ++ M)).length, (cipherOf (P ++ M)).length⟩ ∧
      (plainOf P).length ≤ off ∧
      (∀ y ∈ (M ++ [x]).head?, off < (plainOf P).length + y.plain.length) ∧
      (plainOf (P ++ M)).length < off + length ∧
      off + length ≤ (plainOf (P ++ M)).length + x.plain.length := by
  obtain ⟨P, y, R, rfl, hfirst, hP, hy⟩ := locate_spec (off : ℤ) stored 0 0 0 hbound (by omega) (by omega)
  have hlen : (plainOf (P ++ y :: R)).length = (plainOf P).length + (plainOf (y :: R)).length := by
    rw [plainOf_append, List.length_append]
  obtain ⟨M, x, Q, hyR, hlast, hM, hx⟩ := locate_spec ((off : ℤ) + length - 1) (y :: R) P.length
    (plainOf P).length (cipherOf P).length
    (fun part hpart => hbound part (List.mem_append_right P hpart)) (by omega) (by omega)
  have hdrop : (sizesOf (P ++ y :: R)).drop P.length = sizesOf (y :: R) := by
    simp [sizesOf]
  have hfirst' : locateFirst (sizesOf (P ++ y :: R)) off =
      ⟨P.length, (plainOf P).length, (cipherOf P).length⟩ := by
    rw [locateFirst, hfirst, Nat.zero_add, Int.zero_add, Int.zero_add]
  have hPM : (plainOf (P ++ M)).length = (plainOf P).length + (plainOf M).length := by
    rw [plainOf_append, List.length_append]
  refine ⟨P, M, x, Q, by rw [hyR], hfirst', ?_, by omega, ?_, by omega, by omega⟩
  · rw [locateLast, hfirst']
    dsimp only
    rw [hdrop, hlast, hPM, List.length_append, cipherOf_append, List.length_append]
    push_cast
    rfl
  · intro z hz
    obtain rfl : y = z := by
      cases M with
      | nil => exact (List.cons.inj hyR).1.trans (Option.some.inj hz)
      | cons y' M => exact (List.cons.inj hyR).1.trans (Option.some.inj hz)
    omega

theorem length_plainOf_le (hbound : ∀ part ∈ stored, part.plain.length ≤ maxDecryptedSize) :
    (plainOf stored).length ≤ (cipherOf stored).length := by
  induction stored with
  | nil => exact Nat.le_refl _
  | cons x stored ih =>
    have hrest := ih fun part hpart => hbound part (List.mem_cons_of_mem x hpart)
    have hx : x.plain.length ≤ (sealStream x.key 0 x.plain).length := by
      rw [length_sealed (hbound x List.mem_cons_self), encryptedSize_of_le (hbound x List.mem_cons_self)]
      have hsplit := Nat.div_add_mod x.plain.length packageBlockSize
      rw [Nat.mul_comm] at hsplit
      unfold sealedLength
      rw [Nat.mul_add]
      split <;> omega
    rw [plainOf_cons, cipherOf_cons, List.length_append, List.length_append]
    exact Nat.add_le_add hx hrest

/-- **No sum wraps.**  The sums of the loops and the end of the last package, before it is clipped, are at
most the size of the object and one package: as `int64` they do not wrap for an object below `2^63` bytes
less one package. -/
theorem sums_le (hbound : ∀ part ∈ stored, part.plain.length ≤ maxDecryptedSize)
    {off length : ℕ} (hpos : 0 < length) (hin : off + length ≤ (plainOf stored).length) :
    let first := locateFirst (sizesOf stored) off
    let last := locateLast (sizesOf stored) off length
    let endPkgNum := ((off : ℤ) + length - 1 - last.sum).tdiv packageBlockSize
    ∀ z ∈ [first.sum, first.encSum, last.sum, last.encSum, (off : ℤ) + length,
        last.encSum + (endPkgNum + 1) * (packageBlockSize + packageMetaSize : ℕ)],
      0 ≤ z ∧ z ≤ (cipherOf stored).length + (packageBlockSize + packageMetaSize : ℕ) := by
  obtain ⟨P, M, x, Q, hstored, hfirst, hlast, hP, -, hM, hx⟩ := exists_located hbound hpos hin
  have hle := length_plainOf_le hbound
  have hxbound : x.plain.length ≤ maxDecryptedSize := hbound x (by rw [hstored]; simp)
  have hplain : (plainOf (P ++ M)).length = (plainOf P).length + (plainOf M).length := by
    rw [plainOf_append, List.length_append]
  have hcipher : (cipherOf (P ++ M)).length = (cipherOf P).length + (cipherOf M).length := by
    rw [cipherOf_append, List.length_append]
  have hwhole : (cipherOf (P ++ M)).length + encryptedSize x.plain.length ≤ (cipherOf stored).length := by
    rw [hstored, ← List.append_assoc, cipherOf_append (P := P ++ M), List.length_append, cipherOf_cons,
      List.length_append, length_sealed hxbound, ← Nat.add_assoc]
    exact Nat.le_add_right _ _
  obtain ⟨e, he⟩ : ∃ e : ℕ, off + length = (plainOf (P ++ M)).length + e + 1 :=
    ⟨off + length - 1 - (plainOf (P ++ M)).length, by omega⟩
  have hend : (off : ℤ) + length - 1 - (plainOf (P ++ M)).length = e := by omega
  -- the last byte lies in a package that starts inside the part
  have hpkg := mul_le_encryptedSize hxbound (s := e / packageBlockSize)
    ((Nat.div_mul_le_self e packageBlockSize).trans (by omega))
  simp only [hfirst, hlast, hend, ← Int.ofNat_tdiv, List.forall_mem_cons, List.not_mem_nil,
    false_imp_iff, implies_true, and_true]
  generalize e / packageBlockSize = k at hpkg
  generalize packageBlockSize + packageMetaSize = w at hpkg
  have hlow : (0 : ℤ) ≤ k * w := by positivity
  have hhigh : (k : ℤ) * w ≤ encryptedSize x.plain.length := by exact_mod_cast hpkg
  rw [add_mul]
  refine ⟨?_, ?_, ?_, ?_, ?_, ?_⟩ <;> omega

/-- **The numbers that `GetDecryptedRange` computes.** -/
theorem decryptedRange_spans (hbound : ∀ part ∈ stored, part.plain.length ≤ maxDecryptedSize)
    {off length : ℕ} (hpos : 0 < length) (hin : off + length ≤ (plainOf stored).length) :
    ∃ P M x Q s n, Spans stored off length (decryptedRange (sizesOf stored) off length) P M x Q s n := by
  obtain ⟨P, M, x, Q, hstored, hfirst, hlast, hP, hhead, hM, hx⟩ := exists_located hbound hpos hin
  unfold locateFirst at hfirst
  unfold locateLast locateFirst at hlast
  rw [hfirst] at hlast
  dsimp only at hlast
  obtain ⟨a, ha⟩ : ∃ a : ℕ, off = (plainOf P).length + a := ⟨off - (plainOf P).length, by omega⟩
  obtain ⟨e, he⟩ : ∃ e : ℕ, off + length = (plainOf (P ++ M)).length + e + 1 :=
    ⟨off + length - 1 - (plainOf (P ++ M)).length, by omega⟩
  have hstart : (off : ℤ) - ((plainOf P).length : ℤ) = a := by omega
  have hsplit := Nat.div_add_mod a packageBlockSize
  rw [Nat.mul_comm] at hsplit
  have hseq : a / packageBlockSize < 2 ^ 32 := by
    obtain ⟨y, hy⟩ : ∃ y, (M ++ [x]).head? = some y := ⟨(M ++ [x]).head (by simp), List.head?_eq_some_head _⟩
    have hmem : y ∈ stored := by
      have := List.mem_of_head? hy
      rw [hstored]
      simp only [List.mem_append, List.mem_cons, List.not_mem_nil, or_false] at this ⊢
      tauto
    have hb := hbound y hmem
    have hay := hhead y hy
    unfold maxDecryptedSize at hb
    unfold packageBlockSize
    omega
  refine ⟨P, M, x, Q, a / packageBlockSize, e / packageBlockSize + 1, hstored, ?_, ?_, ?_, ?_, ?_, ?_, ?_⟩
  · simp only [decryptedRange, hfirst]
  · simp only [decryptedRange, hfirst, hstart, ← Int.ofNat_tdiv]
    generalize a / packageBlockSize = s at hseq
    omega
  · simp only [decryptedRange, hfirst, hstart, ← Int.ofNat_tdiv]
    push_cast
    ring
  · have hend : ((off : ℤ) + length - 1) - ((plainOf (P ++ M)).length : ℤ) = e := by
      omega
    have hindex : (sizesOf stored)[(P ++ M).length]? = some x.plain.length := by
      rw [hstored, ← List.append_assoc]
      simp [sizesOf]
    simp only [decryptedRange, hfirst, hlast]
    rw [endEncOffset_eq hindex hend]
    push_cast
    ring
  · refine ⟨a % packageBlockSize, ?_, ?_⟩
    · simp only [decryptedRange, hfirst, hstart, ← Int.ofNat_tmod]
    · omega
  · intro z hz
    cases M with
    | nil => cases hz
    | cons y M =>
      have hy := hhead y rfl
      obtain rfl := Option.some.inj hz
      omega
  · have hex : e < x.plain.length := by omega
    rw [he, Nat.add_assoc]
    exact Nat.add_le_add_left (Nat.le_min.mpr ⟨lt_packages e, hex⟩) _

/-- The packages that are read, as those of an object that starts and ends with them. -/
theorem Spans.input {off length : ℕ} {r : DecryptedRange} {P M Q : List StoredPart} {x : StoredPart} {s n : ℕ}
    (h : Spans stored off length r P M x Q s n)
    (hbound : ∀ part ∈ stored, part.plain.length ≤ maxDecryptedSize) :
    ((cipherOf stored).drop r.encOff.toNat).take r.encLength.toNat =
      (cipherOf (M ++ [x.cutAfter n])).drop (s * (packageBlockSize + packageMetaSize)) := by
  have hx : x.plain.length ≤ maxDecryptedSize := hbound x (by rw [h.parts]; simp)
  have hstart := h.encOff
  have hend := h.encEnd
  have hlength : r.encLength.toNat = (cipherOf (P ++ M)).length +
      min (n * (packageBlockSize + packageMetaSize)) (encryptedSize x.plain.length) - r.encOff.toNat := by
    omega
  rw [hlength, ← List.drop_take, h.parts, ← List.append_assoc, take_cipherOf x n hx, List.append_assoc,
    cipherOf_append, hstart, Int.toNat_natCast, ← List.drop_drop, List.drop_left]

/-- **What is read decrypts to a start of the plaintext from the first package on.** -/
theorem Spans.decrypts {keys : Keys} {o : ObjectInfo} (hstored : StoredAs keys o stored) {off length : ℕ}
    {r : DecryptedRange} {P M Q : List StoredPart} {x : StoredPart} {s n : ℕ}
    (h : Spans stored off length r P M x Q s n) :
    decryptBlocksRequestR keys o r.seqNumber r.partStart
        (((cipherOf stored).drop r.encOff.toNat).take r.encLength.toNat) =
      (plainOf (M ++ [x.cutAfter n])).drop (s * packageBlockSize) := by
  rw [h.input hstored.bounded, h.seq, h.start]
  unfold decryptBlocksRequestR
  by_cases hmulti : o.isMultipart = false
  · rw [if_pos hmulti]
    -- the only part is that of the object key
    obtain ⟨plain, hplain⟩ := hstored.single hmulti
    obtain ⟨rfl, rfl, rfl⟩ : P = [] ∧ M = [] ∧ x = ⟨keys.object, plain⟩ := by
      have hparts := h.parts
      rw [hplain] at hparts
      cases P with
      | nil =>
        cases M with
        | nil => exact ⟨rfl, rfl, (List.cons.inj hparts).1.symm⟩
        | cons y M => simp at hparts
      | cons y P => simp at hparts
    show (openStream keys.object s ((sealStream keys.object 0 _ ++ []).drop _)).1 = (_ ++ []).drop _
    rw [List.append_nil, List.append_nil, drop_sealStream packageBlockSize_pos, Nat.zero_add,
      openStream_sealStream packageBlockSize_pos]
  · rw [if_neg hmulti]
    have hlists := (hstored.multi (by simpa using hmulti)).drop P.length
    rw [h.parts, List.drop_left] at hlists
    refine decryptBlocks_sealed n M _ s hlists ?_ h.inside
    intro part hpart
    refine hstored.bounded part ?_
    rw [h.parts]
    rcases List.mem_append.mp hpart with hm | hm
    · exact List.mem_append_right P (List.mem_append_left _ hm)
    · obtain rfl := List.mem_singleton.mp hm
      exact List.mem_append_right P (List.mem_append_right M List.mem_cons_self)

/-- The decrypted part dropped to the range is the range. -/
theorem Spans.window {off length : ℕ} {r : DecryptedRange} {P M Q : List StoredPart} {x : StoredPart}
    {s n : ℕ} (h : Spans stored off length r P M x Q s n) :
    (((plainOf (M ++ [x.cutAfter n])).drop (s * packageBlockSize)).drop r.skipLen.toNat).take length =
      ((plainOf stored).drop off).take length := by
  obtain ⟨skip, hskip, hoff⟩ := h.skip
  have hlen : (plainOf (P ++ (M ++ [x.cutAfter n]))).length =
      (plainOf (P ++ M)).length + min (n * packageBlockSize) x.plain.length := by
    rw [← List.append_assoc, plainOf_append, List.length_append]
    show _ + (x.plain.take _ ++ []).length = _
    rw [List.append_nil, List.length_take]
  have hprefix : plainOf (P ++ (M ++ [x.cutAfter n])) <+: plainOf stored := by
    rw [h.parts, ← List.append_assoc, ← List.append_assoc]
    exact plainOf_cutAfter x n
  have hdrop : ∀ m, (plainOf (P ++ (M ++ [x.cutAfter n]))).drop ((plainOf P).length + m) =
      (plainOf (M ++ [x.cutAfter n])).drop m := by
    intro m
    rw [plainOf_append, ← List.drop_drop, List.drop_left]
  rw [window_of_isPrefix hprefix (by rw [hlen]; exact h.covered), hskip, Int.toNat_natCast, List.drop_drop, hoff,
    Nat.add_assoc, hdrop]

end Stored

/-! ### The range that is served -/

section Serve

variable {keys : Keys} {o : ObjectInfo} {stored : List StoredPart}

theorem mapM_partSize {parts : List ObjectPartInfo} : ∀ {stored : List StoredPart}, Lists keys parts stored →
    (∀ part ∈ stored, part.plain.length ≤ maxDecryptedSize) →
    parts.mapM (fun part => partSize part.size) = .ok (sizesOf stored) := by
  induction parts with
  | nil =>
    intro stored h _
    cases stored with
    | nil => rfl
    | cons x stored => cases h
  | cons part parts ih =>
    intro stored h hbound
    cases stored with
    | nil => cases h
    | cons x stored =>
      obtain ⟨p, rest, hp, hsize, -, hrest⟩ := h.exists_cons
      obtain ⟨rfl, rfl⟩ := List.cons.inj hp
      have hone : partSize part.size = .ok x.plain.length := by
        unfold partSize
        rw [hsize, decryptedSize_encryptedSize (hbound x List.mem_cons_self)]
      have hrec := ih hrest fun p hp => hbound p (List.mem_cons_of_mem x hp)
      rw [List.mapM_cons, hone, hrec]
      rfl

/-- The sizes that the code reconstructs are those of the parts. -/
theorem StoredAs.sizes (h : StoredAs keys o stored) : o.sizes = .ok (sizesOf stored) := by
  unfold ObjectInfo.sizes
  cases hmulti : o.isMultipart with
  | true =>
    rw [if_pos rfl]
    exact mapM_partSize (h.multi hmulti) h.bounded
  | false =>
    rw [if_neg (by simp)]
    obtain ⟨plain, rfl⟩ := h.single hmulti
    have hplain : plain.length ≤ maxDecryptedSize := h.bounded _ List.mem_cons_self
    have hsize : o.size = encryptedSize plain.length := by
      rw [h.size]
      show (sealStream keys.object 0 plain ++ []).length = _
      rw [List.append_nil, encryptedSize_of_le hplain]
      exact length_sealStream packageBlockSize_pos plain 0
    unfold partSize
    rw [hsize, decryptedSize_encryptedSize hplain]
    rfl

/-- The whole object is served from all its packages. -/
theorem StoredAs.spans_whole (h : StoredAs keys o stored) :
    ∃ P M x Q s n, Spans stored 0 (plainOf stored).length ⟨0, o.size, 0, 0, 0⟩ P M x Q s n := by
  obtain ⟨M, x, rfl⟩ := (List.eq_nil_or_concat' stored).resolve_left h.nonempty
  have hx : x.plain.length ≤ maxDecryptedSize := h.bounded x (by simp)
  have hplain : (plainOf (M ++ [x])).length = (plainOf M).length + x.plain.length := by
    rw [plainOf_append, List.length_append, plainOf_cons, List.length_append]
    rfl
  have hcipher : (cipherOf (M ++ [x])).length = (cipherOf M).length + encryptedSize x.plain.length := by
    rw [cipherOf_append, List.length_append, cipherOf_cons, List.length_append, length_sealed hx]
    rfl
  have hmod := Nat.mod_lt x.plain.length packageBlockSize_pos
  have hpackages : encryptedSize x.plain.length ≤
      (x.plain.length / packageBlockSize + 1) * (packageBlockSize + packageMetaSize) := by
    rw [encryptedSize_of_le hx, Nat.add_mul]
    unfold sealedLength
    split <;> omega
  refine ⟨[], M, x, [], 0, x.plain.length / packageBlockSize + 1, rfl, rfl, rfl, ?_, ?_, ⟨0, rfl, ?_⟩, ?_, ?_⟩
  · rw [Nat.zero_mul]
    rfl
  · rw [Nat.min_eq_right hpackages, List.nil_append, ← hcipher, ← h.size]
    exact Int.zero_add _
  · rw [Nat.zero_mul]
    rfl
  · intro y _
    rw [Nat.zero_mul]
    exact Nat.zero_le _
  · rw [List.nil_append, hplain, Nat.zero_add]
    exact Nat.add_le_add_left (Nat.le_min.mpr ⟨(lt_packages _).le, le_rfl⟩) _

/-- The numbers for a range in the object. -/
theorem StoredAs.getDecryptedRange (h : StoredAs keys o stored) {rs : Option HTTPRangeSpec} {off length : ℕ}
    (hrange : getOffsetLength rs (plainOf stored).length = .ok ((off : ℤ), (length : ℤ)))
    (hin : off + length ≤ (plainOf stored).length) :
    ∃ r, getDecryptedRange o rs = .ok r ∧
      (length = 0 ∨ ∃ P M x Q s n, Spans stored off length r P M x Q s n) := by
  unfold EncryptedRange.getDecryptedRange
  rw [if_neg (by simp [h.encrypted])]
  cases rs with
  | none =>
    have hwhole : (0 : ℤ) = off ∧ ((plainOf stored).length : ℤ) = length := Prod.mk.inj (Except.ok.inj hrange)
    obtain rfl : off = 0 := by omega
    obtain rfl : length = (plainOf stored).length := by omega
    exact ⟨_, rfl, Or.inr h.spans_whole⟩
  | some rs =>
    have hsum : ((sizesOf stored).sum : ℤ) = (plainOf stored).length := by
      rw [sum_sizesOf]
    simp only [h.sizes, hsum, hrange]
    refine ⟨_, rfl, ?_⟩
    rcases Nat.eq_zero_or_pos length with hzero | hpos
    · exact Or.inl hzero
    · exact Or.inr (decryptedRange_spans h.bounded hpos hin)

/-- **A range of an encrypted object is served with the bytes of the plaintext in it.** -/
theorem readEncrypted_eq (keys : Keys) (o : ObjectInfo) (stored : List StoredPart) (h : StoredAs keys o stored)
    (rs : Option HTTPRangeSpec) (off length : ℕ)
    (hrange : getOffsetLength rs (plainOf stored).length = .ok ((off : ℤ), (length : ℤ)))
    (hin : off + length ≤ (plainOf stored).length) :
    readEncrypted keys o rs (cipherOf stored) = .ok (((plainOf stored).drop off).take length) := by
  obtain ⟨r, hr, hspans⟩ := h.getDecryptedRange hrange hin
  have hlength := getLength_of_getOffsetLength (Int.natCast_nonneg _) hrange
  have hdec : o.decryptedSize = .ok (plainOf stored).length := by
    unfold ObjectInfo.decryptedSize
    rw [h.encrypted, h.sizes, ← sum_sizesOf]
    rfl
  unfold readEncrypted
  simp only [hr, hdec, hlength, Int.toNat_natCast]
  rcases hspans with rfl | ⟨P, M, x, Q, s, n, hspans⟩
  · rw [List.take_zero, List.take_zero]
  · rw [hspans.decrypts h, hspans.window]

end Serve

end Ranges

/-! ### An object of two parts -/

/-- The sizes as `minio/sio` computes them. -/
instance dareSizes : Sio where
  encryptedSize size :=
    if maxDecryptedSize < size then 0 else sealedLength packageBlockSize packageMetaSize size
  decryptedSize size :=
    if 2 ^ 48 + 32 * 2 ^ 32 < size then none
    else if 0 < size % (packageBlockSize + packageMetaSize) ∧
        size % (packageBlockSize + packageMetaSize) ≤ packageMetaSize then none
    else
      some (size / (packageBlockSize + packageMetaSize) * packageBlockSize +
        (size % (packageBlockSize + packageMetaSize) - packageMetaSize))
  encryptedSize_of_le h := if_neg (Nat.not_lt.mpr h)
  decryptedSize_encryptedSize := by
    intro n h
    rw [if_neg (Nat.not_lt.mpr h)]
    unfold sealedLength packageBlockSize packageMetaSize
    unfold maxDecryptedSize at h
    by_cases hmod : n % (64 * 1024) = 0
    · rw [if_pos hmod, if_neg (by omega), if_neg (by omega)]
      congr 1
      omega
    · rw [if_neg hmod, if_neg (by omega), if_neg (by omega)]
      congr 1
      omega

/-- A seal that adds the number of the package. -/
def numberSeal : Sealing UInt8 packageBlockSize packageMetaSize where
  pack n b := b ++ List.replicate packageMetaSize (UInt8.ofNat n)
  unpack n c :=
    if c.drop (c.length - packageMetaSize) = List.replicate packageMetaSize (UInt8.ofNat n) then
      some (c.take (c.length - packageMetaSize))
    else none
  length_pack n b := by rw [List.length_append, List.length_replicate]
  unpack_pack n b _ _ := by
    rw [List.length_append, List.length_replicate, Nat.add_sub_cancel, List.drop_left, if_pos rfl,
      List.take_left]

/-- An object of two parts. -/
def twoParts : ObjectInfo := ⟨true, true, false, [], 69, [⟨1, 35⟩, ⟨2, 34⟩]⟩

theorem twoParts_stored : StoredAs ⟨numberSeal, fun _ => numberSeal⟩ twoParts
    [⟨numberSeal, [1, 2, 3]⟩, ⟨numberSeal, [4, 5]⟩] := by
  refine ⟨rfl, by simp, by decide, rfl, ?_, fun _ => rfl⟩
  intro h
  exact absurd h (by decide)

/-- Two bytes across the border of the parts. -/
theorem readEncrypted_twoParts :
    readEncrypted ⟨numberSeal, fun _ => numberSeal⟩ twoParts (some ⟨false, 2, 3⟩)
        (cipherOf [⟨numberSeal, [1, 2, 3]⟩, ⟨numberSeal, [4, 5]⟩]) = .ok [3, 4] :=
  readEncrypted_eq _ _ _ twoParts_stored (some ⟨false, 2, 3⟩) 2 2 rfl (by decide)

end Zs3Server.Cmd.EncryptedRange
