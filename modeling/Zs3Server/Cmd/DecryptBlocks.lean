import Zs3Server.Cmd.EncryptedRange

/-!
# Reading the parts of an encrypted object

`DecryptBlocksReader` decrypts the parts of a multipart object one after the other.  A `Read` that reaches
the end of a part goes on with the next one, and then returns the length of the buffer, whatever the
second decrypter has given.  Where the next part is shorter than the rest of the buffer, the caller is
told of bytes that were not read, or of none.

* `Fills` — what is assumed of the decrypter of one part; `DecryptBlocksReader.read` — the reader over all;
* `reads` — the calls up to the first error;
* `read_within`, `read_last`, `read_next`, `read_short` — what one call does;
* `reads_delivers_iff` — the buffers with which the reader delivers what it reports;
* `reads_past_small_part` — a buffer that reaches over a part of two bytes.
-/

namespace Zs3Server.Cmd.DecryptBlocks

open Lib.SealedStream
open Cmd.EncryptedRange
open Cmd.EncryptedRange.Sio

/-! ### The decrypter of one part -/

inductive ReadError where
  | eof
  | unexpectedEOF
  | tampered
  deriving DecidableEq

/-- The DARE reader of one part: the plaintext that is left, whether the part has a package at all, and
whether its packages open. -/
structure Decrypter where
  rest : List UInt8
  opened : Bool
  intact : Bool

/-- `newDecryptReaderWithObjectKey` over the share of the input that belongs to the part. -/
def newDecryptReader (key : Sealing UInt8 packageBlockSize packageMetaSize) (seqNumber : ℕ)
    (share : List UInt8) : Decrypter :=
  ⟨(openStream key seqNumber share).1, !share.isEmpty, (openStream key seqNumber share).2⟩

/-- A `Read` of the decrypter: the bytes placed in a buffer of a given length, the error and what is left. -/
abbrev DecrypterRead := Decrypter → ℕ → List UInt8 × Option ReadError × Decrypter

/-- **What is assumed of a read of `minio/sio`.**  It fills the buffer as far as the part goes, and beyond
the end of a part without packages it does not say that this is the end. -/
structure Fills (read : DecrypterRead) : Prop where
  within : ∀ {d : Decrypter} {len : ℕ}, len ≤ d.rest.length →
    read d len = (d.rest.take len, none, { d with rest := d.rest.drop len })
  beyond : ∀ {d : Decrypter} {len : ℕ}, d.rest.length < len →
    (read d len).1 = d.rest ∧ (d.opened = false → (read d len).2.1 ≠ some .eof)

section Reader

variable [Sio] (decrypt : DecrypterRead)

/-- `io.ReadFull`. -/
def Decrypter.readFull (d : Decrypter) (len : ℕ) : List UInt8 × Option ReadError × Decrypter :=
  match decrypt d len with
  | (b, err, d') =>
    if b.length = len then (b, none, d')
    else
      match err with
      | some .eof => (b, some (if b.isEmpty then .eof else .unexpectedEOF), d')
      | some e => (b, some e, d')
      -- the next read finds nothing more
      | none => (b, some .unexpectedEOF, d')

/-! ### The reader -/

structure DecryptBlocksReader where
  reader : List UInt8
  decrypter : Decrypter
  startSeqNum : ℕ
  partIndex : ℕ
  parts : List ObjectPartInfo
  partDecRelOffset : ℕ
  partEncRelOffset : ℕ

variable (keys : Keys)

/-- `buildDecrypter` for the current part; `none` is the panic of an index out of range.  The share of
the part is taken from the input at once: the code comes to the next part after it has read the whole
plaintext of this one. -/
def DecryptBlocksReader.buildDecrypter (d : DecryptBlocksReader) : Option DecryptBlocksReader :=
  match d.parts[d.partIndex]? with
  | none => none
  | some part =>
    let encLenToRead := part.size - d.partEncRelOffset
    some
      { d with
        decrypter := newDecryptReader (keys.part part.number) d.startSeqNum (d.reader.take encLenToRead)
        reader := d.reader.drop encLenToRead }

/-- The reader that `DecryptBlocksRequestR` returns for a multipart object. -/
def newDecryptBlocksReader (parts : List ObjectPartInfo) (seqNumber partStart : ℕ)
    (input : List UInt8) : Option DecryptBlocksReader :=
  DecryptBlocksReader.buildDecrypter keys
    { reader := input
      decrypter := ⟨[], false, true⟩
      startSeqNum := seqNumber
      partIndex := partStart
      parts := parts
      partDecRelOffset := seqNumber * packageBlockSize
      partEncRelOffset := seqNumber * (packageBlockSize + packageMetaSize) }

/-- What a `Read` returns, with the bytes that it has placed at the front of the buffer. -/
structure Reply where
  n : ℕ
  err : Option ReadError
  placed : List UInt8
  deriving DecidableEq

/-- `Read` into a buffer of `len` bytes; `none` is a panic. -/
def DecryptBlocksReader.read (d : DecryptBlocksReader) (len : ℕ) :
    Option (Reply × DecryptBlocksReader) :=
  match d.parts[d.partIndex]? with
  | none => none
  | some part =>
    let unreadPartLen : ℤ := ((decryptedSize part.size).getD 0 : ℕ) - (d.partDecRelOffset : ℤ)
    if (len : ℤ) < unreadPartLen then
      match decrypt d.decrypter len with
      | (b, some e, dec) => some (⟨0, some e, b⟩, { d with decrypter := dec })
      | (b, none, dec) =>
        some (⟨len, none, b⟩,
          { d with decrypter := dec, partDecRelOffset := d.partDecRelOffset + b.length })
    else if unreadPartLen < 0 then none
    else
      match d.decrypter.readFull decrypt unreadPartLen.toNat with
      | (b, some e, dec) => some (⟨0, some e, b⟩, { d with decrypter := dec })
      | (b, none, dec) =>
        let next : DecryptBlocksReader :=
          { d with
            decrypter := dec
            partEncRelOffset := 0
            partDecRelOffset := 0
            startSeqNum := 0
            partIndex := d.partIndex + 1 }
        if next.partIndex = next.parts.length then some (⟨b.length, some .eof, b⟩, next)
        else
          match next.buildDecrypter keys with
          | none => none
          | some built =>
            match decrypt built.decrypter (len - b.length) with
            | (b', some e, dec) => some (⟨0, some e, b ++ b'⟩, { built with decrypter := dec })
            | (b', none, dec) =>
              -- the count of the second read is only added to the offset
              some (⟨len, none, b ++ b'⟩,
                { built with
                  decrypter := dec
                  partDecRelOffset := built.partDecRelOffset + b'.length })

/-- The calls with the buffers `ps`, up to the first error. -/
def reads (d : DecryptBlocksReader) : List (List UInt8) → Option (List Reply)
  | [] => some []
  | p :: ps =>
    match d.read decrypt keys p.length with
    | none => none
    | some (reply, d') => if reply.err.isSome then some [reply] else (reads d' ps).map (reply :: ·)

end Reader

/-- The bytes that the caller takes from its buffer `p`: behind what was placed they are the old ones. -/
def Reply.bytes (p : List UInt8) (reply : Reply) : List UInt8 :=
  (reply.placed ++ p.drop reply.placed.length).take reply.n

def received (ps : List (List UInt8)) (replies : List Reply) : List UInt8 :=
  (List.zipWith Reply.bytes ps replies).flatten

/-- The calls deliver `whole`: each reports the bytes that it has placed, the only error is the end, and
what is received up to the end is `whole`. -/
structure Delivers (whole : List UInt8) (ps : List (List UInt8)) (replies : List Reply) : Prop where
  counted : ∀ reply ∈ replies, reply.n = reply.placed.length
  errors : ∀ reply ∈ replies, reply.err = none ∨ reply.err = some .eof
  initial : received ps replies <+: whole
  complete : (∃ reply ∈ replies, reply.err = some .eof) → received ps replies = whole
  ends : whole.length < (ps.map List.length).sum → ∃ reply ∈ replies, reply.err = some .eof

/-- No buffer reaches over the whole of a next part: `unread` bytes of the current part are left, `later`
are the sizes of the parts behind it. -/
def Fits : ℕ → List ℕ → List ℕ → Prop
  | _, _, [] => True
  | unread, [], len :: lens => len < unread → Fits (unread - len) [] lens
  | unread, size :: later, len :: lens =>
    if len < unread then Fits (unread - len) (size :: later) lens
    else len - unread ≤ size ∧ Fits (size - (len - unread)) later lens

theorem fits_of_lt {unread len : ℕ} (h : len < unread) (later lens : List ℕ) :
    Fits unread later (len :: lens) ↔ Fits (unread - len) later lens := by
  cases later with
  | nil =>
    show (len < unread → _) ↔ _
    exact ⟨fun hfits => hfits h, fun hfits _ => hfits⟩
  | cons size later =>
    show (if len < unread then _ else _) ↔ _
    rw [if_pos h]

theorem fits_of_le {unread len : ℕ} (h : unread ≤ len) (size : ℕ) (later lens : List ℕ) :
    Fits unread (size :: later) (len :: lens) ↔
      len - unread ≤ size ∧ Fits (size - (len - unread)) later lens := by
  show (if len < unread then _ else _) ↔ _
  rw [if_neg (Nat.not_lt.mpr h)]

/-! ### One call -/

theorem Decrypter.readFull_rest {decrypt : DecrypterRead} (hfill : Fills decrypt) (d : Decrypter) :
    d.readFull decrypt d.rest.length = (d.rest, none, { d with rest := [] }) := by
  unfold Decrypter.readFull
  rw [hfill.within (le_refl _), List.take_length, List.drop_length]
  exact if_pos rfl

theorem getElem?_of_drop {α : Type*} {l rest : List α} {i : ℕ} {a : α} (h : l.drop i = a :: rest) :
    l[i]? = some a ∧ l.drop (i + 1) = rest ∧ (i + 1 = l.length ↔ rest = []) := by
  have htail : l.drop (i + 1) = rest := by
    rw [← List.drop_drop, h]
    rfl
  have hlen : i < l.length := by
    by_contra hge
    rw [List.drop_eq_nil_of_le (Nat.not_lt.mp hge)] at h
    cases h
  refine ⟨?_, htail, ?_⟩
  · rw [← Nat.add_zero i, ← List.getElem?_drop, h]
    rfl
  · rw [← htail, List.drop_eq_nil_iff]
    omega

/-- The decrypter of a part that is stored. -/
theorem newDecryptReader_sealed (y : StoredPart) :
    newDecryptReader y.key 0 (sealStream y.key 0 y.plain) =
      ⟨y.plain, !(sealStream y.key 0 y.plain).isEmpty, true⟩ := by
  unfold newDecryptReader
  rw [openStream_sealStream packageBlockSize_pos]

/-- The reader stands in a part of `size` bytes with `u` left of it, and the parts `M` behind. -/
structure Stands [Sio] (keys : Keys) (d : DecryptBlocksReader) (size : ℕ) (u : List UInt8)
    (M : List StoredPart) : Prop where
  current : ∃ part rest, d.parts.drop d.partIndex = part :: rest ∧
    decryptedSize part.size = some size ∧ Lists keys rest M
  left : d.decrypter.rest = u
  offset : d.partDecRelOffset + u.length = size
  input : d.reader = cipherOf M
  bounded : ∀ y ∈ M, y.plain.length ≤ maxDecryptedSize

section Call

variable [Sio] {decrypt : DecrypterRead} {keys : Keys} {d : DecryptBlocksReader} {size : ℕ} {u : List UInt8}
  {M : List StoredPart}

/-- The buffer up to the end of the part. -/
theorem Stands.unread (h : Stands keys d size u M) :
    ((size : ℤ) - (d.partDecRelOffset : ℤ)).toNat = d.decrypter.rest.length := by
  have hoffset := h.offset
  rw [h.left]
  omega

/-- The step to the next part. -/
theorem buildDecrypter_next {y : StoredPart} {part : ObjectPartInfo}
    (hpart : d.parts[d.partIndex]? = some part) (hsize : part.size = encryptedSize y.plain.length)
    (hkey : keys.part part.number = y.key) (hy : y.plain.length ≤ maxDecryptedSize)
    (hinput : d.reader = cipherOf (y :: M)) (hseq : d.startSeqNum = 0) (henc : d.partEncRelOffset = 0) :
    d.buildDecrypter keys = some
      { d with
        decrypter := ⟨y.plain, !(sealStream y.key 0 y.plain).isEmpty, true⟩
        reader := cipherOf M } := by
  have hlen : part.size - d.partEncRelOffset = (sealStream y.key 0 y.plain).length := by
    rw [henc, length_sealed hy, hsize, Nat.sub_zero]
  unfold DecryptBlocksReader.buildDecrypter
  rw [hpart]
  dsimp only
  rw [hlen, hinput, cipherOf_cons, List.take_left, List.drop_left, hseq, hkey, newDecryptReader_sealed]

/-- A buffer that ends inside the part. -/
theorem read_within (hfill : Fills decrypt) (h : Stands keys d size u M) {len : ℕ} (hlen : len < u.length) :
    ∃ d', d.read decrypt keys len = some (⟨len, none, u.take len⟩, d') ∧
      Stands keys d' size (u.drop len) M := by
  obtain ⟨part, rest, hdrop, hsize, hrest⟩ := h.current
  have hoffset := h.offset
  unfold DecryptBlocksReader.read
  rw [(getElem?_of_drop hdrop).1]
  dsimp only
  rw [hsize, Option.getD_some, if_pos (by omega),
    hfill.within (by rw [h.left]; exact hlen.le), h.left]
  refine ⟨_, rfl, ⟨part, rest, hdrop, hsize, hrest⟩, rfl, ?_, h.input, h.bounded⟩
  show d.partDecRelOffset + (u.take len).length + (u.drop len).length = size
  rw [List.length_take, List.length_drop]
  omega

/-- The state in which a buffer that reaches the end of the part leaves it. -/
def atEnd (d : DecryptBlocksReader) : DecryptBlocksReader :=
  { d with
    decrypter := { d.decrypter with rest := [] }
    partEncRelOffset := 0
    partDecRelOffset := 0
    startSeqNum := 0
    partIndex := d.partIndex + 1 }

/-- The last part. -/
theorem read_last (hfill : Fills decrypt) (h : Stands keys d size u []) {len : ℕ} (hlen : u.length ≤ len) :
    ∃ d', d.read decrypt keys len = some (⟨u.length, some .eof, u⟩, d') := by
  obtain ⟨part, rest, hdrop, hsize, hrest⟩ := h.current
  obtain ⟨hget, -, hlast⟩ := getElem?_of_drop hdrop
  have hnil : rest = [] := List.map_eq_nil_iff.mp hrest
  have hoffset := h.offset
  unfold DecryptBlocksReader.read
  rw [hget]
  dsimp only
  rw [hsize, Option.getD_some, if_neg (by omega), if_neg (by omega), h.unread, Decrypter.readFull_rest hfill,
    h.left]
  dsimp only
  rw [if_pos (hlast.mpr hnil)]
  exact ⟨_, rfl⟩

/-- A buffer that goes on into the next part `y`. -/
theorem read_crossing {y : StoredPart} (hfill : Fills decrypt) (h : Stands keys d size u (y :: M)) {len : ℕ}
    (hlen : u.length ≤ len) :
    ∃ built : DecryptBlocksReader,
      built.decrypter = ⟨y.plain, !(sealStream y.key 0 y.plain).isEmpty, true⟩ ∧
      Stands keys built y.plain.length y.plain M ∧
      d.read decrypt keys len =
        match decrypt built.decrypter (len - u.length) with
        | (b', some e, dec) => some (⟨0, some e, u ++ b'⟩, { built with decrypter := dec })
        | (b', none, dec) =>
          some (⟨len, none, u ++ b'⟩,
            { built with
              decrypter := dec
              partDecRelOffset := built.partDecRelOffset + b'.length }) := by
  obtain ⟨part, rest, hdrop, hsize, hrest⟩ := h.current
  obtain ⟨hget, htail, hlast⟩ := getElem?_of_drop hdrop
  obtain ⟨part', rest', hcons, hsize', hkey, hrest'⟩ := hrest.exists_cons
  have hy : y.plain.length ≤ maxDecryptedSize := h.bounded y List.mem_cons_self
  have hoffset := h.offset
  rw [hcons] at htail hlast
  have hbuild := buildDecrypter_next (d := atEnd d) (getElem?_of_drop htail).1 hsize' hkey hy h.input rfl rfl
  refine ⟨{ atEnd d with
      decrypter := ⟨y.plain, !(sealStream y.key 0 y.plain).isEmpty, true⟩
      reader := cipherOf M }, rfl, ⟨⟨part', rest', htail, ?_, hrest'⟩, rfl, ?_, rfl, ?_⟩, ?_⟩
  · rw [hsize']
    exact decryptedSize_encryptedSize hy
  · exact Nat.zero_add _
  · intro z hz
    exact h.bounded z (List.mem_cons_of_mem y hz)
  · unfold DecryptBlocksReader.read
    rw [hget]
    dsimp only
    rw [hsize, Option.getD_some, if_neg (by omega), if_neg (by omega), h.unread, Decrypter.readFull_rest hfill]
    dsimp only
    rw [if_neg (fun hend => by cases hlast.mp hend)]
    unfold atEnd at hbuild
    rw [hbuild, h.left]
    rfl

/-- The next part has enough for the rest of the buffer. -/
theorem read_next {y : StoredPart} (hfill : Fills decrypt) (h : Stands keys d size u (y :: M)) {len : ℕ}
    (hlen : u.length ≤ len) (hfits : len - u.length ≤ y.plain.length) :
    ∃ d', d.read decrypt keys len = some (⟨len, none, u ++ y.plain.take (len - u.length)⟩, d') ∧
      Stands keys d' y.plain.length (y.plain.drop (len - u.length)) M := by
  obtain ⟨built, hdec, hstands, hread⟩ := read_crossing hfill h hlen
  have hle : len - u.length ≤ built.decrypter.rest.length := by
    rw [hdec]
    exact hfits
  rw [hread, hfill.within hle, hstands.left]
  have hoffset := hstands.offset
  refine ⟨_, rfl, hstands.current, rfl, ?_, hstands.input, hstands.bounded⟩
  show built.partDecRelOffset + (y.plain.take (len - u.length)).length +
    (y.plain.drop (len - u.length)).length = y.plain.length
  rw [List.length_take, List.length_drop]
  omega

/-- **The next part has too little.**  The call reports a wrong number of bytes or a wrong error. -/
theorem read_short {y : StoredPart} (hfill : Fills decrypt) (h : Stands keys d size u (y :: M)) {len : ℕ}
    (hlen : u.length ≤ len) (hshort : y.plain.length < len - u.length) :
    ∃ reply d', d.read decrypt keys len = some (reply, d') ∧
      ¬ (reply.n = reply.placed.length ∧ (reply.err = none ∨ reply.err = some .eof)) := by
  obtain ⟨built, hdec, -, hread⟩ := read_crossing hfill h hlen
  have hlt : built.decrypter.rest.length < len - u.length := by
    rw [hdec]
    exact hshort
  obtain ⟨hplaced, hend⟩ := hfill.beyond hlt
  rw [hread]
  rcases hresult : decrypt built.decrypter (len - u.length) with ⟨b, err, dec⟩
  rw [hresult, hdec] at hplaced hend
  dsimp only at hplaced hend
  subst hplaced
  cases err with
  | none =>
    refine ⟨_, _, rfl, ?_⟩
    rintro ⟨hn, -⟩
    rw [List.length_append] at hn
    dsimp only at hn
    omega
  | some e =>
    refine ⟨_, _, rfl, ?_⟩
    rintro ⟨hn, heof⟩
    rw [List.length_append] at hn
    dsimp only at hn
    -- nothing was placed, so the part is empty and has no package
    have hplain : y.plain = [] := List.length_eq_zero_iff.mp (by omega)
    rcases heof with heof | heof
    · cases heof
    · refine hend ?_ heof
      rw [hplain]
      rfl

end Call

/-! ### All calls -/

/-- A call that fills its buffer. -/
theorem delivers_cons_iff {p b whole : List UInt8} {ps : List (List UInt8)} {replies : List Reply}
    (hb : b.length = p.length) :
    Delivers (b ++ whole) (p :: ps) (⟨p.length, none, b⟩ :: replies) ↔ Delivers whole ps replies := by
  have hreceived : received (p :: ps) (⟨p.length, none, b⟩ :: replies) = b ++ received ps replies := by
    unfold received Reply.bytes
    rw [List.zipWith_cons_cons, List.flatten_cons]
    dsimp only
    rw [← hb, List.take_left]
  have heof : (∃ reply ∈ (⟨p.length, none, b⟩ :: replies : List Reply), reply.err = some .eof) ↔
      ∃ reply ∈ replies, reply.err = some .eof := by
    simp
  have hlength : (b ++ whole).length < ((p :: ps).map List.length).sum ↔
      whole.length < (ps.map List.length).sum := by
    rw [List.length_append, List.map_cons, List.sum_cons, hb]
    omega
  constructor
  · intro h
    refine ⟨?_, ?_, ?_, ?_, ?_⟩
    · intro reply hreply
      exact h.counted reply (List.mem_cons_of_mem _ hreply)
    · intro reply hreply
      exact h.errors reply (List.mem_cons_of_mem _ hreply)
    · have hinitial := h.initial
      rw [hreceived] at hinitial
      exact (List.prefix_append_right_inj b).mp hinitial
    · intro hend
      have hwhole := h.complete (heof.mpr hend)
      rw [hreceived] at hwhole
      exact List.append_cancel_left hwhole
    · intro hlt
      exact heof.mp (h.ends (hlength.mpr hlt))
  · intro h
    refine ⟨?_, ?_, ?_, ?_, ?_⟩
    · intro reply hreply
      rcases List.mem_cons.mp hreply with rfl | hmem
      · exact hb.symm
      · exact h.counted reply hmem
    · intro reply hreply
      rcases List.mem_cons.mp hreply with rfl | hmem
      · exact Or.inl rfl
      · exact h.errors reply hmem
    · rw [hreceived]
      exact (List.prefix_append_right_inj b).mpr h.initial
    · intro hend
      rw [hreceived, h.complete (heof.mp hend)]
    · intro hlt
      exact heof.mpr (h.ends (hlength.mp hlt))

theorem delivers_eof (u p : List UInt8) (ps : List (List UInt8)) :
    Delivers u (p :: ps) [⟨u.length, some .eof, u⟩] := by
  have hreceived : received (p :: ps) [⟨u.length, some .eof, u⟩] = u := by
    unfold received Reply.bytes
    rw [List.zipWith_cons_cons, List.zipWith_nil_right]
    dsimp only
    rw [List.take_left, List.flatten_singleton]
  refine ⟨by simp, by simp, ?_, fun _ => hreceived, fun _ => by simp⟩
  rw [hreceived]

section Run

variable [Sio] {decrypt : DecrypterRead} {keys : Keys}

theorem reads_cons_of_none {d d' : DecryptBlocksReader} {p : List UInt8} {reply : Reply}
    (h : d.read decrypt keys p.length = some (reply, d')) (herr : reply.err = none)
    (ps : List (List UInt8)) :
    reads decrypt keys d (p :: ps) = (reads decrypt keys d' ps).map (reply :: ·) := by
  rw [reads, h]
  dsimp only
  rw [herr]
  rfl

/-- The reply of the first call is among the replies. -/
theorem mem_of_reads_cons {d d' : DecryptBlocksReader} {p : List UInt8} {reply : Reply}
    {ps : List (List UInt8)} {replies : List Reply}
    (h : d.read decrypt keys p.length = some (reply, d')) (hreads : reads decrypt keys d (p :: ps) = some replies) :
    reply ∈ replies := by
  rw [reads, h] at hreads
  dsimp only at hreads
  split at hreads
  · rw [← Option.some.inj hreads]
    exact List.mem_singleton_self reply
  · obtain ⟨rest, -, rfl⟩ := Option.map_eq_some_iff.mp hreads
    exact List.mem_cons_self

/-- A call that fills its buffer leaves the rest to the others. -/
theorem exists_delivers_cons_iff {d d' : DecryptBlocksReader} {p b whole : List UInt8}
    {ps : List (List UInt8)} (hread : d.read decrypt keys p.length = some (⟨p.length, none, b⟩, d'))
    (hb : b.length = p.length) :
    (∃ replies, reads decrypt keys d (p :: ps) = some replies ∧ Delivers (b ++ whole) (p :: ps) replies) ↔
      ∃ replies, reads decrypt keys d' ps = some replies ∧ Delivers whole ps replies := by
  rw [reads_cons_of_none hread rfl]
  constructor
  · intro hex
    obtain ⟨replies, hreplies, hdelivers⟩ := hex
    obtain ⟨rest, hrest, rfl⟩ := Option.map_eq_some_iff.mp hreplies
    exact ⟨rest, hrest, (delivers_cons_iff hb).mp hdelivers⟩
  · intro hex
    obtain ⟨rest, hrest, hdelivers⟩ := hex
    exact ⟨_, by rw [hrest, Option.map_some], (delivers_cons_iff hb).mpr hdelivers⟩

theorem reads_iff (hfill : Fills decrypt) (ps : List (List UInt8)) {d : DecryptBlocksReader} {size : ℕ}
    {u : List UInt8} {M : List StoredPart} (h : Stands keys d size u M) :
    (∃ replies, reads decrypt keys d ps = some replies ∧ Delivers (u ++ plainOf M) ps replies) ↔
      Fits u.length (sizesOf M) (ps.map List.length) := by
  induction ps generalizing d size u M with
  | nil =>
    refine iff_of_true ⟨[], rfl, by simp, by simp, ?_, by simp, by simp⟩ trivial
    exact List.nil_prefix
  | cons p ps ih =>
    by_cases hp : p.length < u.length
    · obtain ⟨d', hread, hstands⟩ := read_within hfill h hp
      have hb : (u.take p.length).length = p.length := by
        rw [List.length_take]
        omega
      rw [← List.take_append_drop p.length u, List.append_assoc, exists_delivers_cons_iff hread hb,
        ih hstands, List.take_append_drop, List.length_drop]
      exact (fits_of_lt hp _ _).symm
    · rw [Nat.not_lt] at hp
      cases M with
      | nil =>
        obtain ⟨d', hread⟩ := read_last hfill h hp
        refine iff_of_true ⟨[⟨u.length, some .eof, u⟩], ?_, ?_⟩ fun hlt => absurd hlt (Nat.not_lt.mpr hp)
        · rw [reads, hread]
          rfl
        · show Delivers (u ++ []) _ _
          rw [List.append_nil]
          exact delivers_eof u p ps
      | cons y M =>
        refine Iff.trans ?_ (fits_of_le hp y.plain.length (sizesOf M) (ps.map List.length)).symm
        by_cases hfits : p.length - u.length ≤ y.plain.length
        · obtain ⟨d', hread, hstands⟩ := read_next hfill h hp hfits
          have hb : (u ++ y.plain.take (p.length - u.length)).length = p.length := by
            rw [List.length_append, List.length_take]
            omega
          have hwhole : u ++ plainOf (y :: M) = (u ++ y.plain.take (p.length - u.length)) ++
              (y.plain.drop (p.length - u.length) ++ plainOf M) := by
            rw [plainOf_cons, List.append_assoc, ← List.append_assoc (y.plain.take _),
              List.take_append_drop]
          rw [hwhole, exists_delivers_cons_iff hread hb, ih hstands, List.length_drop]
          exact ⟨fun hrest => ⟨hfits, hrest⟩, fun hrest => hrest.2⟩
        · obtain ⟨reply, d', hread, hbad⟩ := read_short hfill h hp (Nat.not_le.mp hfits)
          refine iff_of_false ?_ fun hrest => hfits hrest.1
          intro hex
          obtain ⟨replies, hreplies, hdelivers⟩ := hex
          have hmem := mem_of_reads_cons hread hreplies
          exact hbad ⟨hdelivers.counted reply hmem, hdelivers.errors reply hmem⟩

/-- The reader at its start, in the package `seqNumber` of the part `x`. -/
theorem newDecryptBlocksReader_stands {parts : List ObjectPartInfo} {stored M : List StoredPart}
    {x : StoredPart} {seqNumber partStart : ℕ} (hparts : Lists keys parts stored)
    (hbound : ∀ part ∈ stored, part.plain.length ≤ maxDecryptedSize)
    (hx : stored.drop partStart = x :: M) (hseq : seqNumber * packageBlockSize ≤ x.plain.length) :
    ∃ d, newDecryptBlocksReader keys parts seqNumber partStart
        ((cipherOf (x :: M)).drop (seqNumber * (packageBlockSize + packageMetaSize))) = some d ∧
      Stands keys d x.plain.length (x.plain.drop (seqNumber * packageBlockSize)) M := by
  have hdrop := hparts.drop partStart
  rw [hx] at hdrop
  obtain ⟨part, rest, hcons, hsize, hkey, hrest⟩ := hdrop.exists_cons
  have hmem : ∀ y ∈ x :: M, y.plain.length ≤ maxDecryptedSize := by
    intro y hy
    rw [← hx] at hy
    exact hbound y (List.mem_of_mem_drop hy)
  have hxbound := hmem x List.mem_cons_self
  have hle := mul_le_encryptedSize hxbound hseq
  -- the input is the rest of the part's stream and the streams behind it
  have hstream : (sealStream x.key 0 x.plain).drop (seqNumber * (packageBlockSize + packageMetaSize)) =
      sealStream x.key seqNumber (x.plain.drop (seqNumber * packageBlockSize)) := by
    rw [drop_sealStream packageBlockSize_pos, Nat.zero_add]
  have hlen : part.size - seqNumber * (packageBlockSize + packageMetaSize) =
      (sealStream x.key seqNumber (x.plain.drop (seqNumber * packageBlockSize))).length := by
    rw [← hstream, List.length_drop, length_sealed hxbound, hsize]
  unfold newDecryptBlocksReader DecryptBlocksReader.buildDecrypter
  dsimp only
  rw [(getElem?_of_drop hcons).1, cipherOf_cons,
    List.drop_append_of_le_length (by rw [length_sealed hxbound]; exact hle), hstream]
  dsimp only
  rw [hlen, List.take_left, List.drop_left, hkey]
  refine ⟨_, rfl, ⟨part, rest, hcons, ?_, hrest⟩, ?_, ?_, rfl, ?_⟩
  · rw [hsize]
    exact decryptedSize_encryptedSize hxbound
  · show (openStream x.key seqNumber _).1 = _
    rw [openStream_sealStream packageBlockSize_pos]
  · show seqNumber * packageBlockSize + (x.plain.drop (seqNumber * packageBlockSize)).length = _
    rw [List.length_drop]
    omega
  · intro y hy
    exact hmem y (List.mem_cons_of_mem x hy)

end Run

/-- **When the reader delivers what it reports.**  From the package `seqNumber` of a part on, the calls
with the buffers `ps` deliver the plaintext exactly if no buffer reaches over the part after the one in
which it starts. -/
theorem reads_delivers_iff [Sio] (decrypt : DecrypterRead) (hfill : Fills decrypt) (keys : Keys)
    (parts : List ObjectPartInfo) (stored M : List StoredPart) (x : StoredPart) (seqNumber partStart : ℕ)
    (hparts : Lists keys parts stored) (hbound : ∀ part ∈ stored, part.plain.length ≤ maxDecryptedSize)
    (hx : stored.drop partStart = x :: M) (hseq : seqNumber * packageBlockSize ≤ x.plain.length)
    (ps : List (List UInt8)) :
    ∃ d, newDecryptBlocksReader keys parts seqNumber partStart
        ((cipherOf (x :: M)).drop (seqNumber * (packageBlockSize + packageMetaSize))) = some d ∧
      ((∃ replies, reads decrypt keys d ps = some replies ∧
        Delivers ((plainOf (x :: M)).drop (seqNumber * packageBlockSize)) ps replies) ↔
      Fits (x.plain.length - seqNumber * packageBlockSize) (sizesOf M) (ps.map List.length)) := by
  obtain ⟨d, hd, hstands⟩ := newDecryptBlocksReader_stands hparts hbound hx hseq
  refine ⟨d, hd, ?_⟩
  rw [plainOf_cons, List.drop_append_of_le_length hseq, reads_iff hfill ps hstands, List.length_drop]

/-! ### Two parts -/

/-- A read as far as the part goes, which reports the end with the last bytes or only after them. -/
def Decrypter.read (eager : Bool) : DecrypterRead := fun d len =>
  if len ≤ d.rest.length then (d.rest.take len, none, { d with rest := d.rest.drop len })
  else
    (d.rest,
      if d.intact = false then some .tampered
      else if d.opened = false then some .unexpectedEOF
      else if d.rest.isEmpty || eager then some .eof
      else none,
      { d with rest := [] })

theorem Decrypter.fills_read (eager : Bool) : Fills (Decrypter.read eager) := by
  constructor
  · intro d len hlen
    exact if_pos hlen
  · intro d len hlen
    unfold Decrypter.read
    rw [if_neg (Nat.not_le.mpr hlen)]
    refine ⟨rfl, fun hopened => ?_⟩
    dsimp only
    rw [if_pos hopened]
    split <;> simp

/-- Parts of three bytes and of two. -/
def smallParts : List StoredPart := [⟨numberSeal, [1, 2, 3]⟩, ⟨numberSeal, [4, 5]⟩]

def smallKeys : Keys := ⟨numberSeal, fun _ => numberSeal⟩

theorem smallParts_listed : Lists smallKeys twoParts.parts smallParts := rfl

/-- A buffer of four bytes and one of two. -/
theorem reads_smallParts :
    ∃ d, newDecryptBlocksReader smallKeys twoParts.parts 0 0 (cipherOf smallParts) = some d ∧
      ∃ replies, reads (Decrypter.read true) smallKeys d [[0, 0, 0, 0], [0, 0]] = some replies ∧
        Delivers [1, 2, 3, 4, 5] [[0, 0, 0, 0], [0, 0]] replies := by
  obtain ⟨d, hd, hiff⟩ := reads_delivers_iff (Decrypter.read true) (Decrypter.fills_read true) smallKeys
    twoParts.parts smallParts [⟨numberSeal, [4, 5]⟩] ⟨numberSeal, [1, 2, 3]⟩ 0 0 smallParts_listed
    (by decide) rfl (by decide) [[0, 0, 0, 0], [0, 0]]
  refine ⟨d, hd, hiff.mpr ?_⟩
  exact ⟨by decide, fun hlt => absurd hlt (by decide)⟩

/-- **A buffer that reaches over the second part.**  Five bytes are placed; the call reports ten, or, if
the decrypter reports its end with them, none and the end of the object. -/
theorem reads_past_small_part :
    (newDecryptBlocksReader smallKeys twoParts.parts 0 0 (cipherOf smallParts)).bind
        (fun d => reads (Decrypter.read false) smallKeys d [List.replicate 10 0]) =
      some [⟨10, none, [1, 2, 3, 4, 5]⟩] ∧
    (newDecryptBlocksReader smallKeys twoParts.parts 0 0 (cipherOf smallParts)).bind
        (fun d => reads (Decrypter.read true) smallKeys d [List.replicate 10 0]) =
      some [⟨0, some .eof, [1, 2, 3, 4, 5]⟩] := by
  decide +kernel

end Zs3Server.Cmd.DecryptBlocks
