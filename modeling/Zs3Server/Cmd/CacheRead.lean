import Zs3Server.Lib.StepSystem
import Zs3Server.Lib.BlockFile
import Zs3Server.Cmd.HttpRange
import Zs3Server.Cmd.DiskCache

/-!
# Reading from the writeback directory while it is rewritten

`Get` looks at `cache.json` under the read lock; the data is copied by a goroutine after the lock was
released, block by block, each block checked against the checksum before it.  When this fails the
goroutine removes the directory of the data file.  A put rewrites the same file in place under the write
lock, which the goroutine does not take.

* `rwStep`, `RwTrans` — any number of `Get` calls and puts on one object, write by write and block by
  block;
* `blockRange` — the part of a block that is delivered;
* `RwInv`, `rwInv_step` — what holds while no put starts during a `Get`;
* `reads_are_safe` — then no data file is removed and every `Get` delivers the range it was asked for;
* `read_removes_newer_write` — otherwise a `Get` that meets the rewriting removes the newer write.
-/

namespace Zs3Server.Cmd.CacheRead

open Lib.ByteString
open Lib.StepSystem
open Lib.BlockFile
open Cmd.HttpRange
open Lib.GoTime
open Cmd.DiskCache

/-! ### Ranges -/

def cacheBlkSize : ℕ := 1048576

/-- The size of a `HighwayHash256S` checksum. -/
def hashSize : ℕ := 32

/-- The range of a `Get` call: none, or one that the parser of the header accepts. -/
abbrev RangeReq := Option { h : HTTPRangeSpec // RangeForm h }

/-- Offset and length of the range, for an object of the given size. -/
def window (req : RangeReq) (size : ℕ) : Option (ℕ × ℕ) :=
  match getOffsetLength (req.map Subtype.val) size with
  | .ok (off, len) => some (off.toNat, len.toNat)
  | .error _ => none

theorem window_le {req : RangeReq} {size off len : ℕ} (h : window req size = some (off, len)) :
    off + len ≤ size := by
  have hwindow : ∀ o l : ℤ, getOffsetLength (req.map Subtype.val) size = .ok (o, l) →
      o.toNat = off ∧ l.toNat = len := by
    intro o l hok
    unfold window at h
    rw [hok] at h
    exact Prod.mk.inj (Option.some.inj h)
  cases req with
  | none =>
    obtain ⟨rfl, rfl⟩ := hwindow 0 size rfl
    simp
  | some r =>
    obtain ⟨spec, hform⟩ := r
    cases hform with
    | @closed a b ha hab _ =>
      by_cases has : a < size
      · obtain ⟨rfl, rfl⟩ := hwindow _ _ (getOffsetLength_closed ha hab has)
        omega
      · simp [window, getOffsetLength_past_end (Int.natCast_nonneg size) (Int.not_lt.mp has)] at h
    | @openEnded a ha _ =>
      by_cases has : a < size
      · obtain ⟨rfl, rfl⟩ := hwindow _ _ (getOffsetLength_open ha has)
        omega
      · simp [window, getOffsetLength_past_end (Int.natCast_nonneg size) (Int.not_lt.mp has)] at h
    | @suffix n hn _ =>
      obtain ⟨rfl, rfl⟩ := hwindow _ _ (getOffsetLength_suffix (Int.natCast_nonneg size))
      omega

/-- The range that a `Get` call reads. -/
structure ReadJob where
  req : RangeReq
  off : ℕ
  len : ℕ

def ReadJob.startBlock (j : ReadJob) : ℕ := j.off / cacheBlkSize

def ReadJob.endBlock (j : ReadJob) : ℕ := (j.off + j.len) / cacheBlkSize

def ReadJob.blockOffset (j : ReadJob) (n : ℕ) : ℕ :=
  if j.startBlock = j.endBlock then j.off % cacheBlkSize
  else if n = j.startBlock then j.off % cacheBlkSize
  else 0

def ReadJob.blockLength (j : ReadJob) (n : ℕ) : ℕ :=
  if j.startBlock = j.endBlock then j.len
  else if n = j.startBlock then cacheBlkSize - j.off % cacheBlkSize
  else if n = j.endBlock then (j.off + j.len) % cacheBlkSize
  else cacheBlkSize

/-- The part of block `n` that is delivered is its share of the range. -/
theorem blockRange (j : ReadJob) {n : ℕ} (hstart : j.startBlock ≤ n) (hend : n ≤ j.endBlock) :
    j.blockOffset n = max j.off (cacheBlkSize * n) - cacheBlkSize * n ∧
      j.blockLength n =
        min (j.off + j.len) (cacheBlkSize * n + cacheBlkSize) - max j.off (cacheBlkSize * n) := by
  unfold ReadJob.startBlock at hstart
  unfold ReadJob.endBlock at hend
  unfold ReadJob.blockOffset ReadJob.blockLength ReadJob.startBlock ReadJob.endBlock
  unfold cacheBlkSize at *
  constructor
  · split_ifs <;> omega
  · split_ifs <;> omega

/-- Where a block of the range lies. -/
theorem block_bounds {j : ReadJob} {n : ℕ} (hstart : j.startBlock ≤ n) (hend : n ≤ j.endBlock) :
    j.off < cacheBlkSize * n + cacheBlkSize ∧ cacheBlkSize * n ≤ j.off + j.len := by
  unfold ReadJob.startBlock at hstart
  unfold ReadJob.endBlock at hend
  unfold cacheBlkSize at *
  omega

/-- Behind the last block the range has been passed. -/
theorem covered_of_lt {j : ReadJob} {n : ℕ} (h : j.endBlock < n) :
    j.len ≤ cacheBlkSize * n - j.off := by
  unfold ReadJob.endBlock at h
  unfold cacheBlkSize at *
  omega

/-- A block without a share: the range ends where the block begins, or it is empty. -/
theorem covered_of_blockLength {j : ReadJob} {n : ℕ} (hstart : j.startBlock ≤ n)
    (hend : n ≤ j.endBlock) (hzero : j.blockLength n = 0) : j.len ≤ cacheBlkSize * n - j.off := by
  obtain ⟨-, hlength⟩ := blockRange j hstart hend
  have hbounds := block_bounds hstart hend
  have hpos : 0 < cacheBlkSize := by decide
  omega

/-! ### `Get` calls and puts -/

/-- Where a `Get` call is: `block` is at the head of the loop over the blocks, `data` has read the
checksum of a block, `removing` has met an error, `closed` has lost its client. -/
inductive ReadPc where
  | idle
  | statted (j : ReadJob)
  | block (j : ReadJob) (inode n : ℕ) (out : Content)
  | data (j : ReadJob) (inode n : ℕ) (out checksum : Content)
  | removing
  | failed
  | closed
  | done (req : RangeReq) (out : Content)

/-- The call has looked at `cache.json` and not ended. -/
def ReadPc.active : ReadPc → Bool
  | .statted _ => true
  | .block _ _ _ _ => true
  | .data _ _ _ _ _ => true
  | .removing => true
  | _ => false

/-- The put that has the write lock: `todo` is what it still has to write. -/
structure Writer where
  inode : ℕ
  todo : List Content
  userDefined : Metadata
  data : Content
  now : GoTime

/-- One object: the files by inode, the inode of the data file in the writeback directory, `cache.json`,
and the contents of the acknowledged puts in their order. -/
structure RwState (R : Type*) where
  inodes : ℕ → Content
  next : ℕ
  dataFile : Option ℕ
  cacheJson : Option CacheMeta
  writer : Option Writer
  reader : R → ReadPc
  contents : List Content

inductive RwAct (R : Type*) where
  | putStart (userDefined : Metadata) (data : Content) (now : GoTime)
  | putWrite
  | putSave
  | stat (r : R) (req : RangeReq)
  | openFile (r : R)
  | readHash (r : R)
  | readData (r : R) (pool : Content) (gone : Bool)
  | remove (r : R)

section Machine

variable {R : Type*} [DecidableEq R]
variable (md5Hex : Content → GoString) (hash : Content → Content) (isDir : Bool)

/-- Nothing is cached. -/
def rwInit : RwState R where
  inodes := fun _ => []
  next := 0
  dataFile := none
  cacheJson := none
  writer := none
  reader := fun _ => .idle
  contents := []

/-- The file after `os.Create`: an old file is truncated in place. -/
def createFile (s : RwState R) : ℕ := s.dataFile.getD s.next

/-- What `Get` does under the lock.  For a name that ends in a slash the reader has no bytes. -/
def statJob (cacheJson : Option CacheMeta) (req : RangeReq) : ReadPc :=
  match cacheJson with
  | none => .failed
  | some m =>
    if isDir then .done req []
    else
      match window req m.size with
      | some (off, len) => .statted ⟨req, off, len⟩
      | none => .failed

/-- The head of the loop: the end, or the checksum of the next block.  The limit on the reader is never
met, it covers all blocks that are read. -/
def nextBlock (file : Content) (j : ReadJob) (inode n : ℕ) (out : Content) : ReadPc :=
  if j.endBlock < n then .done j.req out
  else if j.blockLength n = 0 then .done j.req out
  else
    let checksum := (file.drop ((hashSize + cacheBlkSize) * n)).take hashSize
    if checksum.length < hashSize then .removing else .data j inode n out checksum

/-- The block after its checksum.  `pool` is what the buffer held before: the bytes delivered are taken
from the buffer, however many were read.  When the client is gone the copying ends without an error. -/
def readBlock (file : Content) (j : ReadJob) (inode n : ℕ) (out checksum pool : Content)
    (gone : Bool) : ReadPc :=
  let buf := (file.drop ((hashSize + cacheBlkSize) * n + hashSize)).take cacheBlkSize
  if buf.length = 0 ∧ j.len ≠ 0 then .done j.req out
  else if hash buf ≠ checksum then .removing
  else if gone then .closed
  else
    let out' := out ++
      ((buf ++ pool.drop buf.length).drop (j.blockOffset n)).take (j.blockLength n)
    if buf.length < cacheBlkSize then .done j.req out' else .block j inode (n + 1) out'

def rwStep (s : RwState R) : RwAct R → Option (RwState R)
  | .putStart userDefined data now =>
    match s.writer with
    | some _ => none
    | none =>
      let inode := createFile s
      some { s with
        inodes := Function.update s.inodes inode []
        next := if s.dataFile = none then s.next + 1 else s.next
        dataFile := some inode
        writer := some ⟨inode, blockWrites hash cacheBlkSize data, userDefined, data, now⟩ }
  | .putWrite =>
    match s.writer with
    | some ⟨inode, piece :: todo, userDefined, data, now⟩ =>
      some { s with
        inodes := Function.update s.inodes inode (s.inodes inode ++ piece)
        writer := some ⟨inode, todo, userDefined, data, now⟩ }
    | _ => none
  | .putSave =>
    match s.writer with
    | some ⟨_, [], userDefined, data, now⟩ =>
      some { s with
        cacheJson := (putWriteback md5Hex ⟨s.cacheJson, none, none⟩ userDefined data now).cacheJson
        writer := none
        contents := s.contents ++ [data] }
    | _ => none
  | .stat r req =>
    match s.reader r, s.writer with
    | .idle, none =>
      some { s with reader := Function.update s.reader r (statJob isDir s.cacheJson req) }
    | _, _ => none
  | .openFile r =>
    match s.reader r with
    | .statted j =>
      match s.dataFile with
      | some inode =>
        some { s with reader := Function.update s.reader r (.block j inode j.startBlock []) }
      | none => some { s with reader := Function.update s.reader r .removing }
    | _ => none
  | .readHash r =>
    match s.reader r with
    | .block j inode n out =>
      some { s with
        reader := Function.update s.reader r (nextBlock (s.inodes inode) j inode n out) }
    | _ => none
  | .readData r pool gone =>
    match s.reader r with
    | .data j inode n out checksum =>
      some { s with
        reader := Function.update s.reader r
          (readBlock hash (s.inodes inode) j inode n out checksum pool gone) }
    | _ => none
  | .remove r =>
    match s.reader r with
    | .removing =>
      some { s with dataFile := none, reader := Function.update s.reader r .failed }
    | _ => none

/-- The steps, with what each of them needs. -/
inductive RwTrans (s : RwState R) : RwAct R → RwState R → Prop
  | putStart {userDefined data now} : s.writer = none →
      RwTrans s (.putStart userDefined data now) { s with
        inodes := Function.update s.inodes (createFile s) []
        next := if s.dataFile = none then s.next + 1 else s.next
        dataFile := some (createFile s)
        writer := some
          ⟨createFile s, blockWrites hash cacheBlkSize data, userDefined, data, now⟩ }
  | putWrite {w piece todo} : s.writer = some w → w.todo = piece :: todo →
      RwTrans s .putWrite { s with
        inodes := Function.update s.inodes w.inode (s.inodes w.inode ++ piece)
        writer := some { w with todo := todo } }
  | putSave {w} : s.writer = some w → w.todo = [] →
      RwTrans s .putSave { s with
        cacheJson :=
          (putWriteback md5Hex ⟨s.cacheJson, none, none⟩ w.userDefined w.data w.now).cacheJson
        writer := none
        contents := s.contents ++ [w.data] }
  | stat {r req} : s.reader r = .idle → s.writer = none →
      RwTrans s (.stat r req) { s with
        reader := Function.update s.reader r (statJob isDir s.cacheJson req) }
  | openFile {r j inode} : s.reader r = .statted j → s.dataFile = some inode →
      RwTrans s (.openFile r) { s with
        reader := Function.update s.reader r (.block j inode j.startBlock []) }
  | openMissing {r j} : s.reader r = .statted j → s.dataFile = none →
      RwTrans s (.openFile r) { s with reader := Function.update s.reader r .removing }
  | readHash {r j inode n out} : s.reader r = .block j inode n out →
      RwTrans s (.readHash r) { s with
        reader := Function.update s.reader r (nextBlock (s.inodes inode) j inode n out) }
  | readData {r pool gone j inode n out checksum} : s.reader r = .data j inode n out checksum →
      RwTrans s (.readData r pool gone) { s with
        reader := Function.update s.reader r
          (readBlock hash (s.inodes inode) j inode n out checksum pool gone) }
  | remove {r} : s.reader r = .removing →
      RwTrans s (.remove r) { s with
        dataFile := none
        reader := Function.update s.reader r .failed }

variable {md5Hex hash isDir}

theorem rwStep_trans {s s' : RwState R} {a : RwAct R}
    (h : rwStep md5Hex hash isDir s a = some s') : RwTrans md5Hex hash isDir s a s' := by
  cases a with
  | putStart userDefined data now =>
    simp only [rwStep] at h
    split at h
    · cases h
    · next hw =>
      cases h
      exact .putStart hw
  | putWrite =>
    simp only [rwStep] at h
    split at h
    · next inode piece todo userDefined data now hw =>
      cases h
      exact .putWrite hw rfl
    · cases h
  | putSave =>
    simp only [rwStep] at h
    split at h
    · next inode userDefined data now hw =>
      cases h
      exact .putSave hw rfl
    · cases h
  | stat r req =>
    simp only [rwStep] at h
    split at h
    · next hr hw =>
      cases h
      exact .stat hr hw
    · cases h
  | openFile r =>
    simp only [rwStep] at h
    split at h
    · next j hr =>
      split at h
      · next inode hfile =>
        cases h
        exact .openFile hr hfile
      · next hfile =>
        cases h
        exact .openMissing hr hfile
    · cases h
  | readHash r =>
    simp only [rwStep] at h
    split at h
    · next j inode n out hr =>
      cases h
      exact .readHash hr
    · cases h
  | readData r pool gone =>
    simp only [rwStep] at h
    split at h
    · next j inode n out checksum hr =>
      cases h
      exact .readData hr
    · cases h
  | remove r =>
    simp only [rwStep] at h
    split at h
    · next hr =>
      cases h
      exact .remove hr
    · cases h

end Machine

/-! ### One block -/

/-- What is delivered before block `n`. -/
def delivered (c : Content) (j : ReadJob) (n : ℕ) : Content :=
  (c.drop j.off).take (min j.len (cacheBlkSize * n - j.off))

theorem delivered_startBlock (c : Content) (j : ReadJob) : delivered c j j.startBlock = [] := by
  have hnone : min j.len (cacheBlkSize * j.startBlock - j.off) = 0 := by
    have hle : cacheBlkSize * j.startBlock ≤ j.off := Nat.mul_div_le j.off cacheBlkSize
    omega
  unfold delivered
  rw [hnone, List.take_zero]

theorem delivered_all (c : Content) {j : ReadJob} {n : ℕ} (h : j.len ≤ cacheBlkSize * n - j.off) :
    delivered c j n = (c.drop j.off).take j.len := by
  unfold delivered
  rw [Nat.min_eq_left h]

/-- The share of block `n` follows what is delivered before it. -/
theorem delivered_succ (c : Content) {j : ReadJob} {n : ℕ} (hstart : j.startBlock ≤ n)
    (hend : n ≤ j.endBlock) :
    delivered c j n ++ (((c.drop (cacheBlkSize * n)).take cacheBlkSize).drop (j.blockOffset n)).take
      (j.blockLength n) = delivered c j (n + 1) := by
  obtain ⟨hoffset, hlength⟩ := blockRange j hstart hend
  obtain ⟨hnext, hfrom⟩ := block_bounds hstart hend
  unfold delivered
  rw [hoffset, hlength, Nat.mul_succ]
  exact take_append_block c hnext hfrom

/-- The range of an object with the content `c`, as it was asked for. -/
def IsRange (c : Content) (req : RangeReq) (out : Content) : Prop :=
  ∃ off len, window req c.length = some (off, len) ∧ out = (c.drop off).take len

/-- Where a `Get` call stands that reads the content `c` from the file `i`. -/
def Reading (hash : Content → Content) (c : Content) (i : ℕ) : ReadPc → Prop
  | .statted j => window j.req c.length = some (j.off, j.len)
  | .block j inode n out =>
    window j.req c.length = some (j.off, j.len) ∧ inode = i ∧ j.startBlock ≤ n ∧
      n ≤ j.endBlock + 1 ∧ out = delivered c j n
  | .data j inode n out checksum =>
    window j.req c.length = some (j.off, j.len) ∧ inode = i ∧ j.startBlock ≤ n ∧
      n ≤ j.endBlock ∧ out = delivered c j n ∧ cacheBlkSize * n < c.length ∧
      checksum = hash ((c.drop (cacheBlkSize * n)).take cacheBlkSize)
  | .removing => False
  | .done req out => IsRange c req out
  | _ => True

section Blocks

variable {hash : Content → Content} (hlen : ∀ b, (hash b).length = hashSize)
include hlen

theorem reading_nextBlock {c out : Content} {j : ReadJob} {i inode n : ℕ}
    (h : Reading hash c i (.block j inode n out)) :
    Reading hash c i (nextBlock (blockFile hash cacheBlkSize c) j inode n out) := by
  obtain ⟨hwin, hinode, hstart, hend, rfl⟩ := h
  have hsize := window_le hwin
  unfold nextBlock
  by_cases hlast : j.endBlock < n
  · -- all blocks are delivered
    rw [if_pos hlast]
    exact ⟨j.off, j.len, hwin, delivered_all c (covered_of_lt hlast)⟩
  rw [if_neg hlast]
  have hn : n ≤ j.endBlock := Nat.not_lt.mp hlast
  obtain ⟨-, hlength⟩ := blockRange j hstart hn
  by_cases hzero : j.blockLength n = 0
  · rw [if_pos hzero]
    exact ⟨j.off, j.len, hwin, delivered_all c (covered_of_blockLength hstart hn hzero)⟩
  rw [if_neg hzero]
  have hblock : cacheBlkSize * n < c.length := by omega
  have hhash := read_hash (by decide : 0 < cacheBlkSize) hlen [] hblock
  rw [blockFile_of_ne_nil (List.ne_nil_of_length_pos (by omega)), hhash,
    if_neg (by rw [hlen]; exact Nat.lt_irrefl _)]
  exact ⟨hwin, hinode, hstart, hn, rfl, hblock, rfl⟩

theorem reading_readBlock {c out checksum : Content} {j : ReadJob} {i inode n : ℕ}
    (h : Reading hash c i (.data j inode n out checksum)) (pool : Content) (gone : Bool) :
    Reading hash c i
      (readBlock hash (blockFile hash cacheBlkSize c) j inode n out checksum pool gone) := by
  obtain ⟨hwin, hinode, hstart, hend, rfl, hblock, rfl⟩ := h
  have hsize := window_le hwin
  have hsucc : cacheBlkSize * (n + 1) = cacheBlkSize * n + cacheBlkSize := Nat.mul_succ _ _
  obtain ⟨hoffset, hlength⟩ := blockRange j hstart hend
  have hbounds := block_bounds hstart hend
  unfold readBlock
  rw [blockFile_of_ne_nil (List.ne_nil_of_length_pos (by omega)),
    read_block (by decide : 0 < cacheBlkSize) hlen (Or.inl rfl) hblock]
  generalize hbuf : (c.drop (cacheBlkSize * n)).take cacheBlkSize = buf
  have hbuflen : buf.length = min cacheBlkSize (c.length - cacheBlkSize * n) := by
    rw [← hbuf, List.length_take, List.length_drop]
  have hpos : buf.length ≠ 0 := by
    have hk : 0 < cacheBlkSize := by decide
    omega
  rw [if_neg (by rintro ⟨h0, -⟩; exact hpos h0), if_neg (by simp)]
  cases gone with
  | true => trivial
  | false =>
    -- the old bytes of the buffer are not reached
    have hslice : ((buf ++ pool.drop buf.length).drop (j.blockOffset n)).take (j.blockLength n) =
        (buf.drop (j.blockOffset n)).take (j.blockLength n) := by
      rw [List.drop_append_of_le_length (by omega),
        List.take_append_of_le_length (by rw [List.length_drop]; omega)]
    have hout : delivered c j n ++
        ((buf ++ pool.drop buf.length).drop (j.blockOffset n)).take (j.blockLength n) =
          delivered c j (n + 1) := by
      rw [hslice, ← hbuf, delivered_succ c hstart hend]
    simp only [hout]
    by_cases hshort : buf.length < cacheBlkSize
    · rw [if_neg Bool.false_ne_true, if_pos hshort]
      exact ⟨j.off, j.len, hwin, delivered_all c (by omega)⟩
    · rw [if_neg Bool.false_ne_true, if_neg hshort]
      exact ⟨hwin, hinode, by omega, by omega, rfl⟩

end Blocks

/-! ### Every run -/

section Runs

variable {R : Type*} [DecidableEq R]
variable (md5Hex : Content → GoString) (hash : Content → Content) (isDir : Bool)

/-- While no put is at work, the last acknowledged write is in the data file, and `cache.json` says that
it is not committed. -/
def LastKept (s : RwState R) : Prop :=
  s.writer = none → ∀ c, s.contents.getLast? = some c →
    ∃ i m, s.dataFile = some i ∧ s.inodes i = blockFile hash cacheBlkSize c ∧
      s.cacheJson = some m ∧ m.metadata.etag = some (md5Hex c) ∧
      writebackInProgress m.metadata = true

/-- The steps of a `Get` call. -/
def RwAct.isGet : RwAct R → Bool
  | .putStart _ _ _ => false
  | .putWrite => false
  | .putSave => false
  | _ => true

/-- Reading destroys nothing, and delivers a range of one acknowledged content. -/
structure ReadsSafe (s : RwState R) : Prop where
  kept : LastKept md5Hex hash s
  unremoved : ∀ a s', a.isGet = true → rwStep md5Hex hash isDir s a = some s' →
    s'.dataFile = s.dataFile ∧ s'.cacheJson = s.cacheJson
  ranges : ∀ r req out, s.reader r = .done req out → ∃ c ∈ s.contents, IsRange c req out

/-- The range has no bytes. -/
def emptyRange (cacheJson : Option CacheMeta) (req : RangeReq) : Bool :=
  match cacheJson with
  | none => true
  | some m =>
    match window req m.size with
    | some (_, len) => len = 0
    | none => false

/-- No put starts between the `stat` of a `Get` call and its end, and an object whose name ends in a
slash is only read where there is nothing to deliver. -/
def ReadsUndisturbed (s : RwState R) : RwAct R → Prop
  | .putStart _ _ _ => ∀ r, (s.reader r).active = false
  | .stat _ req => isDir = true → emptyRange s.cacheJson req = true
  | _ => True

/-- What holds of a `Get` call that is not disturbed: it reads the last content, or has read a range of
one that was the last. -/
structure ReaderInv (writer : Option Writer) (dataFile : Option ℕ) (contents : List Content)
    (p : ReadPc) : Prop where
  reading : p.active = true → ∃ c i, writer = none ∧ contents.getLast? = some c ∧
    dataFile = some i ∧ Reading hash c i p
  ranges : ∀ req out, p = .done req out → ∃ c ∈ contents, IsRange c req out

/-- What holds along a run in which the `Get` calls are not disturbed. -/
structure RwInv (s : RwState R) : Prop where
  kept : LastKept md5Hex hash s
  json : ∀ m, s.cacheJson = some m → ∃ c, s.contents.getLast? = some c ∧ m.size = c.length
  writing : ∀ w, s.writer = some w → s.dataFile = some w.inode ∧
    s.inodes w.inode ++ w.todo.flatten = blockFile hash cacheBlkSize w.data
  reader : ∀ r, ReaderInv hash s.writer s.dataFile s.contents (s.reader r)

variable {md5Hex hash isDir} {s s' : RwState R} {a : RwAct R}

omit [DecidableEq R] in
theorem rwInit_inv : RwInv md5Hex hash (rwInit : RwState R) where
  kept := fun _ _ h => by cases h
  json := fun _ h => by cases h
  writing := fun _ h => by cases h
  reader := fun _ => ⟨(fun h => by cases h), fun _ _ h => by cases h⟩

section Reader

variable {writer : Option Writer} {dataFile : Option ℕ} {contents : List Content} {p : ReadPc}

theorem readerInv_of_reading {c : Content} {i : ℕ} (hw : writer = none)
    (hc : contents.getLast? = some c) (hi : dataFile = some i) (hp : Reading hash c i p) :
    ReaderInv hash writer dataFile contents p where
  reading := fun _ => ⟨c, i, hw, hc, hi, hp⟩
  ranges := by
    rintro req out rfl
    exact ⟨c, List.mem_of_getLast? hc, hp⟩

/-- A call that is not at work does not depend on the files. -/
theorem ReaderInv.of_inactive (h : ReaderInv hash writer dataFile contents p)
    (hp : p.active = false) {writer' : Option Writer} {dataFile' : Option ℕ}
    {contents' : List Content} (hsub : contents ⊆ contents') :
    ReaderInv hash writer' dataFile' contents' p where
  reading := fun hact => by rw [hp] at hact; cases hact
  ranges := by
    intro req out hdone
    obtain ⟨c, hc, hrange⟩ := h.ranges req out hdone
    exact ⟨c, hsub hc, hrange⟩

end Reader

theorem RwInv.move (h : RwInv md5Hex hash s) {r : R} {p : ReadPc}
    (hp : ReaderInv hash s.writer s.dataFile s.contents p) :
    RwInv md5Hex hash { s with reader := Function.update s.reader r p } where
  kept := h.kept
  json := h.json
  writing := h.writing
  reader := (Function.forall_update_iff s.reader fun _ q =>
    ReaderInv hash s.writer s.dataFile s.contents q).mpr ⟨hp, fun r' _ => h.reader r'⟩

omit [DecidableEq R] in
/-- A `Get` call at work reads the last content, from the file that has it. -/
theorem RwInv.reads_last (h : RwInv md5Hex hash s) {r : R} {p : ReadPc} (hr : s.reader r = p)
    (hact : p.active = true) :
    ∃ c i, s.writer = none ∧ s.contents.getLast? = some c ∧ s.dataFile = some i ∧
      s.inodes i = blockFile hash cacheBlkSize c ∧ Reading hash c i p := by
  subst hr
  obtain ⟨c, i, hw, hc, hi, hreading⟩ := (h.reader r).reading hact
  obtain ⟨i', _, hi', hfile, -⟩ := h.kept hw c hc
  obtain rfl : i = i' := Option.some.inj (hi.symm.trans hi')
  exact ⟨c, i, hw, hc, hi, hfile, hreading⟩

omit [DecidableEq R] in
theorem RwInv.not_removing (h : RwInv md5Hex hash s) (r : R) : s.reader r ≠ .removing := by
  intro hr
  obtain ⟨_, _, _, _, _, _, hfalse⟩ := h.reads_last hr rfl
  exact hfalse

omit [DecidableEq R] in
/-- While a put is at work no `Get` call is. -/
theorem RwInv.inactive (h : RwInv md5Hex hash s) {w : Writer} (hw : s.writer = some w) (r : R) :
    (s.reader r).active = false := by
  by_contra hact
  obtain ⟨_, _, hnone, _⟩ := (h.reader r).reading (Bool.not_eq_false _ ▸ hact)
  rw [hw] at hnone
  cases hnone

omit [DecidableEq R] in
/-- A `Get` call sees the last content, unless nothing is stored. -/
theorem reader_stat (h : RwInv md5Hex hash s) (hw : s.writer = none) {req : RangeReq}
    (hempty : isDir = true → emptyRange s.cacheJson req = true) :
    ReaderInv hash s.writer s.dataFile s.contents (statJob isDir s.cacheJson req) := by
  cases hm : s.cacheJson with
  | none => exact ⟨(fun hact => by cases hact), fun _ _ hdone => by cases hdone⟩
  | some m =>
    obtain ⟨c, hc, hsize⟩ := h.json m hm
    obtain ⟨i, _, hi, -⟩ := h.kept hw c hc
    refine readerInv_of_reading hw hc hi ?_
    rw [hm] at hempty
    simp only [emptyRange, hsize] at hempty
    simp only [statJob, hsize]
    cases isDir with
    | true =>
      have hnone := hempty rfl
      split at hnone
      · next off len hwin =>
        obtain rfl : len = 0 := of_decide_eq_true hnone
        exact ⟨off, 0, hwin, by rw [List.take_zero]⟩
      · cases hnone
    | false =>
      rw [if_neg Bool.false_ne_true]
      split
      · next off len hwin => exact hwin
      · trivial

/-- One step of a run in which the `Get` calls are not disturbed. -/
theorem rwInv_step (hlen : ∀ b, (hash b).length = hashSize) (h : RwInv md5Hex hash s)
    (hok : ReadsUndisturbed isDir s a) (hst : rwStep md5Hex hash isDir s a = some s') :
    RwInv md5Hex hash s' := by
  cases rwStep_trans hst with
  | @putStart userDefined data now hw =>
    refine ⟨(fun hnone => by cases hnone), h.json, ?_, ?_⟩
    · intro w hw'
      obtain rfl := Option.some.inj hw'
      refine ⟨rfl, ?_⟩
      show Function.update s.inodes (createFile s) [] (createFile s) ++
        (blockWrites hash cacheBlkSize data).flatten = blockFile hash cacheBlkSize data
      rw [Function.update_self, List.nil_append, flatten_blockWrites]
    · intro r
      exact (h.reader r).of_inactive (hok r) (List.Subset.refl _)
  | @putWrite w piece todo hw htodo =>
    obtain ⟨hfile, hdata⟩ := h.writing w hw
    refine ⟨(fun hnone => by cases hnone), h.json, ?_, ?_⟩
    · intro w' hw'
      obtain rfl := Option.some.inj hw'
      refine ⟨hfile, ?_⟩
      rw [htodo, List.flatten_cons, ← List.append_assoc] at hdata
      show Function.update s.inodes w.inode (s.inodes w.inode ++ piece) w.inode ++ todo.flatten =
        blockFile hash cacheBlkSize w.data
      rw [Function.update_self, hdata]
    · intro r
      exact (h.reader r).of_inactive (h.inactive hw r) (List.Subset.refl _)
  | @putSave w hw htodo =>
    obtain ⟨hfile, hdata⟩ := h.writing w hw
    rw [htodo, List.flatten_nil, List.append_nil] at hdata
    refine ⟨?_, ?_, (fun _ hnone => by cases hnone), ?_⟩
    · intro _ c hc
      obtain rfl : w.data = c := Option.some.inj (List.getLast?_concat.symm.trans hc)
      exact ⟨w.inode, _, hfile, hdata, rfl, rfl, rfl⟩
    · intro m hm
      obtain rfl := Option.some.inj hm
      exact ⟨w.data, List.getLast?_concat, rfl⟩
    · intro r
      exact (h.reader r).of_inactive (h.inactive hw r) (List.subset_append_left _ _)
  | stat _ hw => exact h.move (reader_stat h hw hok)
  | @openFile r j inode hr hfile =>
    obtain ⟨c, i, hw, hc, hi, -, hreading⟩ := h.reads_last hr rfl
    obtain rfl : inode = i := Option.some.inj (hfile.symm.trans hi)
    refine h.move (readerInv_of_reading hw hc hi ?_)
    have hblocks : j.startBlock ≤ j.endBlock + 1 :=
      Nat.le_succ_of_le (Nat.div_le_div_right (Nat.le_add_right _ _))
    exact ⟨hreading, rfl, Nat.le_refl _, hblocks, (delivered_startBlock c j).symm⟩
  | @openMissing r j hr hfile =>
    obtain ⟨_, _, _, _, hi, _⟩ := h.reads_last hr rfl
    rw [hfile] at hi
    cases hi
  | @readHash r j inode n out hr =>
    obtain ⟨c, i, hw, hc, hi, hfile, hreading⟩ := h.reads_last hr rfl
    obtain rfl : inode = i := hreading.2.1
    rw [hfile]
    exact h.move (readerInv_of_reading hw hc hi (reading_nextBlock hlen hreading))
  | @readData r pool gone j inode n out checksum hr =>
    obtain ⟨c, i, hw, hc, hi, hfile, hreading⟩ := h.reads_last hr rfl
    obtain rfl : inode = i := hreading.2.1
    rw [hfile]
    exact h.move (readerInv_of_reading hw hc hi (reading_readBlock hlen hreading pool gone))
  | @remove r hr => exact absurd hr (h.not_removing r)

theorem RwInv.readsSafe (h : RwInv md5Hex hash s) : ReadsSafe md5Hex hash isDir s where
  kept := h.kept
  unremoved := by
    intro a s' hget hst
    cases rwStep_trans hst with
    | putStart _ => cases hget
    | putWrite _ _ => cases hget
    | putSave _ _ => cases hget
    | @remove r hr => exact absurd hr (h.not_removing r)
    | _ => exact ⟨rfl, rfl⟩
  ranges := fun r => (h.reader r).ranges

/-- **Reading is safe** in any run in which no put starts between the `stat` of a `Get` call and its end:
no `Get` call removes a data file, the last acknowledged write stays where it is, and what a `Get` call
delivers is the range it was asked for, of one acknowledged content. -/
theorem reads_are_safe (md5Hex : Content → GoString) (hash : Content → Content)
    (hlen : ∀ b, (hash b).length = hashSize) (isDir : Bool) (s : RwState R)
    (h : Reaches (rwStep md5Hex hash isDir) (ReadsUndisturbed isDir) rwInit s) :
    ReadsSafe md5Hex hash isDir s := by
  refine RwInv.readsSafe (h.invariant (I := RwInv md5Hex hash) rwInit_inv ?_)
  intro s₁ a s₂ hinv hok hst
  exact rwInv_step hlen hinv hok hst

end Runs

/-! ### One `Get` call and two puts -/

/-- A checksum: the first bytes of the block. -/
def headHash (b : Content) : Content := (b ++ List.replicate hashSize 0).take hashSize

theorem headHash_length (b : Content) : (headHash b).length = hashSize := by
  unfold headHash
  rw [List.length_take, List.length_append, List.length_replicate]
  omega

instance decidableReadsUndisturbed {R : Type*} [Fintype R] (isDir : Bool) (s : RwState R) :
    ∀ a : RwAct R, Decidable (ReadsUndisturbed isDir s a)
  | .putStart _ _ _ => inferInstanceAs (Decidable (∀ r, (s.reader r).active = false))
  | .stat _ req => inferInstanceAs (Decidable (isDir = true → emptyRange s.cacheJson req = true))
  | .putWrite | .putSave | .openFile _ | .readHash _ | .readData _ _ _ | .remove _ => isTrue trivial

/-- The last two bytes of three, read before the object is put again. -/
theorem reads_are_safe_suffix :
    ∃ s : RwState Unit,
      s.contents = [[1, 2, 3], [4]] ∧
      s.reader () = .done (some ⟨⟨true, -2, -1⟩, .suffix (by decide) (by decide)⟩) [2, 3] ∧
      ReadsSafe id headHash false s := by
  have hrun : ∃ s : RwState Unit,
      runActs (guardedStep (rwStep id headHash false) (ReadsUndisturbed false)) rwInit
        [.putStart .empty [1, 2, 3] second, .putWrite, .putWrite, .putSave,
          .stat () (some ⟨⟨true, -2, -1⟩, .suffix (by decide) (by decide)⟩), .openFile (),
          .readHash (), .readData () [] false,
          .putStart .empty [4] second, .putWrite, .putWrite, .putSave] = some s ∧
      s.contents = [[1, 2, 3], [4]] ∧
      s.reader () = .done (some ⟨⟨true, -2, -1⟩, .suffix (by decide) (by decide)⟩) [2, 3] :=
    ⟨_, rfl, rfl, rfl⟩
  obtain ⟨s, hacts, hcontents, hreader⟩ := hrun
  exact ⟨s, hcontents, hreader,
    reads_are_safe id headHash headHash_length false s (reaches_of_guarded _ hacts)⟩

/-- **A `Get` call removes a newer write.**  It has opened the data file when a put truncates it; the
missing checksum makes it remove the writeback directory, with the content that was acknowledged in the
meantime. -/
theorem read_removes_newer_write :
    ∃ s : RwState Unit,
      Reaches (rwStep id headHash false) (fun _ _ => True) rwInit s ∧
      s.contents = [[1], [2]] ∧ s.writer = none ∧ s.dataFile = none ∧
      ¬ ReadsSafe id headHash false s := by
  have hrun : ∃ s : RwState Unit,
      runActs (rwStep id headHash false) rwInit
        [.putStart .empty [1] second, .putWrite, .putWrite, .putSave, .stat () none, .openFile (),
          .putStart .empty [2] second, .readHash (), .putWrite, .putWrite, .putSave,
          .remove ()] = some s ∧
      s.contents = [[1], [2]] ∧ s.writer = none ∧ s.dataFile = none := ⟨_, rfl, rfl, rfl, rfl⟩
  obtain ⟨s, hacts, hcontents, hwriter, hfile⟩ := hrun
  refine ⟨s, reaches_of_runActs _ hacts, hcontents, hwriter, hfile, ?_⟩
  intro hsafe
  obtain ⟨i, _, hi, -⟩ := hsafe.kept hwriter [2] (by rw [hcontents]; rfl)
  rw [hfile] at hi
  cases hi

end Zs3Server.Cmd.CacheRead
