import Zs3Server.Lib.GoMaps
import Zs3Server.Cmd.CacheParts
import Zs3Server.Cmd.CacheWriteback

/-!
# What writeback hands to the backend

In writeback mode `PutObject` stores the object in the cache and queues its info; `uploadObject` reads it
back later and puts it to the backend.  Without the cache `PutObject` puts it there at once.  Here the
metadata is the whole map, and `cache.json` may list the parts of an object that was there before.

* `putWriteback`, `get`, `uploadObject` — the code, up to the put to the backend;
* `uploadObject_eq_some` — what an upload passes on;
* `partLoop_holds_iff`, `uploadContent_iff` — when this is a content, by the files of the object;
* `writeback_delivers_iff` — when it passes on what the direct put would;
* `partLoop_eq_readParts`, `uploadObject_eq_steps` — the loop and the upload are those of `CacheServe` and
  `CacheWriteback`, where these say less of the metadata and the parts.
-/

namespace Zs3Server.Cmd.WritebackPut

open Lib.ByteString
open Lib.GoMaps
open Lib.GoTime (GoTime zeroTime unixNano)
open Cmd.DiskCache (Content CommitStatus Metadata ObjectInfo dataFile)
open Cmd.CacheParts (PartInfo cacheObjectToPartOffset)

/-! ### The code -/

abbrev MetaMap := GoMap GoString GoString

def contentMD5 : GoString := lit "Content-Md5"

def writeBackStatusHeader : GoString := lit "x-minio-internal-write-back-status"

def commitPending : GoString := lit "pending"

def commitComplete : GoString := lit "complete"

def commitFailed : GoString := lit "failed"

/-- What a client puts: the object, its content and `opts.UserDefined`. -/
structure PutRequest where
  bucket : GoString
  object : GoString
  content : Content
  userDefined : MetaMap

/-- What the put of the backend is given.  There is no content if its reader fails. -/
structure BackendPut where
  bucket : GoString
  object : GoString
  content : Option Content
  userDefined : MetaMap

/-- The fields of `ObjectInfo` that an upload uses. -/
structure WbInfo where
  bucket : GoString
  name : GoString
  etag : GoString
  size : ℕ
  modTime : GoTime
  userDefined : MetaMap

/-- The contents of `cache.json`. -/
structure WbMeta where
  size : ℕ
  metadata : MetaMap
  parts : List PartInfo

/-- The files of an object, the parts in its cache directory by their numbers, and the list tree. -/
structure WbCache where
  cacheJson : Option WbMeta
  files : ℕ → Option Content
  writeback : Option Content
  listTree : GoString → Option WbInfo

/-- The checksum of the content and the formats of the metadata. -/
structure Codec where
  md5 : Content → Content
  base64 : Content → GoString
  hex : Content → GoString
  httpTime : GoTime → GoString

def objPath (bucket object : GoString) : GoString := bucket ++ lit "/" ++ object

section Put

variable (codec : Codec) (r : PutRequest) (now : GoTime)

/-- The metadata of a writeback `put`. -/
def putMetadata : MetaMap :=
  let md5sum := codec.md5 r.content
  (((r.userDefined.put (lit "content-md5") (codec.base64 md5sum)).put (lit "etag") (codec.hex md5sum)).put
    writeBackStatusHeader commitPending).put (lit "last-modified") (codec.httpTime now)

/-- The info that a writeback `put` returns and `PutObject` queues. -/
def putInfo : WbInfo where
  bucket := r.bucket
  name := r.object
  etag := ((putMetadata codec r now).get (lit "etag")).getD []
  size := r.content.length
  modTime := now
  userDefined := putMetadata codec r now

/-- `PutObject` in writeback mode.  What `cache.json` says of parts stays. -/
def putWriteback (s : WbCache) : WbCache where
  cacheJson := some ⟨r.content.length, putMetadata codec r now, (s.cacheJson.map WbMeta.parts).getD []⟩
  files := s.files
  writeback := some r.content
  listTree := fun path =>
    if path = objPath r.bucket r.object then some (putInfo codec r now) else s.listTree path

/-- `PutObject` past the cache. -/
def putDirect : BackendPut := ⟨r.bucket, r.object, some r.content, r.userDefined⟩

end Put

def extractETag (metadata : MetaMap) : GoString :=
  match metadata.get (lit "etag") with
  | some etag => etag
  | none => (metadata.get (lit "md5Sum")).getD []

def writebackInProgress (metadata : MetaMap) : Bool :=
  match metadata.get writeBackStatusHeader with
  | some v => v == commitPending || v == commitFailed
  | none => false

/-- The first bytes of a data file; its reader fails if it is missing or too short. -/
def readFile (file : Option Content) (length : ℕ) : Option Content :=
  file.bind fun data => if length ≤ data.length then some (data.take length) else none

/-- The loop of `Get` over parts, from the start of the first one. -/
def partLoop (files : ℕ → Option Content) (length : ℕ) : List PartInfo → ℕ → Content → Option Content
  | [], _, out => some out
  | part :: parts, totalBytesRead, out =>
    if length = totalBytesRead then some out
    else
      let partLength := min part.size (length - totalBytesRead)
      (readFile (files part.number) partLength).bind fun data =>
        partLoop files length parts (totalBytesRead + partLength) (out ++ data)

/-- `Get` of a whole object: `cache.json` and what its reader delivers. -/
def get (s : WbCache) (object : GoString) : Option (WbMeta × Option Content) :=
  match s.cacheJson with
  | none => none
  | some m =>
    if !writebackInProgress m.metadata && (s.files 1).isNone then none
    else if List.isSuffixOf (lit "/") object then some (m, some [])
    else if m.parts ≠ [] then
      match cacheObjectToPartOffset m.parts (m.size - 1) with
      | none => none
      | some (lastPartIndex, _) =>
        some (m, partLoop s.files m.size (m.parts.take (lastPartIndex + 1)) 0 [])
    else some (m, readFile (if writebackInProgress m.metadata then s.writeback else s.files 1) m.size)

/-- What the hash reader of an upload takes of the content. -/
def limit (content : Option Content) (size : ℕ) : Option Content :=
  match content with
  | some data => some (data.take size)
  | none => if size = 0 then some [] else none

/-- `uploadObject` up to the put to the backend: what it is given, if the run gets there. -/
def uploadObject (s : WbCache) (oi : WbInfo) : Option BackendPut :=
  match s.listTree (objPath oi.bucket oi.name) with
  | none => none
  | some cachedObjInfo =>
    if cachedObjInfo.modTime ≠ zeroTime ∧ unixNano cachedObjInfo.modTime ≠ unixNano oi.modTime then none
    else
      match get s oi.name with
      | none => none
      | some (m, content) =>
        let st := (oi.userDefined.get writeBackStatusHeader).getD []
        if extractETag m.metadata ≠ oi.etag then none
        else if st = commitComplete ∨ st = [] then none
        else some
          { bucket := oi.bucket
            object := oi.name
            content := limit content oi.size
            userDefined :=
              GoMap.empty.put contentMD5 ((oi.userDefined.get (lit "content-md5")).getD []) }

/-! ### What it should do -/

/-- The two calls put the same object with the same user metadata.  The checksum of the content is not of
the user. -/
def SameCall (p q : BackendPut) : Prop :=
  p.bucket = q.bucket ∧ p.object = q.object ∧ p.content = q.content ∧
    ∀ key, key ≠ contentMD5 → p.userDefined.get key = q.userDefined.get key

/-- There is no user metadata. -/
def NoMetadata (m : MetaMap) : Prop := ∀ key, key ≠ contentMD5 → m.get key = none

/-- The files of the parts hold a content, each part its own piece of it; `left` bytes of the object are in
these parts.  A part that is needed has a file with all its bytes, also those behind the content. -/
def PartsHold (files : ℕ → Option Content) : List PartInfo → (left : ℕ) → Content → Prop
  | [], _, content => content = []
  | part :: parts, left, content =>
    if left = 0 then content = []
    else ∃ data, files part.number = some data ∧ min part.size left ≤ data.length ∧
      content.take (min part.size left) <+: data ∧
      PartsHold files parts (left - min part.size left) (content.drop (min part.size left))

/-- **The object's files hold the content**: the data file in use if `cache.json` lists no parts, else the
files of the parts up to that of the last byte.  A content that is empty needs no file, and the name of a
directory has none. -/
def ContentHeld (s : WbCache) (object : GoString) (content : Content) : Prop :=
  content = [] ∨ List.isSuffixOf (lit "/") object = false ∧ ∃ m, s.cacheJson = some m ∧
    if m.parts = [] then
      ∃ data, (if writebackInProgress m.metadata then s.writeback else s.files 1) = some data ∧
        content.length ≤ m.size ∧ m.size ≤ data.length ∧ content <+: data
    else
      ∃ last, cacheObjectToPartOffset m.parts (m.size - 1) = some last ∧
        PartsHold s.files (m.parts.take (last.1 + 1)) m.size content

/-! ### The upload -/

/-- The content that an upload finds. -/
def uploadContent (s : WbCache) (object : GoString) (size : ℕ) : Option Content :=
  limit ((get s object).bind Prod.snd) size

section Upload

variable {codec : Codec} {s : WbCache}

theorem get_putMetadata_status (r : PutRequest) (now : GoTime) :
    (putMetadata codec r now).get writeBackStatusHeader = some commitPending := by
  rw [putMetadata, get_put, if_neg (by decide), get_put, if_pos rfl]

theorem writebackInProgress_put (r : PutRequest) (now : GoTime) :
    writebackInProgress (putMetadata codec r now) = true := by
  rw [writebackInProgress, get_putMetadata_status]
  decide

/-- **An upload that gets to the backend** passes on what `Get` read and a checksum, nothing else. -/
theorem uploadObject_eq_some {oi : WbInfo} {p : BackendPut} (h : uploadObject s oi = some p) :
    (get s oi.name).isSome ∧ p = ⟨oi.bucket, oi.name, uploadContent s oi.name oi.size,
      GoMap.empty.put contentMD5 ((oi.userDefined.get (lit "content-md5")).getD [])⟩ := by
  rw [uploadObject] at h
  cases hentry : s.listTree (objPath oi.bucket oi.name) with
  | none =>
    rw [hentry] at h
    cases h
  | some cached =>
    rw [hentry] at h
    simp only at h
    split at h
    · cases h
    · cases hget : get s oi.name with
      | none =>
        rw [hget] at h
        cases h
      | some found =>
        obtain ⟨m, content⟩ := found
        rw [hget] at h
        simp only at h
        split at h
        · cases h
        · split at h
          · cases h
          · rw [uploadContent, hget]
            exact ⟨rfl, (Option.some.inj h).symm⟩

theorem prefix_append_iff {content piece rest : Content} :
    content <+: piece ++ rest ↔
      content.take piece.length <+: piece ∧ content.drop piece.length <+: rest := by
  constructor
  · intro h
    have htake := h.take piece.length
    have hdrop := h.drop piece.length
    rw [List.take_left] at htake
    rw [List.drop_left] at hdrop
    exact ⟨htake, hdrop⟩
  · rintro ⟨htake, hdrop⟩
    rcases Nat.le_total content.length piece.length with hle | hle
    · rw [List.take_of_length_le hle] at htake
      exact htake.trans (List.prefix_append _ _)
    · have hpiece : content.take piece.length = piece :=
        htake.eq_of_length (by rw [List.length_take, Nat.min_eq_left hle])
      rw [← List.take_append_drop piece.length content, hpiece]
      exact (List.prefix_append_right_inj _).mpr hdrop

/-- The loop keeps what it has read. -/
theorem partLoop_extends (files : ℕ → Option Content) (length : ℕ) (parts : List PartInfo) :
    ∀ {total : ℕ} {out all : Content}, partLoop files length parts total out = some all → out <+: all := by
  induction parts with
  | nil =>
    intro total out all h
    rw [Option.some.inj h]
  | cons part parts ih =>
    intro total out all h
    rw [partLoop] at h
    split at h
    · rw [Option.some.inj h]
    · obtain ⟨data, -, hloop⟩ := Option.bind_eq_some_iff.mp h
      exact (List.prefix_append _ _).trans (ih hloop)

/-- **The loop and the files.**  What it adds begins with a content iff the files hold it. -/
theorem partLoop_holds_iff (files : ℕ → Option Content) (length : ℕ) (parts : List PartInfo) :
    ∀ (total : ℕ) (out content : Content), total ≤ length →
      ((∃ all, partLoop files length parts total out = some all ∧ out ++ content <+: all) ↔
        PartsHold files parts (length - total) content) := by
  -- a loop that is over adds nothing
  have hover : ∀ out content : Content,
      (∃ all, some out = some all ∧ out ++ content <+: all) ↔ content = [] := by
    intro out content
    constructor
    · rintro ⟨all, hall, hpre⟩
      have hlen := hpre.length_le
      rw [← Option.some.inj hall, List.length_append] at hlen
      exact List.length_eq_zero_iff.mp (by omega)
    · rintro rfl
      exact ⟨out, rfl, by rw [List.append_nil]⟩
  induction parts with
  | nil =>
    intro total out content _
    exact hover out content
  | cons part parts ih =>
    intro total out content htotal
    rw [partLoop, PartsHold]
    by_cases hdone : length = total
    · rw [if_pos hdone, if_pos (by omega)]
      exact hover out content
    · rw [if_neg hdone, if_neg (by omega)]
      have hn : min part.size (length - total) ≤ length - total := Nat.min_le_right _ _
      set n := min part.size (length - total)
      cases hfile : files part.number with
      | none => simp [readFile]
      | some data =>
        by_cases hlong : n ≤ data.length
        · have hpiece : (data.take n).length = n := by rw [List.length_take, Nat.min_eq_left hlong]
          have ih' := ih (total + n) (out ++ data.take n) (content.drop n) (by omega)
          rw [← Nat.sub_sub] at ih'
          simp only [readFile, Option.bind_some, hlong, if_true, Option.some.injEq, exists_eq_left',
            true_and, ← ih']
          -- the piece of the part stands in front of what follows
          have hsplit : ∀ all, out ++ data.take n <+: all → (out ++ content <+: all ↔
              content.take n <+: data ∧ (out ++ data.take n) ++ content.drop n <+: all) := by
            rintro all ⟨rest, rfl⟩
            rw [List.append_assoc, List.append_assoc, List.prefix_append_right_inj,
              List.prefix_append_right_inj, List.prefix_append_right_inj, prefix_append_iff, hpiece,
              List.prefix_take_iff, List.length_take]
            simp
          constructor
          · rintro ⟨all, hloop, hpre⟩
            have h := (hsplit all (partLoop_extends files length parts hloop)).mp hpre
            exact ⟨h.1, all, hloop, h.2⟩
          · rintro ⟨hdata, all, hloop, hpre⟩
            exact ⟨all, hloop,
              (hsplit all (partLoop_extends files length parts hloop)).mpr ⟨hdata, hpre⟩⟩
        · simp [readFile, hlong]

/-- The data file and a content. -/
theorem readFile_holds_iff (file : Option Content) (size : ℕ) {content : Content} :
    (∃ all, readFile file size = some all ∧ content <+: all) ↔
      ∃ data, file = some data ∧ content.length ≤ size ∧ size ≤ data.length ∧ content <+: data := by
  cases file with
  | none => simp [readFile]
  | some data =>
    by_cases hlong : size ≤ data.length
    · simp only [readFile, Option.bind_some, hlong, if_true, Option.some.injEq, exists_eq_left',
        List.prefix_take_iff, true_and]
      exact And.comm
    · simp [readFile, hlong]

theorem limit_eq_some_iff (read : Option Content) {content : Content} (hne : content ≠ []) :
    limit read content.length = some content ↔ ∃ all, read = some all ∧ content <+: all := by
  cases read with
  | none => simp [limit, hne]
  | some all => simp [limit, List.prefix_iff_eq_take, eq_comm]

/-- **What an upload finds** is the content exactly if the object's files hold it. -/
theorem uploadContent_iff {object : GoString} (content : Content) (hget : (get s object).isSome) :
    uploadContent s object content.length = some content ↔ ContentHeld s object content := by
  rw [uploadContent, ContentHeld]
  by_cases hne : content = []
  · subst hne
    cases (get s object).bind Prod.snd <;> simp [limit]
  · rw [limit_eq_some_iff _ hne]
    simp only [hne, false_or]
    rw [get] at hget ⊢
    cases hjson : s.cacheJson with
    | none => simp [hjson] at hget
    | some m =>
      simp only [hjson, Option.some.injEq, exists_eq_left'] at hget ⊢
      split at hget
      · cases hget
      · next hthere =>
        rw [if_neg hthere]
        by_cases hdir : List.isSuffixOf (lit "/") object = true
        · simp [hdir, hne]
        · simp only [hdir, Bool.false_eq_true, if_false, true_and]
          by_cases hparts : m.parts = []
          · simp only [hparts, ne_eq, not_true_eq_false, if_false, if_true, Option.bind_some]
            exact readFile_holds_iff _ _
          · simp only [hparts, ne_eq, not_false_eq_true, if_true, if_false]
            cases hlast : cacheObjectToPartOffset m.parts (m.size - 1) with
            | none => simp
            | some last =>
              have hloop := partLoop_holds_iff s.files m.size (m.parts.take (last.1 + 1)) 0 []
                content (Nat.zero_le _)
              simpa using hloop

/-- Right after the put the files hold the content, unless the name is that of a directory or `cache.json`
lists parts. -/
theorem contentHeld_putWriteback (codec : Codec) (s : WbCache) (r : PutRequest) (now : GoTime)
    (hname : List.isSuffixOf (lit "/") r.object = false)
    (hparts : ∀ m, s.cacheJson = some m → m.parts = []) :
    ContentHeld (putWriteback codec r now s) r.object r.content := by
  have hnone : (s.cacheJson.map WbMeta.parts).getD [] = [] := by
    cases hjson : s.cacheJson with
    | none => rfl
    | some m => exact hparts m hjson
  refine Or.inr ⟨hname, _, rfl, ?_⟩
  rw [if_pos hnone, if_pos (writebackInProgress_put r now)]
  exact ⟨r.content, rfl, le_refl _, le_refl _, List.prefix_refl _⟩

end Upload

/-- **Writeback and the direct put.**  Whatever the cache has become when the upload of a put gets to the
backend: it makes the call of the direct put exactly if there is no user metadata and the object's files
hold the content. -/
theorem writeback_delivers_iff (codec : Codec) (r : PutRequest) (now : GoTime) (s : WbCache)
    (p : BackendPut) (hp : uploadObject s (putInfo codec r now) = some p) :
    SameCall p (putDirect r) ↔
      NoMetadata r.userDefined ∧ ContentHeld s r.object r.content := by
  obtain ⟨hget, rfl⟩ := uploadObject_eq_some hp
  have hmeta : (∀ key, key ≠ contentMD5 → (GoMap.empty.put contentMD5
      (((putInfo codec r now).userDefined.get (lit "content-md5")).getD [])).get key =
        r.userDefined.get key) ↔ NoMetadata r.userDefined := by
    refine forall_congr' fun key => imp_congr_right fun hkey => ?_
    rw [get_put, if_neg hkey, get_empty]
    exact eq_comm
  have hcontent := uploadContent_iff r.content hget
  rw [SameCall, show (putDirect r).userDefined = r.userDefined from rfl, hmeta]
  exact ⟨fun h => ⟨h.2.2.2, hcontent.mp h.2.2.1⟩, fun h => ⟨rfl, rfl, hcontent.mpr h.2, h.1⟩⟩

/-! ### The other models of the cache -/

/-- **The part loops agree** on files that have all bytes of their parts. -/
theorem partLoop_eq_readParts (files : ℕ → Option Content) (length : ℕ) {parts : List PartInfo}
    (hlong : ∀ part ∈ parts, ∀ data, files part.number = some data → part.size ≤ data.length) :
    ∀ (total : ℕ) (out : Content), total ≤ length → partLoop files length parts total out =
      (CacheServe.readParts files (parts.map fun part => (part.number, part.size))
        (length - total)).map (out ++ ·) := by
  induction parts with
  | nil =>
    intro total out _
    simp [partLoop, CacheServe.readParts]
  | cons part parts ih =>
    intro total out htotal
    rw [partLoop, List.map_cons, CacheServe.readParts]
    by_cases hdone : length = total
    · simp [hdone]
    · rw [if_neg hdone, if_neg (by omega)]
      cases hfile : files part.number with
      | none => simp [readFile]
      | some data =>
        have hpart := hlong part List.mem_cons_self data hfile
        have ih' := ih (fun p hp => hlong p (List.mem_cons_of_mem _ hp))
          (total + min part.size (length - total))
          (out ++ data.take (min part.size (length - total))) (by omega)
        simp only [readFile, Option.bind_some]
        rw [if_pos (by omega), Option.bind_some, ih', ← Nat.sub_sub]
        cases CacheServe.readParts files (parts.map fun part => (part.number, part.size))
            (length - total - min part.size (length - total)) <;> simp

def statusText : CommitStatus → GoString
  | .pending => commitPending
  | .complete => commitComplete
  | .failed => commitFailed

/-- The entries of the metadata that `CacheWriteback` keeps. -/
structure SameEntries (m : MetaMap) (d : Metadata) : Prop where
  etag : extractETag m = d.etag.getD []
  status : m.get writeBackStatusHeader = d.status.map statusText

/-- The state and the object info of an upload, without the entries of the metadata that it does not look
at: no parts, and a data file with as many bytes as `cache.json` says. -/
structure Abstracts (s : WbCache) (oi : WbInfo) (o : CacheWriteback.CacheState) (info : ObjectInfo) :
    Prop where
  name : List.isSuffixOf (lit "/") oi.name = false
  tree : (s.listTree (objPath oi.bucket oi.name)).map WbInfo.modTime = o.listTree.map ObjectInfo.modTime
  json : Option.Rel (fun m c => m.parts = [] ∧ SameEntries m.metadata c.metadata ∧ m.size = c.size ∧
    oi.size ≤ m.size ∧ ∀ data, dataFile o.files c = some data → m.size ≤ data.length) s.cacheJson
    o.files.cacheJson
  part : s.files 1 = o.files.part
  writeback : s.writeback = o.files.writeback
  etag : oi.etag = info.etag
  size : oi.size = info.size
  modTime : oi.modTime = info.modTime
  status : oi.userDefined.get writeBackStatusHeader = info.userDefined.status.map statusText

theorem SameEntries.writebackInProgress_eq {m : MetaMap} {d : Metadata} (h : SameEntries m d) :
    writebackInProgress m = DiskCache.writebackInProgress d := by
  rw [writebackInProgress, h.status, DiskCache.writebackInProgress]
  cases d.status with
  | none => rfl
  | some status => cases status <;> decide

/-- `Get` finds the same, and what is passed on of it is the same. -/
theorem get_eq_steps {s : WbCache} {oi : WbInfo} {o : CacheWriteback.CacheState} {info : ObjectInfo}
    (h : Abstracts s oi o info) :
    (get s oi.name).map (fun r => (extractETag r.1.metadata, limit r.2 oi.size)) =
      (DiskCache.get o.files).map fun r => (r.1.etag, CacheWriteback.uploadData ⟨r.1, r.2⟩ info) := by
  have hjson := h.json
  rw [get]
  cases hs : s.cacheJson with
  | none =>
    rw [hs] at hjson
    cases ho : o.files.cacheJson with
    | none => simp [DiskCache.get, DiskCache.statCache, ho]
    | some c =>
      rw [ho] at hjson
      cases hjson
  | some m =>
    rw [hs] at hjson
    cases ho : o.files.cacheJson with
    | none =>
      rw [ho] at hjson
      cases hjson
    | some c =>
      rw [ho] at hjson
      obtain ⟨hparts, hentries, hsize, hle, hlong⟩ := Option.rel_some_some.mp hjson
      have hprogress := hentries.writebackInProgress_eq
      -- the data file is one and the same
      have hfile : (if writebackInProgress m.metadata then s.writeback else s.files 1) =
          dataFile o.files c := by
        rw [dataFile, hprogress, h.writeback, h.part]
      rw [DiskCache.get_of_json ho, ← hprogress, ← h.part]
      by_cases hthere : writebackInProgress m.metadata = true ∨ (s.files 1).isSome = true
      · have hfound : ¬ (!writebackInProgress m.metadata && (s.files 1).isNone) = true := by
          rcases hthere with hp | hp <;> simp [hp, Option.isSome_iff_ne_none.mp]
        have hdata : limit (readFile (dataFile o.files c) m.size) oi.size =
            CacheWriteback.uploadData ⟨c.toObjectInfo, dataFile o.files c⟩ info := by
          cases hd : dataFile o.files c with
          | none => simp [readFile, limit, CacheWriteback.uploadData, h.size]
          | some data =>
            rw [h.size] at hle
            simp [readFile, limit, CacheWriteback.uploadData, h.size, hlong data hd, List.take_take, hle]
        have hetag : extractETag m.metadata = c.toObjectInfo.etag := hentries.etag
        simp [hfound, h.name, hparts, hthere, hfile, hdata, hetag]
      · have hgone : (!writebackInProgress m.metadata && (s.files 1).isNone) = true := by
          simpa using hthere
        simp [hgone, hthere]

/-- **The uploads agree**: what reaches the backend is what the steps of `CacheWriteback` pass on. -/
theorem uploadObject_eq_steps {s : WbCache} {oi : WbInfo} {o : CacheWriteback.CacheState}
    {info : ObjectInfo} (h : Abstracts s oi o info) :
    (uploadObject s oi).map BackendPut.content =
      (CacheWriteback.uploadLookup o.listTree info).bind fun _ =>
        (CacheWriteback.uploadOpen o.files info).map fun r => CacheWriteback.uploadData r info := by
  have htree := h.tree
  have hget := get_eq_steps h
  have hstatus := h.status
  unfold uploadObject CacheWriteback.uploadLookup CacheWriteback.uploadOpen
  cases hs : s.listTree (objPath oi.bucket oi.name) with
  | none =>
    rw [hs] at htree
    rw [Option.map_eq_none_iff.mp htree.symm]
    rfl
  | some cached =>
    rw [hs] at htree
    obtain ⟨entry, ho, htime⟩ := Option.map_eq_some_iff.mp htree.symm
    simp only [ho, htime, h.modTime]
    split
    · rfl
    · cases hg : get s oi.name with
      | none =>
        rw [hg] at hget
        rw [Option.map_eq_none_iff.mp hget.symm]
        rfl
      | some found =>
        rw [hg] at hget
        obtain ⟨⟨finfo, fcontent⟩, hf, hfound⟩ := Option.map_eq_some_iff.mp hget.symm
        have hetag : extractETag found.1.metadata = finfo.etag := (congrArg Prod.fst hfound).symm
        have hdata : limit found.2 oi.size = CacheWriteback.uploadData ⟨finfo, fcontent⟩ info :=
          (congrArg Prod.snd hfound).symm
        simp only [hf, hetag, h.etag, hdata, hstatus, Option.bind_some]
        split
        · rfl
        · cases info.userDefined.status with
          | none => rfl
          | some status => cases status <;> rfl

/-! ### Two puts to an empty cache -/

def plainCodec : Codec := ⟨id, id, id, fun _ => []⟩

def emptyCache : WbCache := ⟨none, fun _ => none, none, fun _ => none⟩

def plainPut (userDefined : MetaMap) : PutRequest := ⟨lit "b", lit "o", [1, 2], userDefined⟩

/-- Without user metadata the upload makes the call of the direct put. -/
theorem writeback_delivers_iff_plain :
    ∃ p, uploadObject (putWriteback plainCodec (plainPut GoMap.empty) 1 emptyCache)
        (putInfo plainCodec (plainPut GoMap.empty) 1) = some p ∧
      SameCall p (putDirect (plainPut GoMap.empty)) :=
  ⟨_, rfl, (writeback_delivers_iff plainCodec _ 1 _ _ rfl).mpr ⟨fun _ _ => rfl,
    contentHeld_putWriteback plainCodec emptyCache (plainPut GoMap.empty) 1 rfl (fun _ h => nomatch h)⟩⟩

/-- **The content type is lost.** -/
theorem writeback_loses_content_type :
    let r := plainPut (GoMap.empty.put (lit "content-type") (lit "text/plain"))
    ∃ p, uploadObject (putWriteback plainCodec r 1 emptyCache) (putInfo plainCodec r 1) = some p ∧
      p.userDefined.get (lit "content-type") = none ∧
      (putDirect r).userDefined.get (lit "content-type") = some (lit "text/plain") :=
  ⟨⟨lit "b", lit "o", some [1, 2], GoMap.empty.put contentMD5 [1, 2]⟩, rfl, rfl, rfl⟩

end Zs3Server.Cmd.WritebackPut
