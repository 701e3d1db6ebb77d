import Zs3Server.Lib.GoTime
import Zs3Server.Lib.GoUtf8

/-!
# The disk cache: one object on a cache drive

What the cache keeps of an object: `cache.json` and the data file `part.1` in the object's cache
directory, and another `part.1` in its writeback directory while the write has not been committed to
the backend.  The operations here are the sections of `diskCache` that run under the cache lock; each
is a function of the object's files.

* `CacheControl.isStale`, `cacheControlOpts` — cache-control settings;
* `CacheMeta.toObjectInfo` — the object info rebuilt from `cache.json`;
* `saveMetadata`, `lockedSaveMetadata`, `put`, `putWriteback`, `statCache`, `stat`, `get`, `delete`;
* `statCache_of_json`, `stat_of_json`, `get_of_json` — what a read finds, by `cache.json`.
-/

namespace Zs3Server.Cmd.DiskCache

open Lib.ByteString
open Lib.GoInt64 (wrap64 IsInt64 wrap64_of_mem)
open Lib.GoTime
open Lib.GoUtf8 (trimSpace)

/-! ### Times -/

/-- `timeSentinel`, the Unix epoch. -/
def timeSentinel : GoTime := 0

/-- A time formatted with `http.TimeFormat` and parsed again: the format has no fractions of a
second. -/
def httpTime (t : GoTime) : GoTime := t / second * second

/-- `int(now.Sub(t).Seconds())`; the difference saturates. -/
def ageSeconds (now t : GoTime) : ℤ := (max (-2 ^ 63) (min (now - t) (2 ^ 63 - 1))).tdiv second

/-! ### Cache-control settings -/

/-- `cacheControl`; `expiry` is the zero time if it is not set. -/
structure CacheControl where
  expiry : GoTime
  maxAge : ℤ
  sMaxAge : ℤ
  minFresh : ℤ
  maxStale : ℤ
  noStore : Bool
  onlyIfCached : Bool
  noCache : Bool
  deriving DecidableEq

def CacheControl.isStale (c : CacheControl) (now modTime : GoTime) : Bool :=
  if c.onlyIfCached then false
  else if c.noStore then true
  else if c.noCache then true
  else if 0 < c.sMaxAge ∧ c.sMaxAge < ageSeconds now modTime then true
  else if 0 < c.maxAge ∧ c.maxAge < ageSeconds now modTime then true
  -- the seconds of max-stale are taken for nanoseconds
  else if c.expiry ≠ zeroTime ∧ c.expiry < now + c.maxStale then true
  else if 0 < c.minFresh ∧ c.minFresh ≤ ageSeconds now modTime then true
  else false

/-- `strings.ToLower`, for all characters whose lower case is in ASCII: the letters, `İ` and the Kelvin
sign. -/
def toLower : GoString → GoString
  | [] => []
  | [c] => [lower c]
  | [c, d] => if c = 0xC4 ∧ d = 0xB0 then [105] else [lower c, lower d]
  | c :: d :: e :: s =>
    if c = 0xC4 ∧ d = 0xB0 then 105 :: toLower (e :: s)
    else if c = 0xE2 ∧ d = 0x84 ∧ e = 0xAA then 107 :: toLower s
    else lower c :: toLower (d :: e :: s)
where
  lower (c : UInt8) : UInt8 := if 65 ≤ c ∧ c ≤ 90 then c + 32 else c

/-- One directive of the header; `none` if its number cannot be read, which makes the whole header
count for nothing. -/
def CacheControl.directive (c : CacheControl) (val : GoString) : Option CacheControl :=
  if val = lit "no-store" then some { c with noStore := true }
  else if val = lit "only-if-cached" then some { c with onlyIfCached := true }
  else if val = lit "no-cache" then some { c with noCache := true }
  else
    match val.splitOn 61 with
    | [key, num] =>
      if key = lit "max-age" then (parseInt num).map fun i => { c with maxAge := i }
      else if key = lit "s-maxage" then (parseInt num).map fun i => { c with sMaxAge := i }
      else if key = lit "min-fresh" then (parseInt num).map fun i => { c with minFresh := i }
      else if key = lit "max-stale" then (parseInt num).map fun i => { c with maxStale := i }
      else some c
    | _ => some c

/-! ### Metadata -/

/-- The writeback status; an object that was not written back has none. -/
inductive CommitStatus where
  | pending
  | complete
  | failed
  deriving DecidableEq

/-- The entries of the metadata map that the cache reads. -/
structure Metadata where
  etag : Option GoString
  status : Option CommitStatus
  retry : ℕ
  lastModified : Option GoTime
  expires : Option GoTime
  cacheControl : GoString
  deriving DecidableEq

/-- An empty map. -/
def Metadata.empty : Metadata := ⟨none, none, 0, none, none, []⟩

def writebackInProgress (m : Metadata) : Bool :=
  match m.status with
  | some .pending => true
  | some .failed => true
  | _ => false

/-- The metadata that stays in an object info: the entries with a field of their own are removed. -/
def cleanMetadata (m : Metadata) : Metadata :=
  { m with etag := none, expires := none, lastModified := none }

/-- The fields of `ObjectInfo` that the cache uses. -/
structure ObjectInfo where
  etag : GoString
  size : ℕ
  modTime : GoTime
  expires : GoTime
  userDefined : Metadata
  deriving DecidableEq

/-- The cache-control settings of an object, if it has any. -/
def cacheControlOpts (o : ObjectInfo) : Option CacheControl :=
  let expiry := if o.expires = timeSentinel then zeroTime else o.expires
  let c : CacheControl := ⟨expiry, 0, 0, 0, 0, false, false, false⟩
  if o.userDefined.cacheControl = [] then none
  else
    ((trimSpace (toLower o.userDefined.cacheControl)).splitOn 44).foldl
      (fun c val => c.bind fun c => c.directive (trimSpace val)) (some c)

-- a no-break space at the end is trimmed too
example : (cacheControlOpts ⟨[], 0, 0, 0, { Metadata.empty with
    cacheControl := lit "No-Store" ++ [0xC2, 0xA0] }⟩).map (·.noStore) = some true := by
  decide +kernel

/-- The metadata kept for an object of the backend. -/
def getMetadata (o : ObjectInfo) : Metadata :=
  { o.userDefined with
    etag := some o.etag
    expires := if o.expires = timeSentinel then none else some (httpTime o.expires)
    lastModified := some (httpTime o.modTime) }

/-- The contents of `cache.json`. -/
structure CacheMeta where
  size : ℕ
  metadata : Metadata
  hits : ℕ
  deriving DecidableEq

def CacheMeta.toObjectInfo (m : CacheMeta) : ObjectInfo where
  etag := m.metadata.etag.getD []
  size := m.size
  modTime := m.metadata.lastModified.getD zeroTime
  expires := m.metadata.expires.getD zeroTime
  userDefined := cleanMetadata m.metadata

/-! ### The files of an object -/

/-- The content of an object. -/
abbrev Content := List UInt8

/-- The files of an object: `cache.json` and `part.1` in its cache directory, `part.1` in its
writeback directory. -/
structure ObjectFiles where
  cacheJson : Option CacheMeta
  part : Option Content
  writeback : Option Content
  deriving DecidableEq

/-- Nothing is cached. -/
def ObjectFiles.empty : ObjectFiles := ⟨none, none, none⟩

/-- `saveMetadata` for a whole object (no range): `cache.json` is written anew, or only its hit counter
is. -/
def saveMetadata (f : ObjectFiles) (metadata : Metadata) (actualSize : ℕ) (incHitsOnly : Bool) :
    ObjectFiles :=
  let m := f.cacheJson.getD ⟨0, .empty, 0⟩
  { f with
    cacheJson := some {
      size := actualSize
      metadata :=
        if incHitsOnly then { m.metadata with etag := m.metadata.etag.or metadata.etag }
        else metadata
      hits := m.hits + 1 } }

/-- `SaveMetadata`: with `finalizeWB` the data file is moved from the writeback directory to the cache
directory, if it is there. -/
def lockedSaveMetadata (f : ObjectFiles) (metadata : Metadata) (actualSize : ℕ)
    (incHitsOnly finalizeWB : Bool) : ObjectFiles :=
  let f := saveMetadata f metadata actualSize incHitsOnly
  if finalizeWB then
    match f.writeback with
    | some data => { f with part := some data, writeback := none }
    | none => f
  else f

/-- `put` without writeback: the data goes to the cache directory. -/
def put (f : ObjectFiles) (userDefined : Metadata) (data : Content) : ObjectFiles :=
  saveMetadata { f with part := some data } userDefined data.length false

section Writeback

variable (md5Hex : Content → GoString)

/-- The object info of a writeback `put` at the time `now`. -/
def writebackInfo (userDefined : Metadata) (data : Content) (now : GoTime) : ObjectInfo where
  etag := md5Hex data
  size := data.length
  modTime := now
  expires := zeroTime
  userDefined := { userDefined with
    etag := some (md5Hex data)
    status := some .pending
    lastModified := some (httpTime now) }

/-- `put` with writeback: the data goes to the writeback directory, and `cache.json` says that the
commit is pending. -/
def putWriteback (f : ObjectFiles) (userDefined : Metadata) (data : Content) (now : GoTime) :
    ObjectFiles :=
  let oi := writebackInfo md5Hex userDefined data now
  saveMetadata { f with writeback := some data } oi.userDefined data.length false

end Writeback

/-- `delete`: the cache directory is removed; the writeback directory is not. -/
def delete (f : ObjectFiles) : ObjectFiles := { f with cacheJson := none, part := none }

/-- `statCache`: the metadata, and whether the data file is missing. -/
def statCache (f : ObjectFiles) : Option (CacheMeta × Bool) :=
  f.cacheJson.map fun m => (m, !writebackInProgress m.metadata && f.part.isNone)

/-- `Stat`. -/
def stat (f : ObjectFiles) : Option ObjectInfo :=
  match statCache f with
  | some (m, false) => some m.toObjectInfo
  | _ => none

/-- The data file that the goroutine of `Get` reads. -/
def dataFile (f : ObjectFiles) (m : CacheMeta) : Option Content :=
  if writebackInProgress m.metadata then f.writeback else f.part

/-- `Get` for the whole object: its info and the data file it is read from.  A data file that is
missing shows when it is opened. -/
def get (f : ObjectFiles) : Option (ObjectInfo × Option Content) :=
  match statCache f with
  | some (m, false) => some (m.toObjectInfo, dataFile f m)
  | _ => none

/-! ### What a read finds -/

variable {f : ObjectFiles}

theorem statCache_of_json {m : CacheMeta} (hm : f.cacheJson = some m) :
    statCache f = some (m, !writebackInProgress m.metadata && f.part.isNone) := by
  unfold statCache
  rw [hm]
  rfl

theorem get_of_json {m : CacheMeta} (hm : f.cacheJson = some m) :
    get f = if writebackInProgress m.metadata = true ∨ f.part.isSome = true
      then some (m.toObjectInfo, dataFile f m) else none := by
  unfold get
  rw [statCache_of_json hm]
  cases writebackInProgress m.metadata <;> cases f.part <;> simp

theorem get_eq_some {f : ObjectFiles} {info : ObjectInfo} {d : Option Content}
    (h : get f = some (info, d)) :
    ∃ m, f.cacheJson = some m ∧ info = m.toObjectInfo ∧ d = dataFile f m := by
  cases hm : f.cacheJson with
  | none => simp [get, statCache, hm] at h
  | some m =>
    rw [get_of_json hm] at h
    split at h
    · obtain ⟨rfl, rfl⟩ := Prod.mk.inj (Option.some.inj h)
      exact ⟨m, rfl, rfl, rfl⟩
    · cases h

end Zs3Server.Cmd.DiskCache
