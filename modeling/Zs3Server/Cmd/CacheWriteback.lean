import Zs3Server.Lib.StepSystem
import Zs3Server.Cmd.DiskCache

/-!
# Writeback: cached puts and their uploads

In writeback mode `PutObject` stores the object in the cache under the cache lock, enters it in the
list tree and queues it; `uploadObject` later reads it from the cache, puts it to the backend and
records the outcome in `cache.json`.  Only the sections of `diskCache` are locked: between two steps of
a run any step of another may happen.

* `uploadLookup`, `uploadOpen`, `uploadData`, `uploadSave` — what the steps of `uploadObject` compute;
* `uploadStep`, `UploadTrans` — one run of `uploadObject`, step by step;
* `uploadObject` — a whole run without interference;
* `wbStep`, `WbTrans` — any number of puts and upload runs on one object, with one `DeleteObject`.
-/

namespace Zs3Server.Cmd.CacheWriteback

open Lib.ByteString
open Lib.StepSystem
open Lib.GoTime
open Cmd.DiskCache

/-! ### What the steps of an upload compute -/

/-- An object as the cache layer sees it: its files on the cache drive, its entry in the list tree and
its content in the backend. -/
structure CacheState where
  files : ObjectFiles
  listTree : Option ObjectInfo
  backend : Option Content
  deriving DecidableEq

/-- The lookup in the list tree: the modification time found there, if the run goes on. -/
def uploadLookup (listTree : Option ObjectInfo) (oi : ObjectInfo) : Option GoTime :=
  match listTree with
  | none => none
  | some cached =>
    if cached.modTime ≠ zeroTime ∧ unixNano cached.modTime ≠ unixNano oi.modTime then none
    else some cached.modTime

/-- What `Get` hands to the upload: the info from `cache.json` and the content behind the reader, none
if the data file is missing. -/
structure UploadReader where
  info : ObjectInfo
  content : Option Content
  deriving DecidableEq

/-- The read from the cache and the checks after it. -/
def uploadOpen (files : ObjectFiles) (oi : ObjectInfo) : Option UploadReader :=
  match get files with
  | none => none
  | some (info, content) =>
    if info.etag ≠ oi.etag then none
    else
      match oi.userDefined.status with
      | none => none
      | some .complete => none
      | some _ => some ⟨info, content⟩

/-- What the backend is given: at most the first `oi.size` bytes, so that an empty object needs no data
file. -/
def uploadData (r : UploadReader) (oi : ObjectInfo) : Option Content :=
  match r.content with
  | some data => some (data.take oi.size)
  | none => if oi.size = 0 then some [] else none

/-- The metadata saved after the put to the backend. -/
def uploadMetadata (r : UploadReader) (oi : ObjectInfo) (ok : Bool) : Metadata :=
  { r.info.userDefined with
    retry := if ok then 0 else r.info.userDefined.retry + 1
    status := some (if ok then .complete else .failed)
    etag := some oi.etag }

def uploadSave (files : ObjectFiles) (r : UploadReader) (oi : ObjectInfo) (ok : Bool) : ObjectFiles :=
  lockedSaveMetadata files (uploadMetadata r oi ok) (if ok then oi.size else r.info.size) false ok

theorem uploadSave_cacheJson {files : ObjectFiles} {r : UploadReader} {oi : ObjectInfo} {ok : Bool} :
    (uploadSave files r oi ok).cacheJson = some
      { size := if ok then oi.size else r.info.size
        metadata := uploadMetadata r oi ok
        hits := (files.cacheJson.getD ⟨0, .empty, 0⟩).hits + 1 } := by
  cases ok with
  | false => rfl
  | true =>
    unfold uploadSave lockedSaveMetadata
    simp only [↓reduceIte]
    split <;> rfl

def checkTimeAndDelete (listTree : Option ObjectInfo) (time : GoTime) : Option ObjectInfo :=
  match listTree with
  | none => none
  | some v => if unixNano v.modTime = unixNano time then none else some v

theorem uploadOpen_eq_some {f : ObjectFiles} {oi : ObjectInfo} {r : UploadReader}
    (h : uploadOpen f oi = some r) :
    get f = some (r.info, r.content) ∧ r.info.etag = oi.etag := by
  unfold uploadOpen at h
  cases hget : get f with
  | none => simp [hget] at h
  | some p =>
    obtain ⟨info, d⟩ := p
    rw [hget] at h
    simp only at h
    split at h
    · cases h
    · next hetag =>
      split at h
      · cases h
      · cases h
      · cases h
        exact ⟨rfl, not_not.mp hetag⟩

/-! ### One run of `uploadObject` -/

/-- Where a run of `uploadObject` is. -/
inductive UploadPc where
  | idle
  | starting (oi : ObjectInfo)
  | checked (oi : ObjectInfo) (time : GoTime)
  | opened (oi : ObjectInfo) (time : GoTime) (r : UploadReader)
  | stored (oi : ObjectInfo) (time : GoTime) (r : UploadReader)
  | saving (oi : ObjectInfo) (r : UploadReader) (ok : Bool)
  deriving DecidableEq

inductive UploadAct where
  | lookup
  | openReader
  | putBackend (ok : Bool)
  | dropEntry
  | save
  deriving DecidableEq

/-- One step of a run.  After a failed put it starts again with the same object info. -/
def uploadStep (o : CacheState) : UploadPc → UploadAct → Option (CacheState × UploadPc)
  | .starting oi, .lookup =>
    match uploadLookup o.listTree oi with
    | some time => some (o, .checked oi time)
    | none => some (o, .idle)
  | .checked oi time, .openReader =>
    match uploadOpen o.files oi with
    | some r => some (o, .opened oi time r)
    | none => some (o, .idle)
  | .opened oi _ r, .putBackend false => some (o, .saving oi r false)
  | .opened oi time r, .putBackend true =>
    match uploadData r oi with
    | some data => some ({ o with backend := some data }, .stored oi time r)
    | none => none
  | .stored oi time r, .dropEntry =>
    some ({ o with listTree := checkTimeAndDelete o.listTree time }, .saving oi r true)
  | .saving oi r ok, .save =>
    some ({ o with files := uploadSave o.files r oi ok }, if ok then .idle else .starting oi)
  | _, _ => none

/-- The steps of a run, with what each of them found. -/
inductive UploadTrans (o : CacheState) : UploadPc → UploadAct → CacheState → UploadPc → Prop
  | found {oi time} : uploadLookup o.listTree oi = some time →
      UploadTrans o (.starting oi) .lookup o (.checked oi time)
  | modified {oi} : UploadTrans o (.starting oi) .lookup o .idle
  | opened {oi time r} : uploadOpen o.files oi = some r →
      UploadTrans o (.checked oi time) .openReader o (.opened oi time r)
  | gone {oi time} : UploadTrans o (.checked oi time) .openReader o .idle
  | failed {oi time r} :
      UploadTrans o (.opened oi time r) (.putBackend false) o (.saving oi r false)
  | stored {oi time r data} : uploadData r oi = some data →
      UploadTrans o (.opened oi time r) (.putBackend true) { o with backend := some data }
        (.stored oi time r)
  | dropped {oi time r} :
      UploadTrans o (.stored oi time r) .dropEntry
        { o with listTree := checkTimeAndDelete o.listTree time } (.saving oi r true)
  | saved {oi r} :
      UploadTrans o (.saving oi r true) .save { o with files := uploadSave o.files r oi true } .idle
  | retried {oi r} :
      UploadTrans o (.saving oi r false) .save { o with files := uploadSave o.files r oi false }
        (.starting oi)

theorem uploadStep_trans {o o' : CacheState} {pc pc' : UploadPc} {a : UploadAct}
    (h : uploadStep o pc a = some (o', pc')) : UploadTrans o pc a o' pc' := by
  cases pc with
  | idle => simp [uploadStep] at h
  | starting oi =>
    cases a <;> simp only [uploadStep, reduceCtorEq] at h
    split at h
    · next time hlook =>
      cases h
      exact .found hlook
    · cases h
      exact .modified
  | checked oi time =>
    cases a <;> simp only [uploadStep, reduceCtorEq] at h
    split at h
    · next r hopen =>
      cases h
      exact .opened hopen
    · cases h
      exact .gone
  | opened oi time r =>
    cases a with
    | putBackend ok =>
      cases ok with
      | false =>
        cases h
        exact .failed
      | true =>
        simp only [uploadStep] at h
        split at h
        · next data hdata =>
          cases h
          exact .stored hdata
        · cases h
    | lookup | openReader | dropEntry | save => simp [uploadStep] at h
  | stored oi time r =>
    cases a with
    | dropEntry =>
      cases h
      exact .dropped
    | lookup | openReader | putBackend | save => simp [uploadStep] at h
  | saving oi r ok =>
    cases a with
    | save =>
      cases ok with
      | false =>
        cases h
        exact .retried
      | true =>
        cases h
        exact .saved
    | lookup | openReader | putBackend | dropEntry => simp [uploadStep] at h

/-- The object info of a run. -/
def UploadPc.info : UploadPc → Option ObjectInfo
  | .idle => none
  | .starting oi => some oi
  | .checked oi _ => some oi
  | .opened oi _ _ => some oi
  | .stored oi _ _ => some oi
  | .saving oi _ _ => some oi

/-- The reader of a run that is between its read and its save. -/
def UploadPc.reader : UploadPc → Option (ObjectInfo × UploadReader)
  | .opened oi _ r => some (oi, r)
  | .stored oi _ r => some (oi, r)
  | .saving oi r _ => some (oi, r)
  | _ => none

/-- The run has put its content to the backend and not saved this yet. -/
def UploadPc.committed : UploadPc → Bool
  | .stored _ _ _ => true
  | .saving _ _ ok => ok
  | _ => false

/-! ### A whole run -/

/-- One run of `uploadObject` with nothing else going on, for a backend that accepts every upload.  A
missing data file fails the put, and the run starts again: here this is one attempt. -/
def uploadObject (o : CacheState) (oi : ObjectInfo) : CacheState :=
  match uploadLookup o.listTree oi with
  | none => o
  | some time =>
    match uploadOpen o.files oi with
    | none => o
    | some r =>
      match uploadData r oi with
      | some data =>
        { files := uploadSave o.files r oi true
          listTree := checkTimeAndDelete o.listTree time
          backend := some data }
      | none => { o with files := uploadSave o.files r oi false }

/-- Where a `PutObject` call is: a cached put after its locked section, or one that goes to the
backend after the cache entry was deleted. -/
inductive PutPc where
  | idle
  | inserting (oi : ObjectInfo)
  | queueing (oi : ObjectInfo)
  | evicted
  | returned
  deriving DecidableEq

/-- The object info of a cached put that has not returned. -/
def PutPc.info : PutPc → Option ObjectInfo
  | .inserting oi => some oi
  | .queueing oi => some oi
  | _ => none

/-- Where the `DeleteObject` call is; `ok` is the result of the backend's delete. -/
inductive DeletePc where
  | idle
  | cacheDelete (ok : Bool)
  | treeDelete (ok : Bool)
  | returned (ok : Bool)
  deriving DecidableEq

/-- The whole system for one object: `queued` are the object infos waiting for a worker, `contents` the
contents stored by cached puts, in the order of their locked sections. -/
structure WbState (P U : Type*) where
  obj : CacheState
  queued : List ObjectInfo
  put : P → PutPc
  upload : U → UploadPc
  deletion : DeletePc
  contents : List Content

inductive WbAct (P U : Type*) where
  | putLocked (p : P) (userDefined : Metadata) (data : Content) (now : GoTime)
  | putInsert (p : P)
  | putQueue (p : P) (room : Bool)
  | putEvict (p : P)
  | putDirect (p : P) (data : Content)
  | scan
  | start (u : U) (oi : ObjectInfo)
  | upload (u : U) (a : UploadAct)
  | deleteBackend (ok : Bool)
  | deleteCache
  | deleteTree

section Machine

variable {P U : Type*} [DecidableEq P] [DecidableEq U]
variable (md5Hex : Content → GoString) (excluded : Bool)

/-- Nothing is cached yet. -/
def wbInit (backend : Option Content) : WbState P U where
  obj := ⟨.empty, none, backend⟩
  queued := []
  put := fun _ => .idle
  upload := fun _ => .idle
  deletion := .idle
  contents := []

/-- One step of the system; `excluded` says that the cache is not used for the object. -/
def wbStep (s : WbState P U) : WbAct P U → Option (WbState P U)
  | .putLocked p userDefined data now =>
    if s.put p = .idle ∧ excluded = false then
      some { s with
        obj := { s.obj with files := putWriteback md5Hex s.obj.files userDefined data now }
        put := Function.update s.put p (.inserting (writebackInfo md5Hex userDefined data now))
        contents := s.contents ++ [data] }
    else none
  | .putInsert p =>
    match s.put p with
    | .inserting oi =>
      some { s with
        obj := { s.obj with listTree := some oi }
        put := Function.update s.put p (.queueing oi) }
    | _ => none
  | .putQueue p room =>
    match s.put p with
    | .queueing oi =>
      some { s with
        -- a full channel drops the object
        queued := if room then s.queued ++ [oi] else s.queued
        put := Function.update s.put p .returned }
    | _ => none
  | .putEvict p =>
    if s.put p = .idle then
      some { s with
        obj := { s.obj with files := delete s.obj.files }
        put := Function.update s.put p .evicted }
    else none
  | .putDirect p data =>
    if s.put p = .idle ∨ s.put p = .evicted then
      some { s with
        obj := { s.obj with backend := some data }
        put := Function.update s.put p .returned }
    else none
  | .scan =>
    match s.obj.files.cacheJson with
    | some m =>
      if writebackInProgress m.metadata then some { s with queued := s.queued ++ [m.toObjectInfo] }
      else none
    | none => none
  | .start u oi =>
    if s.upload u = .idle ∧ oi ∈ s.queued then
      some { s with
        queued := s.queued.erase oi
        upload := Function.update s.upload u (.starting oi) }
    else none
  | .upload u a =>
    match uploadStep s.obj (s.upload u) a with
    | some (o, pc) => some { s with obj := o, upload := Function.update s.upload u pc }
    | none => none
  | .deleteBackend ok =>
    if s.deletion = .idle then
      some { s with
        obj := { s.obj with backend := if ok then none else s.obj.backend }
        -- for an excluded object the named results are returned as they are: no error
        deletion := if excluded then .returned true else .cacheDelete ok }
    else none
  | .deleteCache =>
    match s.deletion with
    | .cacheDelete ok =>
      some { s with
        obj := { s.obj with files := delete s.obj.files }
        deletion := .treeDelete ok }
    | _ => none
  | .deleteTree =>
    match s.deletion with
    | .treeDelete ok =>
      some { s with
        obj := { s.obj with listTree := none }
        deletion := .returned ok }
    | _ => none

/-- The steps of the system, with what each of them needs. -/
inductive WbTrans (s : WbState P U) : WbAct P U → WbState P U → Prop
  | putLocked {p userDefined data now} : s.put p = .idle → excluded = false →
      WbTrans s (.putLocked p userDefined data now) { s with
        obj := { s.obj with files := putWriteback md5Hex s.obj.files userDefined data now }
        put := Function.update s.put p (.inserting (writebackInfo md5Hex userDefined data now))
        contents := s.contents ++ [data] }
  | putInsert {p oi} : s.put p = .inserting oi →
      WbTrans s (.putInsert p) { s with
        obj := { s.obj with listTree := some oi }
        put := Function.update s.put p (.queueing oi) }
  | putQueue {p room oi} : s.put p = .queueing oi →
      WbTrans s (.putQueue p room) { s with
        queued := if room then s.queued ++ [oi] else s.queued
        put := Function.update s.put p .returned }
  | putEvict {p} : s.put p = .idle →
      WbTrans s (.putEvict p) { s with
        obj := { s.obj with files := delete s.obj.files }
        put := Function.update s.put p .evicted }
  | putDirect {p data} : s.put p = .idle ∨ s.put p = .evicted →
      WbTrans s (.putDirect p data) { s with
        obj := { s.obj with backend := some data }
        put := Function.update s.put p .returned }
  | scan {m} : s.obj.files.cacheJson = some m → writebackInProgress m.metadata = true →
      WbTrans s .scan { s with queued := s.queued ++ [m.toObjectInfo] }
  | start {u oi} : s.upload u = .idle → oi ∈ s.queued →
      WbTrans s (.start u oi) { s with
        queued := s.queued.erase oi
        upload := Function.update s.upload u (.starting oi) }
  | upload {u a o pc} : UploadTrans s.obj (s.upload u) a o pc →
      WbTrans s (.upload u a) { s with obj := o, upload := Function.update s.upload u pc }
  | deleteBackend {ok} : s.deletion = .idle →
      WbTrans s (.deleteBackend ok) { s with
        obj := { s.obj with backend := if ok then none else s.obj.backend }
        deletion := if excluded then .returned true else .cacheDelete ok }
  | deleteCache {ok} : s.deletion = .cacheDelete ok →
      WbTrans s .deleteCache { s with
        obj := { s.obj with files := delete s.obj.files }
        deletion := .treeDelete ok }
  | deleteTree {ok} : s.deletion = .treeDelete ok →
      WbTrans s .deleteTree { s with
        obj := { s.obj with listTree := none }
        deletion := .returned ok }

variable {md5Hex excluded}

theorem wbStep_trans {s s' : WbState P U} {a : WbAct P U}
    (h : wbStep md5Hex excluded s a = some s') : WbTrans md5Hex excluded s a s' := by
  cases a with
  | putLocked p userDefined data now =>
    simp only [wbStep] at h
    split at h
    · next hc =>
      cases h
      exact .putLocked hc.1 hc.2
    · cases h
  | putInsert p =>
    simp only [wbStep] at h
    split at h
    · next oi hpc =>
      cases h
      exact .putInsert hpc
    · cases h
  | putQueue p room =>
    simp only [wbStep] at h
    split at h
    · next oi hpc =>
      cases h
      exact .putQueue hpc
    · cases h
  | putEvict p =>
    simp only [wbStep] at h
    split at h
    · next hpc =>
      cases h
      exact .putEvict hpc
    · cases h
  | putDirect p data =>
    simp only [wbStep] at h
    split at h
    · next hpc =>
      cases h
      exact .putDirect hpc
    · cases h
  | scan =>
    simp only [wbStep] at h
    split at h
    · next m hm =>
      split at h
      · next hprog =>
        cases h
        exact .scan hm hprog
      · cases h
    · cases h
  | start u oi =>
    simp only [wbStep] at h
    split at h
    · next hc =>
      cases h
      exact .start hc.1 hc.2
    · cases h
  | upload u a =>
    simp only [wbStep] at h
    split at h
    · next o pc hstep =>
      cases h
      exact .upload (uploadStep_trans hstep)
    · cases h
  | deleteBackend ok =>
    simp only [wbStep] at h
    split at h
    · next hpc =>
      cases h
      exact .deleteBackend hpc
    · cases h
  | deleteCache =>
    simp only [wbStep] at h
    split at h
    · next ok hpc =>
      cases h
      exact .deleteCache hpc
    · cases h
  | deleteTree =>
    simp only [wbStep] at h
    split at h
    · next ok hpc =>
      cases h
      exact .deleteTree hpc
    · cases h

end Machine

/-! ### The steps of one call -/

section Acts

variable {P U : Type*}

/-- `PutObject` of `data` by the call `p`, up to its return. -/
def putActs (p : P) (data : Content) (now : GoTime) : List (WbAct P U) :=
  [.putLocked p .empty data now, .putInsert p, .putQueue p true]

/-- The steps of an upload after its read, for a put that the backend accepts. -/
def commitActs (u : U) : List (WbAct P U) :=
  [.upload u (.putBackend true), .upload u .dropEntry, .upload u .save]

/-- The steps of an upload up to its read. -/
def readActs (u : U) (data : Content) (now : GoTime) : List (WbAct P U) :=
  [.start u (writebackInfo id .empty data now), .upload u .lookup, .upload u .openReader]

end Acts

end Zs3Server.Cmd.CacheWriteback
