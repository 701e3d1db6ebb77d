import Zs3Server.Cmd.CacheWriteback

/-!
# Committing a write to the backend

What becomes of the last content stored by a cached put while uploads of this and of earlier contents
run.  An upload compares the ETag when it opens its reader but not when it saves: a put that stores new
content in between is not seen.

* `ObjInv`, `RunInv`, `uploadTrans_inv` — one object, one upload run and one step of it;
* `WbInv`, `wbInv_step` — the system;
* `writeback_keeps_last` — the last write is kept as long as no put stores new content while an upload
  is between its read and its save;
* `writeback_loses_newer_write` — otherwise an upload that commits the older content takes the newer
  one out of the writeback directory.
-/

namespace Zs3Server.Cmd.CacheCommit

open Lib.ByteString
open Lib.StepSystem
open Lib.GoTime
open Cmd.DiskCache
open Cmd.CacheWriteback

/-! ### The last write -/

section LastWrite

variable (md5Hex : Content → GoString)

/-- The object info was made for one of the contents. -/
def Issued (contents : List Content) (oi : ObjectInfo) : Prop :=
  ∃ c ∈ contents, oi.etag = md5Hex c ∧ oi.size = c.length

/-- What holds of the object: `cache.json` is about the last content, and that content waits in the
writeback directory or is in the backend. -/
structure ObjInv (o : CacheState) (contents : List Content) : Prop where
  distinct : ∀ c, contents.getLast? = some c → ∀ c' ∈ contents, md5Hex c' = md5Hex c → c' = c
  json : ∀ m, o.files.cacheJson = some m → ∃ c, contents.getLast? = some c ∧
    m.metadata.etag = some (md5Hex c) ∧ m.size = c.length
  kept : ∀ c, contents.getLast? = some c →
    (o.files.writeback = some c ∧
      ∃ m, o.files.cacheJson = some m ∧ writebackInProgress m.metadata = true) ∨
    (o.files.writeback = none ∧ o.files.part = some c ∧ o.backend = some c)

/-- The object info and the reader of a run are about the last content. -/
structure ReadsLast (contents : List Content) (oi : ObjectInfo) (r : UploadReader) (c : Content) :
    Prop where
  last : contents.getLast? = some c
  etag : oi.etag = md5Hex c
  size : oi.size = c.length
  infoSize : r.info.size = c.length
  content : ∀ d, r.content = some d → d = c

/-- What holds of a run of `uploadObject`. -/
structure RunInv (o : CacheState) (contents : List Content) (pc : UploadPc) : Prop where
  issued : ∀ oi, pc.info = some oi → Issued md5Hex contents oi
  reader : ∀ oi r, pc.reader = some (oi, r) → ∃ c, ReadsLast md5Hex contents oi r c
  committed : pc.committed = true → o.backend = contents.getLast?

variable {md5Hex} {o o' : CacheState} {contents : List Content} {pc pc' : UploadPc}
  {oi : ObjectInfo} {r : UploadReader} {c : Content} {a : UploadAct}

theorem ReadsLast.uploadData_eq (h : ReadsLast md5Hex contents oi r c) {data : Content}
    (hdata : uploadData r oi = some data) : data = c := by
  unfold uploadData at hdata
  cases hr : r.content with
  | some d =>
    rw [hr] at hdata
    obtain rfl := h.content d hr
    obtain rfl : d.take oi.size = data := by simpa using hdata
    rw [h.size]
    exact List.take_length
  | none =>
    rw [hr] at hdata
    -- without a data file only an empty object can be uploaded
    by_cases hz : oi.size = 0
    · obtain rfl : [] = data := by simpa [hz] using hdata
      have hlen : c.length = 0 := h.size ▸ hz
      exact (List.length_eq_zero_iff.mp hlen).symm
    · simp [hz] at hdata

/-- The data file is the last content, if it is there. -/
theorem ObjInv.dataFile_eq (h : ObjInv md5Hex o contents) {m : CacheMeta}
    (hlast : contents.getLast? = some c)
    (hm : o.files.cacheJson = some m) {d : Content} (hd : dataFile o.files m = some d) : d = c := by
  unfold dataFile at hd
  rcases h.kept c hlast with ⟨hwb, m', hm', hprog⟩ | ⟨hwb, hpart, -⟩
  · obtain rfl : m = m' := Option.some.inj (hm.symm.trans hm')
    rw [if_pos hprog, hwb] at hd
    exact (Option.some.inj hd).symm
  · split at hd
    · rw [hwb] at hd
      cases hd
    · rw [hpart] at hd
      exact (Option.some.inj hd).symm

/-- A reader that passed the checks is on the last content. -/
theorem ObjInv.readsLast (h : ObjInv md5Hex o contents) (hissued : Issued md5Hex contents oi)
    (hopen : uploadOpen o.files oi = some r) : ∃ c, ReadsLast md5Hex contents oi r c := by
  obtain ⟨hget, hetag⟩ := uploadOpen_eq_some hopen
  obtain ⟨m, hm, hinfo, hcontent⟩ := get_eq_some hget
  obtain ⟨c, hlast, hmetag, hsize⟩ := h.json m hm
  obtain ⟨c', hc', hoi, hoisize⟩ := hissued
  have hinfoEtag : r.info.etag = md5Hex c := by
    rw [hinfo]
    simp only [CacheMeta.toObjectInfo, hmetag, Option.getD_some]
  -- the same ETag, hence the same content
  have hsame : c' = c := by
    refine h.distinct c hlast c' hc' ?_
    rw [← hoi, ← hetag, hinfoEtag]
  refine ⟨c, hlast, hsame ▸ hoi, hsame ▸ hoisize, ?_, ?_⟩
  · rw [hinfo]
    exact hsize
  · intro d hd
    exact h.dataFile_eq hlast hm (hcontent ▸ hd)

/-- Saving the outcome of an upload of the last content. -/
theorem ObjInv.save (h : ObjInv md5Hex o contents) (hr : ReadsLast md5Hex contents oi r c) (ok : Bool)
    (hok : ok = true → o.backend = contents.getLast?) :
    ObjInv md5Hex { o with files := uploadSave o.files r oi ok } contents := by
  refine ⟨h.distinct, ?_, ?_⟩
  · intro m hm
    obtain rfl := Option.some.inj (uploadSave_cacheJson.symm.trans hm)
    refine ⟨c, hr.last, congrArg some hr.etag, ?_⟩
    cases ok with
    | false => exact hr.infoSize
    | true => exact hr.size
  · intro c' hc'
    obtain rfl : c = c' := Option.some.inj (hr.last.symm.trans hc')
    cases ok with
    | false =>
      rcases h.kept c hc' with ⟨hwb, -⟩ | hcommitted
      · exact .inl ⟨hwb, _, rfl, rfl⟩
      · exact .inr hcommitted
    | true =>
      have hback : o.backend = some c := (hok rfl).trans hc'
      rcases h.kept c hc' with ⟨hwb, -⟩ | ⟨hwb, hpart, -⟩
      · refine .inr ?_
        simp [uploadSave, lockedSaveMetadata, saveMetadata, hwb, hback]
      · refine .inr ?_
        simp [uploadSave, lockedSaveMetadata, saveMetadata, hwb, hpart, hback]

theorem ObjInv.backend_last (h : ObjInv md5Hex o contents) (hlast : contents.getLast? = some c) :
    ObjInv md5Hex { o with backend := some c } contents := by
  refine ⟨h.distinct, h.json, ?_⟩
  intro c' hc'
  obtain rfl : c = c' := Option.some.inj (hlast.symm.trans hc')
  rcases h.kept c hc' with hwait | ⟨hwb, hpart, -⟩
  · exact .inl hwait
  · exact .inr ⟨hwb, hpart, rfl⟩

/-- A run without a reader. -/
theorem RunInv.of_closed (hissued : ∀ oi, pc.info = some oi → Issued md5Hex contents oi)
    (hreader : pc.reader = none) (hcommitted : pc.committed = false) :
    RunInv md5Hex o contents pc := by
  refine ⟨hissued, ?_, ?_⟩
  · intro oi r h
    rw [hreader] at h
    cases h
  · intro h
    rw [hcommitted] at h
    cases h

theorem RunInv.idle : RunInv md5Hex o contents .idle :=
  .of_closed (fun _ h => by cases h) rfl rfl

/-- **One step of an upload.**  It keeps what holds of the object and of its own run, and changes the
backend to the last content only. -/
theorem uploadTrans_inv (ho : ObjInv md5Hex o contents) (hrun : RunInv md5Hex o contents pc)
    (ht : UploadTrans o pc a o' pc') :
    ObjInv md5Hex o' contents ∧ RunInv md5Hex o' contents pc' ∧
      (o'.backend = o.backend ∨ o'.backend = contents.getLast?) := by
  cases ht with
  | found => exact ⟨ho, .of_closed hrun.issued rfl rfl, .inl rfl⟩
  | modified => exact ⟨ho, .idle, .inl rfl⟩
  | @opened oi time r hopen =>
    refine ⟨ho, ⟨hrun.issued, ?_, fun h => by cases h⟩, .inl rfl⟩
    intro oi' r' hr'
    obtain ⟨rfl, rfl⟩ : oi = oi' ∧ r = r' := by simpa [UploadPc.reader] using hr'
    exact ho.readsLast (hrun.issued oi rfl) hopen
  | gone => exact ⟨ho, .idle, .inl rfl⟩
  | failed => exact ⟨ho, ⟨hrun.issued, hrun.reader, fun h => by cases h⟩, .inl rfl⟩
  | @stored oi time r data hdata =>
    obtain ⟨c, hc⟩ := hrun.reader oi r rfl
    obtain rfl := hc.uploadData_eq hdata
    exact ⟨ho.backend_last hc.last, ⟨hrun.issued, hrun.reader, fun _ => hc.last.symm⟩,
      .inr hc.last.symm⟩
  | dropped =>
    exact ⟨⟨ho.distinct, ho.json, ho.kept⟩, ⟨hrun.issued, hrun.reader, hrun.committed⟩, .inl rfl⟩
  | @saved oi r =>
    obtain ⟨c, hc⟩ := hrun.reader oi r rfl
    exact ⟨ho.save hc true fun _ => hrun.committed rfl, .idle, .inl rfl⟩
  | @retried oi r =>
    obtain ⟨c, hc⟩ := hrun.reader oi r rfl
    have hsave := ho.save hc false (fun h => by cases h)
    exact ⟨hsave, .of_closed hrun.issued rfl rfl, .inl rfl⟩

theorem Issued.mono {contents' : List Content} (hsub : contents ⊆ contents')
    (h : Issued md5Hex contents oi) : Issued md5Hex contents' oi := by
  obtain ⟨c, hc, hoi⟩ := h
  exact ⟨c, hsub hc, hoi⟩

/-- A run whose object changes elsewhere. -/
theorem RunInv.of_backend (h : RunInv md5Hex o contents pc)
    (hback : o'.backend = o.backend ∨ o'.backend = contents.getLast?) :
    RunInv md5Hex o' contents pc := by
  refine ⟨h.issued, h.reader, ?_⟩
  intro hc
  rcases hback with heq | heq
  · exact heq.trans (h.committed hc)
  · exact heq

/-- A put of new content that no earlier content shares its ETag with. -/
theorem ObjInv.putWriteback {data : Content} (userDefined : Metadata) (now : GoTime)
    (hfresh : ∀ c' ∈ contents, md5Hex c' = md5Hex data → c' = data) :
    ObjInv md5Hex { o with files := DiskCache.putWriteback md5Hex o.files userDefined data now }
      (contents ++ [data]) := by
  have hlast : (contents ++ [data]).getLast? = some data := List.getLast?_concat
  refine ⟨?_, ?_, ?_⟩
  · intro c hc c' hc' heq
    obtain rfl : data = c := Option.some.inj (hlast.symm.trans hc)
    rcases List.mem_append.mp hc' with hold | hnew
    · exact hfresh c' hold heq
    · exact List.mem_singleton.mp hnew
  · intro m hm
    obtain rfl := Option.some.inj hm
    exact ⟨data, hlast, rfl, rfl⟩
  · intro c hc
    obtain rfl : data = c := Option.some.inj (hlast.symm.trans hc)
    exact .inl ⟨rfl, _, rfl, rfl⟩

end LastWrite

section Runs

variable {P U : Type*} (md5Hex : Content → GoString)

/-- **The last write is kept**: the content that the last put stored is the backend's content, or it is
in the writeback directory while `cache.json` has its ETag and says that it is not committed. -/
def LastWriteKept (s : WbState P U) : Prop :=
  ∀ c, s.contents.getLast? = some c →
    s.obj.backend = some c ∨
    (s.obj.files.writeback = some c ∧ ∃ m, s.obj.files.cacheJson = some m ∧
      m.metadata.etag = some (md5Hex c) ∧ writebackInProgress m.metadata = true)

/-- Only cached puts and uploads. -/
def CachedAct : WbAct P U → Prop
  | .putEvict _ => False
  | .putDirect _ _ => False
  | .deleteBackend _ => False
  | .deleteCache => False
  | .deleteTree => False
  | _ => True

/-- A put stores its content only while no upload is between its read and its save, and no other
content stored before has the same MD5. -/
def PutUndisturbed (s : WbState P U) : WbAct P U → Prop
  | .putLocked _ _ data _ =>
    (∀ u, (s.upload u).reader = none) ∧ ∀ c ∈ s.contents, md5Hex c = md5Hex data → c = data
  | _ => True

instance decidableCachedAct : ∀ a : WbAct P U, Decidable (CachedAct a)
  | .putEvict _ | .putDirect _ _ | .deleteBackend _ | .deleteCache | .deleteTree => isFalse id
  | .putLocked _ _ _ _ | .putInsert _ | .putQueue _ _ | .scan | .start _ _ | .upload _ _ =>
    isTrue trivial

instance decidablePutUndisturbed [Fintype U] (s : WbState P U) :
    ∀ a : WbAct P U, Decidable (PutUndisturbed md5Hex s a)
  | .putLocked _ _ data _ =>
    inferInstanceAs (Decidable ((∀ u, (s.upload u).reader = none) ∧
      ∀ c ∈ s.contents, md5Hex c = md5Hex data → c = data))
  | .putEvict _ | .putDirect _ _ | .deleteBackend _ | .deleteCache | .deleteTree | .putInsert _
  | .putQueue _ _ | .scan | .start _ _ | .upload _ _ => isTrue trivial

/-- What holds of the whole system. -/
structure WbInv (s : WbState P U) : Prop where
  obj : ObjInv md5Hex s.obj s.contents
  run : ∀ u, RunInv md5Hex s.obj s.contents (s.upload u)
  queued : ∀ oi ∈ s.queued, Issued md5Hex s.contents oi
  put : ∀ p oi, (s.put p).info = some oi → Issued md5Hex s.contents oi

variable {md5Hex} {s s' : WbState P U}

theorem wbInit_inv (backend : Option Content) : WbInv md5Hex (wbInit backend : WbState P U) where
  obj := ⟨(by intro _ h; cases h), (by intro _ h; cases h), (by intro _ h; cases h)⟩
  run := fun _ => .idle
  queued := fun _ h => by cases h
  put := fun _ _ h => by cases h

/-- The calls other than `p` keep their object info. -/
theorem issued_update [DecidableEq P] {put : P → PutPc} {contents : List Content}
    (h : ∀ q oi, (put q).info = some oi → Issued md5Hex contents oi) {p : P} {pc : PutPc}
    (hpc : ∀ oi, pc.info = some oi → Issued md5Hex contents oi) :
    ∀ q oi, (Function.update put p pc q).info = some oi → Issued md5Hex contents oi :=
  (Function.forall_update_iff put fun _ pc =>
    ∀ oi, pc.info = some oi → Issued md5Hex contents oi).mpr ⟨hpc, fun q _ => h q⟩

/-- The runs other than `u` stay as they are. -/
theorem run_update [DecidableEq U] {o : CacheState} {contents : List Content} {upload : U → UploadPc}
    (h : ∀ v, RunInv md5Hex o contents (upload v)) {u : U} {pc : UploadPc}
    (hpc : RunInv md5Hex o contents pc) :
    ∀ v, RunInv md5Hex o contents (Function.update upload u pc v) :=
  (Function.forall_update_iff upload fun _ pc => RunInv md5Hex o contents pc).mpr
    ⟨hpc, fun v _ => h v⟩

/-- A locked section of `PutObject` while no upload has a reader. -/
theorem WbInv.putLocked [DecidableEq P] (h : WbInv md5Hex s) {p : P} {userDefined : Metadata}
    {data : Content} {now : GoTime} (hclosed : ∀ u, (s.upload u).reader = none)
    (hfresh : ∀ c ∈ s.contents, md5Hex c = md5Hex data → c = data) :
    WbInv md5Hex { s with
      obj := { s.obj with files := putWriteback md5Hex s.obj.files userDefined data now }
      put := Function.update s.put p (.inserting (writebackInfo md5Hex userDefined data now))
      contents := s.contents ++ [data] } := by
  have hsub : s.contents ⊆ s.contents ++ [data] := List.subset_append_left _ _
  refine ⟨ObjInv.putWriteback userDefined now hfresh, ?_, ?_, ?_⟩
  · intro u
    refine .of_closed (fun oi hoi => ((h.run u).issued oi hoi).mono hsub) (hclosed u) ?_
    -- a run that has committed has its reader still
    show (s.upload u).committed = false
    have hu := hclosed u
    cases hpc : s.upload u with
    | stored oi time r => simp [hpc, UploadPc.reader] at hu
    | saving oi r ok => simp [hpc, UploadPc.reader] at hu
    | idle | starting | checked | opened => rfl
  · intro oi hoi
    exact (h.queued oi hoi).mono hsub
  · refine issued_update (fun q oi hq => (h.put q oi hq).mono hsub) ?_
    intro oi hoi
    obtain rfl := Option.some.inj hoi
    exact ⟨data, List.mem_append_right _ (List.mem_singleton.mpr rfl), rfl, rfl⟩

theorem wbInv_step [DecidableEq P] [DecidableEq U] {a : WbAct P U} (h : WbInv md5Hex s)
    (hcached : CachedAct a) (hput : PutUndisturbed md5Hex s a)
    (hst : wbStep md5Hex false s a = some s') :
    WbInv md5Hex s' := by
  cases wbStep_trans hst with
  | putLocked hpc _ => exact h.putLocked hput.1 hput.2
  | @putInsert p oi hpc =>
    refine ⟨⟨h.obj.distinct, h.obj.json, h.obj.kept⟩, fun u => (h.run u).of_backend (.inl rfl),
      h.queued, issued_update h.put ?_⟩
    intro oi' hoi'
    exact h.put p oi' (hpc ▸ hoi')
  | @putQueue p room oi hpc =>
    refine ⟨h.obj, h.run, ?_, issued_update h.put fun _ h' => by cases h'⟩
    intro oi' hoi'
    have hmem : oi' ∈ s.queued ∨ oi' = oi := by
      cases room with
      | false => exact .inl hoi'
      | true => simpa using hoi'
    rcases hmem with hold | rfl
    · exact h.queued oi' hold
    · exact h.put p oi' (by rw [hpc]; rfl)
  | putEvict => exact hcached.elim
  | putDirect => exact hcached.elim
  | @scan m hm hprog =>
    refine ⟨h.obj, h.run, ?_, h.put⟩
    intro oi hoi
    rcases List.mem_append.mp hoi with hold | hnew
    · exact h.queued oi hold
    · obtain rfl := List.mem_singleton.mp hnew
      obtain ⟨c, hlast, hetag, hsize⟩ := h.obj.json m hm
      refine ⟨c, List.mem_of_getLast? hlast, ?_, hsize⟩
      simp only [CacheMeta.toObjectInfo, hetag, Option.getD_some]
  | @start u oi hu hoi =>
    refine ⟨h.obj, run_update h.run (.of_closed ?_ rfl rfl),
      fun oi' hoi' => h.queued oi' (List.mem_of_mem_erase hoi'), h.put⟩
    intro oi' hoi'
    obtain rfl := Option.some.inj hoi'
    exact h.queued oi hoi
  | @upload u a o pc ht =>
    obtain ⟨hobj, hrun, hback⟩ := uploadTrans_inv h.obj (h.run u) ht
    exact ⟨hobj, run_update (fun v => (h.run v).of_backend hback) hrun, h.queued, h.put⟩
  | deleteBackend => exact hcached.elim
  | deleteCache => exact hcached.elim
  | deleteTree => exact hcached.elim

theorem WbInv.lastWriteKept (h : WbInv md5Hex s) : LastWriteKept md5Hex s := by
  intro c hc
  rcases h.obj.kept c hc with ⟨hwb, m, hm, hprog⟩ | ⟨-, -, hback⟩
  · obtain ⟨c', hc', hetag, -⟩ := h.obj.json m hm
    obtain rfl : c = c' := Option.some.inj (hc.symm.trans hc')
    exact .inr ⟨hwb, m, hm, hetag, hprog⟩
  · exact .inl hback

/-- **No write is lost** in any run of cached puts and uploads in which no put stores new content
between the read and the save of an upload: the last content stored is in the backend, or waits in the
writeback directory with `cache.json` saying so. -/
theorem writeback_keeps_last [DecidableEq P] [DecidableEq U] (md5Hex : Content → GoString)
    (backend : Option Content) (s : WbState P U)
    (h : Reaches (wbStep md5Hex false) (fun s a => CachedAct a ∧ PutUndisturbed md5Hex s a)
      (wbInit backend) s) : LastWriteKept md5Hex s := by
  refine WbInv.lastWriteKept (h.invariant (I := WbInv md5Hex) (wbInit_inv backend) ?_)
  intro s₁ a s₂ hinv hok hst
  exact wbInv_step hinv hok.1 hok.2 hst

end Runs

/-! ### Two puts and one upload -/

/-- A first content is put and uploaded, then a second one is put. -/
theorem writeback_keeps_last_two :
    ∃ s : WbState Bool Unit,
      s.contents = [[1], [2]] ∧ s.obj.backend = some [1] ∧ LastWriteKept id s := by
  have hrun : ∃ s : WbState Bool Unit,
      runActs (guardedStep (wbStep id false) fun s a => CachedAct a ∧ PutUndisturbed id s a)
        (wbInit none)
        (putActs false [1] second ++ readActs () [1] second ++ commitActs () ++
          putActs true [2] (2 * second)) = some s ∧
      s.contents = [[1], [2]] ∧ s.obj.backend = some [1] := ⟨_, rfl, rfl, rfl⟩
  obtain ⟨s, hacts, hcontents, hback⟩ := hrun
  exact ⟨s, hcontents, hback, writeback_keeps_last id none s (reaches_of_guarded _ hacts)⟩

/-- **A newer write is lost.**  The second content is put while the upload of the first has its reader
open; both puts are acknowledged, and the upload then succeeds.  The backend has the first content,
`cache.json` says that it is committed, and the second content is out of the writeback directory. -/
theorem writeback_loses_newer_write :
    ∃ s : WbState Bool Unit,
      Reaches (wbStep id false) (fun _ a => CachedAct a) (wbInit none) s ∧
      (∀ p, s.put p = .returned) ∧ s.contents = [[1], [2]] ∧ s.obj.backend = some [1] ∧
      s.obj.files.writeback = none ∧ s.queued = [writebackInfo id .empty [2] (2 * second)] ∧
      ¬ LastWriteKept id s := by
  have hrun : ∃ s : WbState Bool Unit,
      runActs (guardedStep (wbStep id false) fun _ a => CachedAct a) (wbInit none)
        (putActs false [1] second ++ readActs () [1] second ++ putActs true [2] (2 * second) ++
          commitActs ()) = some s ∧
      (∀ p, s.put p = .returned) ∧ s.contents = [[1], [2]] ∧ s.obj.backend = some [1] ∧
      s.obj.files.writeback = none ∧ s.queued = [writebackInfo id .empty [2] (2 * second)] :=
    ⟨_, rfl, by decide, rfl, rfl, rfl, rfl⟩
  obtain ⟨s, hacts, hput, hcontents, hback, hwb, hqueued⟩ := hrun
  refine ⟨s, reaches_of_guarded _ hacts, hput, hcontents, hback, hwb, hqueued, ?_⟩
  intro hkept
  rcases hkept [2] (by rw [hcontents]; rfl) with h | ⟨h, -⟩
  · rw [hback] at h
    exact absurd h (by decide)
  · rw [hwb] at h
    cases h

end Zs3Server.Cmd.CacheCommit
