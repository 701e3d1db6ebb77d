import Zs3Server.Cmd.DiskCache

/-!
# Deletes over several cache drives

The cache keeps an object on the drive its hash points to, or on the next one that is online.
`DeleteObject` deletes from the backend and then from this drive; `DeleteObjects` clears the drives
first, one object after the other, and then hands the whole list to the backend.

* `getCacheLoc` — the walk over the drives; `getCacheLoc_eq_none` says when it finds none;
* `deleteObject`, `deleteObjects` — the two calls with all they return;
* `clearDrives_ok`, `clearDrives_error` — the loop of `DeleteObjects`, to its end and to its early return;
* `deletes_report_iff` — exactly when the two calls report what the backend has said;
* `deletes_hide_backend_error` — an excluded object and a list of objects whose failure is not reported.
-/

namespace Zs3Server.Cmd.CacheDrives

open Lib.ByteString
open Lib.GoTime
open Cmd.DiskCache

/-! ### Drives -/

/-- An error of a delete: the one of the walk over the drives, or any other. -/
inductive DeleteErr where
  | diskNotFound
  | other (msg : GoString)
deriving Repr, DecidableEq

/-- A drive, by the objects that it has cached. -/
structure Drive where
  objects : List (GoString × GoString)

/-- The drives of the cache, some of which may be missing, and the keys of the list tree. -/
structure Drives where
  cache : List (Option Drive)
  listTree : List GoString

/-- What the cache objects are configured with; `keyCrc` is the checksum of the joined path. -/
structure DriveConfig where
  exclude : GoString → GoString → Bool
  migrating : Bool
  keyCrc : GoString → GoString → ℕ

/-- The drives seen from `index` on, as a circular buffer: the first one that is online. -/
def getCacheLoc (cfg : DriveConfig) (cache : List (Option Drive)) (online : ℕ → Bool)
    (bucket object : GoString) : Option ℕ :=
  (List.range cache.length).findSome? fun k =>
    let i := (cfg.keyCrc bucket object % cache.length + k) % cache.length
    match cache.getD i none with
    | none => none
    | some _ => if online i then some i else none

/-- No drive is both there and online. -/
def NoDrive (cache : List (Option Drive)) (online : ℕ → Bool) : Prop :=
  ∀ i d, cache[i]? = some (some d) → online i = false

/-- The walk comes by every drive, wherever it starts. -/
theorem circular_index {n i : ℕ} (start : ℕ) (hi : i < n) :
    ∃ k < n, (start % n + k) % n = i := by
  have hstart : start % n < n := Nat.mod_lt _ (by omega)
  by_cases hle : start % n ≤ i
  · exact ⟨i - start % n, by omega, by rw [Nat.add_sub_cancel' hle, Nat.mod_eq_of_lt hi]⟩
  · refine ⟨n - start % n + i, by omega, ?_⟩
    rw [show start % n + (n - start % n + i) = i + n by omega, Nat.add_mod_right,
      Nat.mod_eq_of_lt hi]

theorem getCacheLoc_eq_none (cfg : DriveConfig) (cache : List (Option Drive)) (online : ℕ → Bool)
    (bucket object : GoString) :
    getCacheLoc cfg cache online bucket object = none ↔ NoDrive cache online := by
  unfold getCacheLoc
  rw [List.findSome?_eq_none_iff]
  constructor
  · intro h i d hd
    obtain ⟨hi, _⟩ := List.getElem?_eq_some_iff.mp hd
    obtain ⟨k, hk, hki⟩ := circular_index (cfg.keyCrc bucket object) hi
    have hnone := h k (List.mem_range.mpr hk)
    simp only [hki, List.getD_eq_getElem?_getD, hd, Option.getD_some] at hnone
    cases honline : online i with
    | false => rfl
    | true => simp [honline] at hnone
  · intro h k _
    cases hd : cache[(cfg.keyCrc bucket object % cache.length + k) % cache.length]? with
    | none => simp only [List.getD_eq_getElem?_getD, hd, Option.getD_none]
    | some o =>
      cases o with
      | none => simp only [List.getD_eq_getElem?_getD, hd, Option.getD_some]
      | some d =>
        have hoff := h _ d hd
        simp only [List.getD_eq_getElem?_getD, hd, Option.getD_some, hoff, Bool.false_eq_true,
          if_false]

/-! ### The calls -/

def zeroInfo : ObjectInfo := ⟨[], 0, zeroTime, zeroTime, Metadata.empty⟩

/-- The key of an object in the list tree. -/
def treeKey (bucket object : GoString) : GoString := bucket ++ lit "/" ++ object

/-- `Delete` on the drive at `i`, and the removal from the list tree. -/
def clearObject (s : Drives) (i : ℕ) (bucket object : GoString) : Drives where
  cache := s.cache.modify i fun d? =>
    d?.map fun d => ⟨d.objects.filter (· ≠ (bucket, object))⟩
  listTree := s.listTree.filter (· ≠ treeKey bucket object)

/-- `DeleteObject`, for the results of the backend's delete. -/
def deleteObject (cfg : DriveConfig) (s : Drives) (online : ℕ → Bool) (bucket object : GoString)
    (objInfoB : ObjectInfo) (errB : Option DeleteErr) : Drives × ObjectInfo × Option DeleteErr :=
  -- the bare return: the results were not assigned yet
  if cfg.exclude bucket object || cfg.migrating then (s, zeroInfo, none)
  else
    match getCacheLoc cfg s.cache online bucket object with
    | none => (s, objInfoB, some .diskNotFound)
    | some i => (clearObject s i bucket object, objInfoB, errB)

/-- What `DeleteObjects` is asked for, and what it answers, for one object. -/
structure DeletedObject where
  deleteMarker : Bool
  deleteMarkerVersionID : GoString
  objectName : GoString
  versionID : GoString
deriving DecidableEq

def DeletedObject.zero : DeletedObject := ⟨false, [], [], []⟩

/-- The loop of `DeleteObjects`: the index at which no drive was found, or the end of the list.  `online`
is the state of the drives at each lookup. -/
def clearDrives (cfg : DriveConfig) (online : ℕ → ℕ → Bool) (bucket : GoString) :
    ℕ → List GoString → Drives → Drives × Option ℕ
  | _, [], s => (s, none)
  | idx, object :: rest, s =>
    match getCacheLoc cfg s.cache (online idx) bucket object with
    | none => (s, some idx)
    | some i => clearDrives cfg online bucket (idx + 1) rest (clearObject s i bucket object)

/-- The entry of the answer that is made from one result of the backend. -/
def deletedEntry (dObj : DeletedObject) : DeletedObject :=
  if dObj.deleteMarker then
    { DeletedObject.zero with
      deleteMarker := dObj.deleteMarker, deleteMarkerVersionID := dObj.versionID }
  else { DeletedObject.zero with objectName := dObj.objectName, versionID := dObj.versionID }

/-- `DeleteObjects`; `backend` has one result and one error for each object, those that the backend gives
if it is asked. -/
def deleteObjects (cfg : DriveConfig) (s : Drives) (online : ℕ → ℕ → Bool) (bucket : GoString)
    (objects : List GoString) (backend : List (DeletedObject × Option DeleteErr)) :
    Drives × List DeletedObject × List (Option DeleteErr) :=
  let errs := List.replicate objects.length none
  let deletedObjects := List.replicate objects.length DeletedObject.zero
  match clearDrives cfg online bucket 0 objects s with
  | (s', some idx) => (s', deletedObjects, errs.set idx (some .diskNotFound))
  -- the errors of the backend are not copied
  | (s', none) => (s', backend.map fun d => deletedEntry d.1, errs)

/-! ### The loop over the drives -/

/-- Deleting an object leaves every drive in its place. -/
theorem noDrive_clearObject (s : Drives) (i : ℕ) (bucket object : GoString) (online : ℕ → Bool) :
    NoDrive (clearObject s i bucket object).cache online ↔ NoDrive s.cache online := by
  have hat : ∀ j : ℕ, (∃ d, (clearObject s i bucket object).cache[j]? = some (some d)) ↔
      ∃ d, s.cache[j]? = some (some d) := by
    intro j
    simp only [clearObject, List.getElem?_modify]
    by_cases hij : i = j
    · rcases s.cache[j]? with _ | _ | d <;> simp [hij]
    · rcases s.cache[j]? with _ | _ | d <;> simp [hij]
  constructor
  · intro h j d hd
    obtain ⟨d', hd'⟩ := (hat j).mpr ⟨d, hd⟩
    exact h j d' hd'
  · intro h j d hd
    obtain ⟨d', hd'⟩ := (hat j).mp ⟨d, hd⟩
    exact h j d' hd'

/-- The early return: the first lookup that finds no drive. -/
theorem clearDrives_error {cfg : DriveConfig} {online : ℕ → ℕ → Bool} {bucket : GoString}
    {objects : List GoString} {s s' : Drives} {idx f : ℕ}
    (h : clearDrives cfg online bucket idx objects s = (s', some f)) :
    idx ≤ f ∧ f < idx + objects.length ∧ NoDrive s.cache (online f) ∧
      ∀ j, idx ≤ j → j < f → ¬ NoDrive s.cache (online j) := by
  induction objects generalizing idx s with
  | nil => simp [clearDrives] at h
  | cons object rest ih =>
    rw [clearDrives] at h
    cases hloc : getCacheLoc cfg s.cache (online idx) bucket object with
    | none =>
      rw [hloc] at h
      obtain ⟨rfl, hf⟩ := Prod.mk.inj h
      obtain rfl := Option.some.inj hf
      refine ⟨Nat.le_refl _, by simp, (getCacheLoc_eq_none _ _ _ _ _).mp hloc, ?_⟩
      intro j hj hlt
      omega
    | some i =>
      rw [hloc] at h
      obtain ⟨hle, hlt, hnone, hbefore⟩ := ih h
      rw [noDrive_clearObject] at hnone
      refine ⟨by omega, by simp only [List.length_cons]; omega, hnone, ?_⟩
      intro j hj hjf
      rcases Nat.eq_or_lt_of_le hj with rfl | hj'
      · intro hno
        rw [(getCacheLoc_eq_none cfg _ _ bucket object).mpr hno] at hloc
        cases hloc
      · have hjb := hbefore j hj' hjf
        rw [noDrive_clearObject] at hjb
        exact hjb

/-- The end of the loop: every lookup has found a drive. -/
theorem clearDrives_ok {cfg : DriveConfig} {online : ℕ → ℕ → Bool} {bucket : GoString}
    {objects : List GoString} {s s' : Drives} {idx : ℕ}
    (h : clearDrives cfg online bucket idx objects s = (s', none)) :
    ∀ j, idx ≤ j → j < idx + objects.length → ¬ NoDrive s.cache (online j) := by
  induction objects generalizing idx s with
  | nil =>
    intro j hj hlt
    simp only [List.length_nil] at hlt
    omega
  | cons object rest ih =>
    rw [clearDrives] at h
    cases hloc : getCacheLoc cfg s.cache (online idx) bucket object with
    | none =>
      rw [hloc] at h
      simp at h
    | some i =>
      rw [hloc] at h
      intro j hj hlt
      simp only [List.length_cons] at hlt
      rcases Nat.eq_or_lt_of_le hj with rfl | hj'
      · intro hno
        rw [(getCacheLoc_eq_none cfg _ _ bucket object).mpr hno] at hloc
        cases hloc
      · have hjb := ih h j hj' (by omega)
        rw [noDrive_clearObject] at hjb
        exact hjb

/-! ### What is reported -/

/-- The error at an index of the answer is not nil. -/
def Failed (errs : List (Option DeleteErr)) (idx : ℕ) : Prop := ∃ e, errs[idx]? = some (some e)

/-- `DeleteObjects` answers with an error exactly for the objects that the backend failed to delete or
for which no drive was found. -/
def DeleteObjectsReports (cfg : DriveConfig) (s : Drives) (online : ℕ → ℕ → Bool) (bucket : GoString)
    (objects : List GoString) (backend : List (DeletedObject × Option DeleteErr)) : Prop :=
  ∀ idx < objects.length,
    Failed (deleteObjects cfg s online bucket objects backend).2.2 idx ↔
      Failed (backend.map Prod.snd) idx ∨ NoDrive s.cache (online idx)

/-- `DeleteObject` answers with the error of the backend. -/
def DeleteObjectReports (cfg : DriveConfig) (s : Drives) (online : ℕ → Bool) (bucket object : GoString)
    (objInfoB : ObjectInfo) (errB : Option DeleteErr) : Prop :=
  ∀ e, errB = some e →
    (deleteObject cfg s online bucket object objInfoB errB).2.2 = some e

/-- Nothing fails but the lookup of one drive, the first that fails. -/
def OnlyFirstLookupFails (cache : List (Option Drive)) (online : ℕ → ℕ → Bool) (n : ℕ)
    (derrs : List (Option DeleteErr)) : Prop :=
  ∀ idx < n, Failed derrs idx ∨ NoDrive cache (online idx) →
    NoDrive cache (online idx) ∧ ∀ j < idx, ¬ NoDrive cache (online j)

/-- An error of the backend comes from an object that the cache handles, with a drive online, unless it
is the error of the lookup itself. -/
def BackendErrorPasses (cfg : DriveConfig) (cache : List (Option Drive)) (online : ℕ → Bool)
    (bucket object : GoString) (errB : Option DeleteErr) : Prop :=
  ∀ e, errB = some e → cfg.exclude bucket object = false ∧ cfg.migrating = false ∧
    (¬ NoDrive cache online ∨ e = .diskNotFound)

theorem not_failed_replicate (n idx : ℕ) : ¬ Failed (List.replicate n none) idx := by
  rintro ⟨e, he⟩
  have hmem := List.mem_of_getElem? he
  cases List.eq_of_mem_replicate hmem

theorem failed_set_replicate {n f idx : ℕ} (hf : f < n) (e : DeleteErr) :
    Failed ((List.replicate n none).set f (some e)) idx ↔ idx = f := by
  constructor
  · intro h
    by_contra hne
    obtain ⟨e', he'⟩ := h
    rw [List.getElem?_set_ne (Ne.symm hne)] at he'
    exact not_failed_replicate n idx ⟨e', he'⟩
  · intro h
    subst h
    exact ⟨e, List.getElem?_set_self (by simpa using hf)⟩

/-- **Several objects.** The errors of the backend are lost, and only the first missing drive is
reported. -/
theorem deleteObjects_reports_iff (cfg : DriveConfig) (s : Drives) (online : ℕ → ℕ → Bool)
    (bucket : GoString) (objects : List GoString) (backend : List (DeletedObject × Option DeleteErr)) :
    DeleteObjectsReports cfg s online bucket objects backend ↔
      OnlyFirstLookupFails s.cache online objects.length (backend.map Prod.snd) := by
  unfold DeleteObjectsReports OnlyFirstLookupFails
  rcases hclear : clearDrives cfg online bucket 0 objects s with ⟨s', f | _⟩
  · have hfound := clearDrives_ok hclear
    have herrs : (deleteObjects cfg s online bucket objects backend).2.2 =
        List.replicate objects.length none := by
      simp only [deleteObjects, hclear]
    rw [herrs]
    constructor
    · intro h idx hidx hfail
      exact absurd ((h idx hidx).mpr hfail) (not_failed_replicate _ _)
    · intro h idx hidx
      constructor
      · intro hfailed
        exact absurd hfailed (not_failed_replicate _ _)
      · intro hfail
        exact absurd (h idx hidx hfail).1 (hfound idx (Nat.zero_le _) (by omega))
  · rename_i f
    obtain ⟨_, hf, hnone, hbefore⟩ := clearDrives_error hclear
    have herrs : (deleteObjects cfg s online bucket objects backend).2.2 =
        (List.replicate objects.length none).set f (some .diskNotFound) := by
      simp only [deleteObjects, hclear]
    have hf' : f < objects.length := by omega
    rw [herrs]
    constructor
    · intro h idx hidx hfail
      obtain rfl := (failed_set_replicate hf' _).mp ((h idx hidx).mpr hfail)
      exact ⟨hnone, fun j hj => hbefore j (Nat.zero_le _) hj⟩
    · intro h idx hidx
      rw [failed_set_replicate hf']
      constructor
      · rintro rfl
        exact Or.inr hnone
      · intro hfail
        obtain ⟨hno, hprev⟩ := h idx hidx hfail
        rcases Nat.lt_trichotomy idx f with hlt | heq | hgt
        · exact absurd hno (hbefore idx (Nat.zero_le _) hlt)
        · exact heq
        · exact absurd hnone (hprev f hgt)

/-- **One object.** -/
theorem deleteObject_reports_iff (cfg : DriveConfig) (s : Drives) (online : ℕ → Bool)
    (bucket object : GoString) (objInfoB : ObjectInfo) (errB : Option DeleteErr) :
    DeleteObjectReports cfg s online bucket object objInfoB errB ↔
      BackendErrorPasses cfg s.cache online bucket object errB := by
  unfold DeleteObjectReports BackendErrorPasses
  refine forall_congr' fun e => imp_congr_right fun he => ?_
  subst he
  unfold deleteObject
  by_cases hskip : (cfg.exclude bucket object || cfg.migrating) = true
  · rw [if_pos hskip]
    rw [Bool.or_eq_true] at hskip
    rcases hskip with hex | hmig
    · simp [hex]
    · simp [hmig]
  · rw [if_neg hskip]
    rw [Bool.not_eq_true, Bool.or_eq_false_iff] at hskip
    obtain ⟨hex, hmig⟩ := hskip
    cases hloc : getCacheLoc cfg s.cache online bucket object with
    | none =>
      have hno := (getCacheLoc_eq_none cfg s.cache online bucket object).mp hloc
      simp [hex, hmig, hno, eq_comm]
    | some i =>
      have hyes : ¬ NoDrive s.cache online := by
        intro hno
        rw [(getCacheLoc_eq_none cfg s.cache online bucket object).mpr hno] at hloc
        cases hloc
      simp [hex, hmig, hyes]

/-- **What deletes report.** -/
theorem deletes_report_iff (cfg : DriveConfig) (s : Drives) (online : ℕ → ℕ → Bool)
    (bucket : GoString) (objects : List GoString) (backend : List (DeletedObject × Option DeleteErr))
    (online₁ : ℕ → Bool) (object : GoString) (objInfoB : ObjectInfo) (errB : Option DeleteErr) :
    (DeleteObjectsReports cfg s online bucket objects backend ↔
        OnlyFirstLookupFails s.cache online objects.length (backend.map Prod.snd)) ∧
      (DeleteObjectReports cfg s online₁ bucket object objInfoB errB ↔
        BackendErrorPasses cfg s.cache online₁ bucket object errB) :=
  ⟨deleteObjects_reports_iff cfg s online bucket objects backend,
    deleteObject_reports_iff cfg s online₁ bucket object objInfoB errB⟩

/-- **Failures that are not reported.** One drive, online; the backend refuses to delete.  For an object
of an excluded bucket `DeleteObject` answers with no error, and `DeleteObjects` never has one. -/
theorem deletes_hide_backend_error :
    ¬ DeleteObjectReports ⟨fun b _ => b == lit "x", false, fun _ _ => 0⟩ ⟨[some ⟨[]⟩], []⟩
        (fun _ => true) (lit "x") (lit "a") zeroInfo (some (.other (lit "denied"))) ∧
      ¬ DeleteObjectsReports ⟨fun b _ => b == lit "x", false, fun _ _ => 0⟩ ⟨[some ⟨[]⟩], []⟩
        (fun _ _ => true) (lit "b") [lit "a"]
        [(DeletedObject.zero, some (.other (lit "denied")))] := by
  constructor
  · intro h
    have herr := h _ rfl
    have hnil : (deleteObject ⟨fun b _ => b == lit "x", false, fun _ _ => 0⟩ ⟨[some ⟨[]⟩], []⟩
        (fun _ => true) (lit "x") (lit "a") zeroInfo (some (.other (lit "denied")))).2.2 = none := by
      decide
    rw [hnil] at herr
    cases herr
  · intro h
    have hfailed := (h 0 (by decide)).mpr (Or.inl ⟨_, rfl⟩)
    exact not_failed_replicate 1 0 hfailed

end Zs3Server.Cmd.CacheDrives
