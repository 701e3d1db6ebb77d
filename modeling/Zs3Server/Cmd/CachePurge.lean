import Zs3Server.Lib.StepSystem
import Zs3Server.Cmd.DiskCache

/-!
# Garbage collection of the cache

`purge` goes over the cache directories.  It reads the metadata of each under the read lock, and removes
the directory, without a lock, if that read failed, if the entry is stale by its cache-control settings
or if `cache.json` is old; other entries are queued by score and removed after the scan.  An entry that
is not committed is skipped.  Between the read and the removal a put may store a new write; it has the
lock for its two files, the data and then `cache.json`, but the removals do not take it.

* `purgeStep`, `PurgeTrans` — one purge run with puts on the same objects;
* `UncommittedKept` — what must not be lost;
* `purge_keeps_uncommitted` — nothing is lost if the read of an uncommitted entry does not fail and no
  put saves its `cache.json` between the read of an entry and the last removal of it;
* `purge_loses_uncommitted` — a lock timeout removes the `cache.json` of an uncommitted write.
-/

namespace Zs3Server.Cmd.CachePurge

open Lib.ByteString
open Lib.StepSystem
open Lib.GoTime
open Cmd.DiskCache

/-! ### One purge run -/

/-- Where the purge run is.  `seen` has the metadata of an entry, `stale`, `broken` and `purged` are
about to remove a cache directory, `checking` is about to look at the age of `cache.json`. -/
inductive PurgePc (K : Type*) where
  | scanning
  | seen (k : K) (m : CacheMeta)
  | stale (k : K)
  | checking (k : K)
  | broken (k : K)
  | purging
  | purged (k : K)

/-- The object that the run may be about to remove. -/
def PurgePc.removing {K : Type*} : PurgePc K → Option K
  | .stale k => some k
  | .checking k => some k
  | .broken k => some k
  | .purged k => some k
  | _ => none

/-- The object that the run is at. -/
def PurgePc.object {K : Type*} (pc : PurgePc K) : Option K :=
  match pc with
  | .seen k _ => some k
  | _ => pc.removing

/-- `visited` are the directories that the scan has come to, `queue` the objects in the scorer; `writing`
is the put that has the lock of an object and has written its data, with its metadata; `uncommitted` is the
last acknowledged write of an object, if it has not been committed or overwritten. -/
structure PurgeState (K : Type*) where
  files : K → ObjectFiles
  pc : PurgePc K
  visited : List K
  queue : List K
  writing : K → Option (Metadata × Content)
  uncommitted : K → Option Content

/-- The choices that are not the run's own: whether the lock is refused, whether the disk usage is low,
whether `cache.json` is old, and which files the scorer drops. -/
inductive PurgeAct (K : Type*) where
  | visit (k : K) (refused : Bool)
  | inspect (now : GoTime)
  | removeStale (low : Bool)
  | check (old low : Bool)
  | removeBroken
  | endScan
  | drop (k : K)
  | purgeFile (k : K)
  | removePurged
  | putData (k : K) (userDefined : Metadata) (data : Content)
  | putJson (k : K) (now : GoTime)

section Machine

variable {K : Type*} [DecidableEq K] (md5Hex : Content → GoString)

/-- What the run does with the metadata of an entry: skip it, remove it, or queue it. -/
def inspectEntry (s : PurgeState K) (k : K) (m : CacheMeta) (now : GoTime) : PurgeState K :=
  match m.toObjectInfo.userDefined.status with
  | some .pending => { s with pc := .scanning }
  | some .failed => { s with pc := .scanning }
  | _ =>
    match cacheControlOpts m.toObjectInfo with
    | some cc =>
      if cc.isStale now m.toObjectInfo.modTime then { s with pc := .stale k }
      else { s with pc := .checking k }
    | none =>
      -- the access time of the data file, if there is one
      if (s.files k).part.isSome then { s with pc := .checking k, queue := s.queue ++ [k] }
      else { s with pc := .checking k }

def purgeStep (s : PurgeState K) : PurgeAct K → Option (PurgeState K)
  | .visit k refused =>
    match s.pc with
    | .scanning =>
      if k ∈ s.visited then none
      else if refused then some { s with pc := .broken k, visited := k :: s.visited }
      -- the read lock waits for the put
      else if (s.writing k).isSome then none
      else
        match statCache (s.files k) with
        | some (m, _) => some { s with pc := .seen k m, visited := k :: s.visited }
        | none => some { s with pc := .broken k, visited := k :: s.visited }
    | _ => none
  | .inspect now =>
    match s.pc with
    | .seen k m => some (inspectEntry s k m now)
    | _ => none
  | .removeStale low =>
    match s.pc with
    | .stale k =>
      some { s with
        files := Function.update s.files k (delete (s.files k))
        pc := if low then .purging else .checking k }
    | _ => none
  | .check old low =>
    match s.pc with
    | .checking k =>
      if (s.files k).cacheJson = none ∨ old = true then some { s with pc := .broken k }
      else some { s with pc := if low then .purging else .scanning }
    | _ => none
  | .removeBroken =>
    match s.pc with
    | .broken k =>
      some { s with files := Function.update s.files k (delete (s.files k)), pc := .scanning }
    | _ => none
  | .endScan =>
    match s.pc with
    | .scanning => some { s with pc := .purging }
    | _ => none
  | .drop k => some { s with queue := s.queue.erase k }
  | .purgeFile k =>
    match s.pc with
    | .purging =>
      if k ∈ s.queue then
        some { s with
          files := Function.update s.files k { s.files k with part := none }
          pc := .purged k
          queue := s.queue.erase k }
      else none
    | _ => none
  | .removePurged =>
    match s.pc with
    | .purged k =>
      some { s with files := Function.update s.files k (delete (s.files k)), pc := .purging }
    | _ => none
  | .putData k userDefined data =>
    if (s.writing k).isSome then none
    else
      some { s with
        files := Function.update s.files k { s.files k with writeback := some data }
        writing := Function.update s.writing k (some (userDefined, data))
        uncommitted := Function.update s.uncommitted k none }
  | .putJson k now =>
    match s.writing k with
    | some (userDefined, data) =>
      some { s with
        files := Function.update s.files k (saveMetadata (s.files k)
          (writebackInfo md5Hex userDefined data now).userDefined data.length false)
        writing := Function.update s.writing k none
        uncommitted := Function.update s.uncommitted k (some data) }
    | none => none

/-- The steps, sorted by what they do to the files: reads, removals and puts. -/
inductive PurgeTrans (s : PurgeState K) : PurgeAct K → PurgeState K → Prop
  | seen {k m part} : s.pc = .scanning → statCache (s.files k) = some (m, part) →
      PurgeTrans s (.visit k false) { s with pc := .seen k m, visited := k :: s.visited }
  | unread {k refused} : s.pc = .scanning → refused = true ∨ statCache (s.files k) = none →
      PurgeTrans s (.visit k refused) { s with pc := .broken k, visited := k :: s.visited }
  | inspect {k m now} : s.pc = .seen k m → PurgeTrans s (.inspect now) (inspectEntry s k m now)
  | removeStale {k low} : s.pc = .stale k →
      PurgeTrans s (.removeStale low) { s with
        files := Function.update s.files k (delete (s.files k))
        pc := if low then .purging else .checking k }
  | old {k old low} : s.pc = .checking k → PurgeTrans s (.check old low) { s with pc := .broken k }
  | kept {k old low} : s.pc = .checking k →
      PurgeTrans s (.check old low) { s with pc := if low then .purging else .scanning }
  | removeBroken {k} : s.pc = .broken k →
      PurgeTrans s .removeBroken { s with
        files := Function.update s.files k (delete (s.files k))
        pc := .scanning }
  | endScan : s.pc = .scanning → PurgeTrans s .endScan { s with pc := .purging }
  | drop {k} : PurgeTrans s (.drop k) { s with queue := s.queue.erase k }
  | purgeFile {k} : s.pc = .purging → k ∈ s.queue →
      PurgeTrans s (.purgeFile k) { s with
        files := Function.update s.files k { s.files k with part := none }
        pc := .purged k
        queue := s.queue.erase k }
  | removePurged {k} : s.pc = .purged k →
      PurgeTrans s .removePurged { s with
        files := Function.update s.files k (delete (s.files k))
        pc := .purging }
  | putData {k userDefined data} :
      PurgeTrans s (.putData k userDefined data) { s with
        files := Function.update s.files k { s.files k with writeback := some data }
        writing := Function.update s.writing k (some (userDefined, data))
        uncommitted := Function.update s.uncommitted k none }
  | putJson {k userDefined data now} : s.writing k = some (userDefined, data) →
      PurgeTrans s (.putJson k now) { s with
        files := Function.update s.files k (saveMetadata (s.files k)
          (writebackInfo md5Hex userDefined data now).userDefined data.length false)
        writing := Function.update s.writing k none
        uncommitted := Function.update s.uncommitted k (some data) }

variable {md5Hex}

theorem purgeStep_trans {s s' : PurgeState K} {a : PurgeAct K}
    (h : purgeStep md5Hex s a = some s') : PurgeTrans md5Hex s a s' := by
  cases a with
  | visit k refused =>
    simp only [purgeStep] at h
    split at h
    · next hpc =>
      split at h
      · cases h
      · split at h
        · next hrefused =>
          cases h
          exact .unread hpc (.inl hrefused)
        · next hrefused =>
          obtain rfl : refused = false := Bool.eq_false_of_not_eq_true hrefused
          split at h
          · cases h
          · split at h
            · next m part hstat =>
              cases h
              exact .seen hpc hstat
            · next hstat =>
              cases h
              exact .unread hpc (.inr hstat)
    · cases h
  | inspect now =>
    simp only [purgeStep] at h
    split at h
    · next k m hpc =>
      cases h
      exact .inspect hpc
    · cases h
  | removeStale low =>
    simp only [purgeStep] at h
    split at h
    · next k hpc =>
      cases h
      exact .removeStale hpc
    · cases h
  | check old low =>
    simp only [purgeStep] at h
    split at h
    · next k hpc =>
      split at h
      · cases h
        exact .old hpc
      · cases h
        exact .kept hpc
    · cases h
  | removeBroken =>
    simp only [purgeStep] at h
    split at h
    · next k hpc =>
      cases h
      exact .removeBroken hpc
    · cases h
  | endScan =>
    simp only [purgeStep] at h
    split at h
    · next hpc =>
      cases h
      exact .endScan hpc
    · cases h
  | drop k =>
    cases h
    exact .drop
  | purgeFile k =>
    simp only [purgeStep] at h
    split at h
    · next hpc =>
      split at h
      · next hk =>
        cases h
        exact .purgeFile hpc hk
      · cases h
    · cases h
  | removePurged =>
    simp only [purgeStep] at h
    split at h
    · next k hpc =>
      cases h
      exact .removePurged hpc
    · cases h
  | putData k userDefined data =>
    simp only [purgeStep] at h
    split at h
    · cases h
    · cases h
      exact .putData
  | putJson k now =>
    simp only [purgeStep] at h
    split at h
    · next userDefined data hwriting =>
      cases h
      exact .putJson hwriting
    · cases h

end Machine

/-! ### Uncommitted writes -/

section Kept

variable {K : Type*} (md5Hex : Content → GoString)

/-- The files still hold the uncommitted write `data`. -/
def Holds (f : ObjectFiles) (data : Content) : Prop :=
  f.writeback = some data ∧ ∃ m, f.cacheJson = some m ∧
    m.metadata.etag = some (md5Hex data) ∧ writebackInProgress m.metadata = true

/-- **No uncommitted write is lost.** -/
def UncommittedKept (s : PurgeState K) : Prop :=
  ∀ k data, s.uncommitted k = some data → Holds md5Hex (s.files k) data

/-- The run has read the metadata of `k` and is not done with it: it is at it, or has it queued. -/
def Busy (s : PurgeState K) (k : K) : Prop := s.pc.object = some k ∨ k ∈ s.queue

/-- The lock is not refused for an object with an uncommitted write, and no put saves `cache.json` between
the read of an entry and the end of its removal. -/
def PurgeUndisturbed (s : PurgeState K) : PurgeAct K → Prop
  | .visit k refused => refused = true → s.uncommitted k = none
  | .putJson k _ => ¬ Busy s k
  | _ => True

/-- What holds along the run: an object that it is busy with is committed, unless its metadata says that
it is not; and a put that has not saved its `cache.json` has its data in the writeback directory. -/
structure PurgeInv (s : PurgeState K) : Prop where
  kept : UncommittedKept md5Hex s
  written : ∀ k put, s.writing k = some put → (s.files k).writeback = some put.2
  queued : ∀ k ∈ s.queue, s.uncommitted k = none
  seen : ∀ k m, s.pc = .seen k m → s.uncommitted k = none ∨ writebackInProgress m.metadata = true
  removing : ∀ k, s.pc.removing = some k → s.uncommitted k = none

variable {md5Hex} {s s' : PurgeState K}

/-- What relates the two values of every object still does so after an update of one of them. -/
theorem related_update {α β : Type*} [DecidableEq K] {R : α → β → Prop} {f : K → Option α} {g : K → β}
    (h : ∀ j a, f j = some a → R a (g j)) {k : K} {v : Option α} {w : β} (hk : ∀ a, v = some a → R a w) :
    ∀ j a, Function.update f k v j = some a → R a (Function.update g k w j) := by
  intro j a hj
  by_cases hjk : j = k
  · subst hjk
    rw [Function.update_self] at hj ⊢
    exact hk a hj
  · rw [Function.update_of_ne hjk] at hj ⊢
    exact h j a hj

theorem PurgeInv.kept_update [DecidableEq K] (h : PurgeInv md5Hex s) {k : K} {v : Option Content}
    {f : ObjectFiles} (hk : ∀ data, v = some data → Holds md5Hex f data) : ∀ j data,
    Function.update s.uncommitted k v j = some data → Holds md5Hex (Function.update s.files k f j) data :=
  related_update (R := fun data f => Holds md5Hex f data) h.kept hk

theorem PurgeInv.written_update [DecidableEq K] (h : PurgeInv md5Hex s) {k : K}
    {v : Option (Metadata × Content)} {f : ObjectFiles}
    (hk : ∀ put, v = some put → f.writeback = some put.2) : ∀ j put,
    Function.update s.writing k v j = some put → (Function.update s.files k f j).writeback = some put.2 :=
  related_update (R := fun (put : Metadata × Content) f => ObjectFiles.writeback f = some put.2) h.written hk

/-- A step that moves on to `pc` and keeps the files. -/
theorem PurgeInv.goto (h : PurgeInv md5Hex s) {pc : PurgePc K} {visited queue : List K}
    (hqueue : ∀ k ∈ queue, s.uncommitted k = none)
    (hseen : ∀ k m, pc = .seen k m → s.uncommitted k = none ∨ writebackInProgress m.metadata = true)
    (hremoving : ∀ k, pc.removing = some k → s.uncommitted k = none) :
    PurgeInv md5Hex { s with pc := pc, visited := visited, queue := queue } :=
  ⟨h.kept, h.written, hqueue, hseen, hremoving⟩

/-- A step that removes files from the cache directory of a committed object. -/
theorem PurgeInv.touch [DecidableEq K] (h : PurgeInv md5Hex s) {k : K} (hk : s.uncommitted k = none)
    (f : ObjectFiles) (hf : f.writeback = (s.files k).writeback) {pc : PurgePc K} {queue : List K}
    (hqueue : ∀ k ∈ queue, s.uncommitted k = none) (hseen : ∀ k m, pc ≠ .seen k m)
    (hremoving : ∀ k, pc.removing = some k → s.uncommitted k = none) :
    PurgeInv md5Hex { s with files := Function.update s.files k f, pc := pc, queue := queue } := by
  have hkept := h.kept_update (k := k) (v := s.uncommitted k) (f := f) fun data hdata => by
    cases hk.symm.trans hdata
  have hwritten := h.written_update (k := k) (v := s.writing k) (f := f) fun put hput =>
    hf.trans (h.written k put hput)
  rw [Function.update_eq_self] at hkept hwritten
  exact ⟨hkept, hwritten, hqueue, fun k m hpc => absurd hpc (hseen k m), hremoving⟩

/-- `cache.json` of a put whose data is written. -/
theorem holds_saveMetadata {f : ObjectFiles} {data : Content} (hf : f.writeback = some data)
    (userDefined : Metadata) (now : GoTime) :
    Holds md5Hex
      (saveMetadata f (writebackInfo md5Hex userDefined data now).userDefined data.length false) data :=
  ⟨hf, _, rfl, rfl, rfl⟩

/-- The metadata of an uncommitted write says so. -/
theorem UncommittedKept.inProgress (h : UncommittedKept md5Hex s) {k : K} {m : CacheMeta} {part : Bool}
    (hstat : statCache (s.files k) = some (m, part)) :
    s.uncommitted k = none ∨ writebackInProgress m.metadata = true := by
  cases hk : s.uncommitted k with
  | none => exact .inl rfl
  | some data =>
    obtain ⟨-, m', hm', -, hprog⟩ := h k data hk
    rw [statCache_of_json hm'] at hstat
    obtain ⟨rfl, -⟩ := Prod.mk.inj (Option.some.inj hstat)
    exact .inr hprog

theorem statCache_of_holds {f : ObjectFiles} {data : Content} (h : Holds md5Hex f data) :
    statCache f ≠ none := by
  obtain ⟨-, m, hm, -⟩ := h
  rw [statCache_of_json hm]
  exact Option.some_ne_none _

/-- Inspecting an entry: only a committed one is queued or removed. -/
theorem PurgeInv.inspect [DecidableEq K] (h : PurgeInv md5Hex s) {k : K} {m : CacheMeta}
    (hpc : s.pc = .seen k m) (now : GoTime) : PurgeInv md5Hex (inspectEntry s k m now) := by
  have hskip : PurgeInv md5Hex { s with pc := .scanning } :=
    h.goto h.queued (fun _ _ hseen => by cases hseen) (fun _ hr => by cases hr)
  have hmove : ∀ (queue : List K) (pc : PurgePc K), s.uncommitted k = none →
      (∀ j ∈ queue, s.uncommitted j = none) → pc.removing = some k →
      PurgeInv md5Hex { s with pc := pc, queue := queue } := by
    intro queue pc hk hqueue hremoving
    refine h.goto hqueue ?_ ?_
    · rintro j m' rfl
      cases hremoving
    · intro j hj
      obtain rfl := Option.some.inj (hremoving.symm.trans hj)
      exact hk
  have hcommitted : writebackInProgress m.metadata = false → s.uncommitted k = none := by
    intro hdone
    rcases h.seen k m hpc with hk | hprog
    · exact hk
    · rw [hdone] at hprog
      cases hprog
  have hstatus : m.toObjectInfo.userDefined.status = m.metadata.status := rfl
  unfold inspectEntry
  rw [hstatus]
  split
  · exact hskip
  · exact hskip
  · next hne₁ hne₂ =>
    have hk : s.uncommitted k = none := by
      refine hcommitted ?_
      unfold writebackInProgress
      split
      · next hs => exact absurd hs hne₁
      · next hs => exact absurd hs hne₂
      · rfl
    split
    · split
      · exact hmove s.queue (.stale k) hk h.queued rfl
      · exact hmove s.queue (.checking k) hk h.queued rfl
    · split
      · refine hmove (s.queue ++ [k]) (.checking k) hk ?_ rfl
        intro j hj
        rcases List.mem_append.mp hj with hold | hnew
        · exact h.queued j hold
        · rw [List.mem_singleton.mp hnew]
          exact hk
      · exact hmove s.queue (.checking k) hk h.queued rfl

/-- The data of a put. -/
theorem PurgeInv.putData [DecidableEq K] (h : PurgeInv md5Hex s) (k : K) (userDefined : Metadata)
    (data : Content) :
    PurgeInv md5Hex { s with
      files := Function.update s.files k { s.files k with writeback := some data }
      writing := Function.update s.writing k (some (userDefined, data))
      uncommitted := Function.update s.uncommitted k none } := by
  have hnone : ∀ j, s.uncommitted j = none → Function.update s.uncommitted k none j = none := by
    intro j hj
    by_cases hjk : j = k
    · rw [hjk, Function.update_self]
    · rw [Function.update_of_ne hjk]
      exact hj
  refine ⟨h.kept_update (fun d hd => by cases hd), h.written_update ?_,
    fun j hj => hnone j (h.queued j hj), ?_, fun j hj => hnone j (h.removing j hj)⟩
  · intro put hput
    rw [← Option.some.inj hput]
  · intro j m hpc
    exact (h.seen j m hpc).imp_left (hnone j)

/-- `cache.json` is saved on an object that the run is not busy with. -/
theorem PurgeInv.putJson [DecidableEq K] (h : PurgeInv md5Hex s) {k : K} (hfree : ¬ Busy s k)
    {userDefined : Metadata} {data : Content} (hwriting : s.writing k = some (userDefined, data))
    (now : GoTime) :
    PurgeInv md5Hex { s with
      files := Function.update s.files k (saveMetadata (s.files k)
        (writebackInfo md5Hex userDefined data now).userDefined data.length false)
      writing := Function.update s.writing k none
      uncommitted := Function.update s.uncommitted k (some data) } := by
  have hother : ∀ j, Busy s j → s.uncommitted j = none →
      Function.update s.uncommitted k (some data) j = none := by
    intro j hbusy hj
    have hne : j ≠ k := by
      rintro rfl
      exact hfree hbusy
    rw [Function.update_of_ne hne]
    exact hj
  refine ⟨h.kept_update ?_, h.written_update (fun put hput => by cases hput), ?_, ?_, ?_⟩
  · intro d hd
    obtain rfl := Option.some.inj hd
    exact holds_saveMetadata (h.written k _ hwriting) userDefined now
  · intro j hj
    exact hother j (.inr hj) (h.queued j hj)
  · intro j m hpc
    rcases h.seen j m hpc with hj | hprog
    · refine .inl (hother j (.inl ?_) hj)
      rw [hpc]
      rfl
    · exact .inr hprog
  · intro j hj
    refine hother j (.inl ?_) (h.removing j hj)
    unfold PurgePc.object
    split
    · next hpc =>
      rw [hpc] at hj
      cases hj
    · exact hj

theorem purgeInv_step [DecidableEq K] {a : PurgeAct K} (h : PurgeInv md5Hex s)
    (hok : PurgeUndisturbed s a) (hst : purgeStep md5Hex s a = some s') : PurgeInv md5Hex s' := by
  have hnoseen : ∀ (pc : PurgePc K), pc.object = pc.removing → ∀ k m, pc ≠ .seen k m := by
    rintro pc hobj k m rfl
    cases hobj
  cases purgeStep_trans hst with
  | @seen k m part hpc hstat =>
    refine h.goto h.queued ?_ (fun _ hr => by cases hr)
    rintro j m' heq
    obtain ⟨rfl, rfl⟩ := PurgePc.seen.inj heq
    exact h.kept.inProgress hstat
  | @unread k refused hpc hwhy =>
    refine h.goto h.queued (fun j m hs => absurd hs (hnoseen _ rfl j m)) ?_
    intro j hj
    obtain rfl := Option.some.inj hj
    rcases hwhy with hrefused | hstat
    · exact hok hrefused
    · cases hk : s.uncommitted k with
      | none => rfl
      | some data => exact absurd hstat (statCache_of_holds (h.kept k data hk))
  | inspect hpc => exact h.inspect hpc _
  | @removeStale k low hpc =>
    have hk := h.removing k (by rw [hpc]; rfl)
    refine h.touch hk (delete (s.files k)) rfl h.queued ?_ ?_
    · cases low <;> exact hnoseen _ rfl
    · intro j hj
      cases low with
      | true => cases hj
      | false =>
        obtain rfl := Option.some.inj hj
        exact hk
  | @old k old low hpc =>
    have hk := h.removing k (by rw [hpc]; rfl)
    refine h.goto h.queued (fun j m hs => absurd hs (hnoseen _ rfl j m)) ?_
    intro j hj
    obtain rfl := Option.some.inj hj
    exact hk
  | @kept k old low hpc =>
    refine h.goto h.queued ?_ ?_
    · cases low <;> exact fun j m hs => absurd hs (hnoseen _ rfl j m)
    · intro j hj
      cases low <;> cases hj
  | @removeBroken k hpc =>
    have hk := h.removing k (by rw [hpc]; rfl)
    exact h.touch hk (delete (s.files k)) rfl h.queued (hnoseen _ rfl) (fun _ hj => by cases hj)
  | endScan hpc => exact h.goto h.queued (fun _ _ hs => by cases hs) (fun _ hj => by cases hj)
  | drop =>
    exact h.goto (fun j hj => h.queued j (List.mem_of_mem_erase hj)) h.seen h.removing
  | @purgeFile k hpc hk =>
    refine h.touch (h.queued k hk) { s.files k with part := none } rfl
      (fun j hj => h.queued j (List.mem_of_mem_erase hj)) (hnoseen _ rfl) ?_
    intro j hj
    obtain rfl := Option.some.inj hj
    exact h.queued k hk
  | @removePurged k hpc =>
    have hk := h.removing k (by rw [hpc]; rfl)
    exact h.touch hk (delete (s.files k)) rfl h.queued (hnoseen _ rfl) (fun _ hj => by cases hj)
  | putData => exact h.putData _ _ _
  | putJson hwriting => exact h.putJson hok hwriting _

/-- The start of a purge run. -/
def purgeInit (files : K → ObjectFiles) (uncommitted : K → Option Content) : PurgeState K :=
  ⟨files, .scanning, [], [], fun _ => none, uncommitted⟩

/-- **No uncommitted write is lost** in any purge run in which the read of an uncommitted entry is not
refused and no put saves `cache.json` between the read of an entry and the end of its removal. -/
theorem purge_keeps_uncommitted [DecidableEq K] (md5Hex : Content → GoString)
    (files : K → ObjectFiles) (uncommitted : K → Option Content)
    (h₀ : UncommittedKept md5Hex (purgeInit files uncommitted)) (s : PurgeState K)
    (h : Reaches (purgeStep md5Hex) PurgeUndisturbed (purgeInit files uncommitted) s) :
    UncommittedKept md5Hex s := by
  have hinv : PurgeInv md5Hex s := by
    refine h.invariant
      ⟨h₀, (fun _ _ hw => by cases hw), (fun _ hk => by cases hk), (fun _ _ hpc => by cases hpc),
        fun _ hk => by cases hk⟩ ?_
    intro s₁ a s₂ hs₁ hok hst
    exact purgeInv_step hs₁ hok hst
  exact hinv.kept

end Kept

/-! ### Runs -/

instance decidableBusy {K : Type*} [DecidableEq K] (s : PurgeState K) (k : K) : Decidable (Busy s k) :=
  inferInstanceAs (Decidable (s.pc.object = some k ∨ k ∈ s.queue))

instance decidablePurgeUndisturbed {K : Type*} [DecidableEq K] (s : PurgeState K) :
    ∀ a : PurgeAct K, Decidable (PurgeUndisturbed s a)
  | .visit k refused => inferInstanceAs (Decidable (refused = true → s.uncommitted k = none))
  | .putJson k _ => inferInstanceAs (Decidable (¬ Busy s k))
  | .inspect _ | .removeStale _ | .check _ _ | .removeBroken | .endScan | .drop _ | .purgeFile _
  | .removePurged | .putData _ _ _ => isTrue trivial

/-- The files of an object with an uncommitted write, and of one that was read from the backend. -/
def twoObjects : Bool → ObjectFiles
  | false => putWriteback id .empty .empty [1] second
  | true => put .empty .empty [2]

/-- The uncommitted object is skipped, the other one removed while a put has written its data. -/
theorem purge_keeps_uncommitted_two :
    ∃ s : PurgeState Bool,
      s.uncommitted false = some [1] ∧ s.uncommitted true = some [3] ∧ UncommittedKept id s := by
  have hrun : ∃ s : PurgeState Bool,
      runActs (guardedStep (purgeStep id) PurgeUndisturbed)
        (purgeInit twoObjects fun k => if k then none else some [1])
        [.visit false false, .inspect 0, .visit true false, .inspect 0, .check false false, .endScan,
          .purgeFile true, .putData true .empty [3], .removePurged, .putJson true second] = some s ∧
      s.uncommitted false = some [1] ∧ s.uncommitted true = some [3] := ⟨_, rfl, rfl, rfl⟩
  obtain ⟨s, hacts, h₁, h₂⟩ := hrun
  refine ⟨s, h₁, h₂, purge_keeps_uncommitted id twoObjects _ ?_ s (reaches_of_guarded _ hacts)⟩
  rintro (_ | _) data hdata
  · obtain rfl := Option.some.inj hdata
    exact ⟨rfl, _, rfl, rfl, rfl⟩
  · cases hdata

/-- **An uncommitted write is lost.**  The read lock on the cache directory of an object with an
uncommitted write is refused, and the directory is removed as one left half filled. -/
theorem purge_loses_uncommitted :
    ∃ s : PurgeState Unit,
      UncommittedKept id
        (purgeInit (fun _ => putWriteback id .empty .empty [1] second) fun _ : Unit => some [1]) ∧
      Reaches (purgeStep id) (fun _ _ => True)
        (purgeInit (fun _ => putWriteback id .empty .empty [1] second) fun _ => some [1]) s ∧
      (s.files ()).cacheJson = none ∧ ¬ UncommittedKept id s := by
  have hrun : ∃ s : PurgeState Unit,
      runActs (purgeStep id)
        (purgeInit (fun _ => putWriteback id .empty .empty [1] second) fun _ => some [1])
        [.visit () true, .removeBroken] = some s ∧
      (s.files ()).cacheJson = none ∧ s.uncommitted () = some [1] := ⟨_, rfl, rfl, rfl⟩
  obtain ⟨s, hacts, hjson, hun⟩ := hrun
  refine ⟨s, ?_, reaches_of_runActs _ hacts, hjson, ?_⟩
  · intro k data hdata
    obtain rfl := Option.some.inj hdata
    exact ⟨rfl, _, rfl, rfl, rfl⟩
  · intro hkept
    obtain ⟨-, m, hm, -⟩ := hkept () [1] hun
    rw [hjson] at hm
    cases hm

end Zs3Server.Cmd.CachePurge
