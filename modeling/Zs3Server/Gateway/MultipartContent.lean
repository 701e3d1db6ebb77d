import Zs3Server.Gateway.MultipartFlow

/-!
# The contents of the parts, and what the SDK has read at the end

With the order of the parts settled, it remains that a part fetched from its file has the content its
call was given, and that a complete succeeds only after the SDK has read its whole stream.

* `ContentInv` — as long as no part number is used twice, a part file holds the bytes its put has
  written, and what the part reader fetched is the content of the put;
* `ReportInv` — a result that lets the complete succeed is there only after the whole stream has been
  read;
* `FlowInv`, `FlowInv.step`, `reaches_flowInv` — all invariants of an orderly run together;
* `FlowInv.eof` — what the SDK has read when it has read to `io.EOF`.
-/

namespace Zs3Server.Gateway.Multipart

open Lib.ByteString Lib.StepSystem Lib.Slots
open Lib.GoContext
open Gateway.BatchUpload Gateway.ChunkPipe

variable {W : Type} {md5Hex : List UInt8 → GoString} {cfg : PipeConfig W} {s s' : Upload W}

/-! ### Uploaded parts -/

/-- The put of `content` as part `partID` has pushed its number. -/
def Upload.Uploaded (s : Upload W) (partID : ℤ) (content : List UInt8) : Prop :=
  ∃ (i : ℕ) (pc : PutPc), s.calls[i]? = some (.put partID content pc) ∧ pc.pushed = true

/-- No two calls put the same part number. -/
def Upload.DistinctParts (s : Upload W) : Prop := (s.parts.map Prod.fst).Nodup

/-- How many bytes of the content are in the part file, as far as the put knows. -/
def PutPc.written (content : List UInt8) : PutPc → Option ℕ
  | .lookup => some 0
  | .copy written => some written
  | .push | .saveETag | .updateSize | .returned (.ok _) | .returned (.error .saveETag) =>
    some content.length
  | _ => none

theorem PutPc.written_of_pushed {content : List UInt8} {pc : PutPc} (h : pc.pushed = true) :
    pc.written content = some content.length := by
  unfold PutPc.pushed at h
  split at h
  · rfl
  · rfl
  · rfl
  · rfl
  · exact absurd h (by simp)

/-- Calls with different positions have different part numbers. -/
theorem Upload.DistinctParts.ne {i j : ℕ} {p q : ℤ} {c d : List UInt8} {pc pd : PutPc}
    (h : s.DistinctParts) (hi : s.calls[i]? = some (.put p c pc))
    (hj : s.calls[j]? = some (.put q d pd)) (hij : i ≠ j) : p ≠ q := by
  rintro rfl
  have hnd : (s.calls.filterMap fun call => call.part.map Prod.fst).Nodup := by
    rw [← List.map_filterMap]
    exact h
  exact hij (index_eq_of_nodup s.calls hnd hi hj rfl rfl)

/-- The parts of the calls stay, and a put that arrives adds its own. -/
theorem UploadTrans.parts {a : UploadAct} (ht : UploadTrans md5Hex cfg s a s') :
    s'.parts = s.parts ∨ ∃ p c, a = .begin (.put p c) ∧ s'.parts = s.parts ++ [(p, c)] := by
  cases ht with
  | begin request =>
    cases request with
    | put p c => exact Or.inr ⟨p, c, rfl, by simp [Upload.parts, Request.start, Call.part]⟩
    | complete | abort => exact Or.inl (by simp [Upload.parts, Request.start, Call.part])
  | put i ev partID content pc pc' t hcall ht => exact Or.inl (filterMap_set_of_eq hcall rfl)
  | complete i ev parts pc pc' t hcall ht => exact Or.inl (filterMap_set_of_eq hcall rfl)
  | abort i ev pc pc' t hcall ht => exact Or.inl (filterMap_set_of_eq hcall rfl)
  | new | newFault => exact Or.inl rfl
  | reader ev t ht => exact Or.inl (by rw [Upload.parts, ht.callsFrame.calls, Upload.parts])
  | chunker ev t ht => exact Or.inl (by rw [Upload.parts, ht.callsFrame.calls, Upload.parts])
  | sdk ev t ht => exact Or.inl (by rw [Upload.parts, ht.callsFrame.calls, Upload.parts])

theorem UploadTrans.distinctParts {a : UploadAct} (ht : UploadTrans md5Hex cfg s a s')
    (h : s'.DistinctParts) : s.DistinctParts := by
  rcases ht.parts with hp | ⟨p, c, -, hp⟩
  · rw [Upload.DistinctParts, ← hp]
    exact h
  · rw [Upload.DistinctParts, hp, List.map_append] at h
    exact h.of_append_left

/-- A part once uploaded stays uploaded. -/
theorem UploadTrans.uploaded {a : UploadAct} {p : ℤ} {c : List UInt8}
    (ht : UploadTrans md5Hex cfg s a s') (h : s.Uploaded p c) : s'.Uploaded p c := by
  obtain ⟨i, pc, hi, hpc⟩ := h
  have hlen : i < s.calls.length := (List.getElem?_eq_some_iff.mp hi).1
  cases ht with
  | begin request => exact ⟨i, pc, (List.getElem?_append_left hlen).trans hi, hpc⟩
  | put j ev partID content q q' t hcall ht =>
    by_cases hij : j = i
    · subst hij
      obtain ⟨rfl, rfl, rfl⟩ := Call.put.inj (Option.some.inj (hcall.symm.trans hi))
      refine ⟨j, q', List.getElem?_set_self hlen, ?_⟩
      rcases ht.pushed with ⟨-, hnew, -⟩ | ⟨hsame, -⟩
      · exact hnew
      · exact hsame.trans hpc
    · exact ⟨i, pc, (List.getElem?_set_ne hij).trans hi, hpc⟩
  | complete j ev parts q q' t hcall ht =>
    refine ⟨i, pc, (List.getElem?_set_ne ?_).trans hi, hpc⟩
    rintro rfl
    exact absurd (hcall.symm.trans hi) (by simp)
  | abort j ev q q' t hcall ht =>
    refine ⟨i, pc, (List.getElem?_set_ne ?_).trans hi, hpc⟩
    rintro rfl
    exact absurd (hcall.symm.trans hi) (by simp)
  | new | newFault => exact ⟨i, pc, hi, hpc⟩
  | reader ev t ht => exact ⟨i, pc, by rw [ht.callsFrame.calls]; exact hi, hpc⟩
  | chunker ev t ht => exact ⟨i, pc, by rw [ht.callsFrame.calls]; exact hi, hpc⟩
  | sdk ev t ht => exact ⟨i, pc, by rw [ht.callsFrame.calls]; exact hi, hpc⟩

theorem Upload.Uploaded.mem_parts {p : ℤ} {c : List UInt8} (h : s.Uploaded p c) :
    (p, c) ∈ s.parts := by
  obtain ⟨i, pc, hi, -⟩ := h
  exact List.mem_filterMap.mpr ⟨_, List.mem_of_getElem? hi, rfl⟩

theorem uploaded_of_mem_pushedParts {p : ℤ} (h : p ∈ s.pushedParts) : ∃ c, s.Uploaded p c := by
  obtain ⟨call, hmem, hp⟩ := List.mem_filterMap.mp h
  obtain ⟨i, hi⟩ := List.mem_iff_getElem?.mp hmem
  cases call with
  | put q c pc =>
    simp only [Call.pushedPart, Option.ite_none_right_eq_some, Option.some.injEq] at hp
    obtain ⟨hpc, rfl⟩ := hp
    exact ⟨c, i, pc, hi, hpc⟩
  | complete | abort => exact absurd hp (by simp [Call.pushedPart])

/-! ### The part files -/

/-- A part file holds what its put has written, a part the reader works on or has fetched is uploaded,
and what it has read of it is the content of its put. -/
structure ContentInv (s : Upload W) : Prop where
  files : ∀ (i : ℕ) (p : ℤ) (c : List UInt8) (pc : PutPc) (w : ℕ),
    s.calls[i]? = some (.put p c pc) → pc.written c = some w →
      w ≤ c.length ∧ ∀ d, s.dir.files p = some d → d = c.take w
  popped : ∀ p, s.reader = .openFile p → ∃ c, s.Uploaded p c
  opened : ∀ p d, s.reader = .fetch p d → s.Uploaded p d
  fetched : ∀ p d, (p, d) ∈ s.fetched → s.Uploaded p d

theorem contentInv_fresh (cfg : PipeConfig W) : ContentInv (Upload.fresh cfg) := by
  refine ⟨?_, ?_, ?_, ?_⟩ <;> simp [Upload.fresh, Upload.started, Upload.absent]

/-- The file of an uploaded part has its whole content. -/
theorem ContentInv.file_uploaded {p : ℤ} {c d : List UInt8} (h : ContentInv s)
    (hup : s.Uploaded p c) (hfile : s.dir.files p = some d) : d = c := by
  obtain ⟨i, pc, hi, hpc⟩ := hup
  rw [(h.files i p c pc c.length hi (PutPc.written_of_pushed hpc)).2 d hfile, List.take_length]

/-- A write at the end of what has been written. -/
theorem write_at_end {c : List UInt8} {w k : ℕ} (hw : w ≤ c.length) :
    (c.take w).take w ++ List.replicate (w - (c.take w).length) 0 ++ (c.drop w).take k ++
      (c.take w).drop (w + ((c.drop w).take k).length) = c.take (min (w + k) c.length) := by
  have hlen : (c.take w).length = w := by
    rw [List.length_take]
    omega
  have hdrop : (c.take w).drop (w + ((c.drop w).take k).length) = [] :=
    List.drop_eq_nil_of_le (by omega)
  rw [hdrop, hlen, Nat.sub_self, List.replicate_zero, List.append_nil, List.append_nil,
    List.take_take, Nat.min_self, ← List.take_add, ← List.take_eq_take_min]

/-- A put touches only the file of its own part. -/
theorem PutTrans.files_of_ne {p partID : ℤ} {content : List UInt8} {pc pc' : PutPc}
    {ev : CallEvent} (ht : PutTrans md5Hex s partID content pc ev s' pc') (hp : p ≠ partID) :
    s'.dir.files p = s.dir.files p := by
  cases ht with
  | create hdir => exact Function.update_of_ne hp _ _
  | copy written k hlt hk =>
    simp only [PartDir.write]
    split
    · exact Function.update_of_ne hp _ _
    · rfl
  | createMissing | createFault | lookup | lookupNone | copyEnd | copyFault | push | saveETag
  | saveETagMissing | saveETagFault | updateSize => rfl

/-- The file of its own part, after a stage of a put. -/
theorem PutTrans.file {partID : ℤ} {content : List UInt8} {pc pc' : PutPc} {ev : CallEvent}
    (ht : PutTrans md5Hex s partID content pc ev s' pc')
    (h : ∀ w, pc.written content = some w →
      w ≤ content.length ∧ ∀ d, s.dir.files partID = some d → d = content.take w) :
    ∀ w, pc'.written content = some w →
      w ≤ content.length ∧ ∀ d, s'.dir.files partID = some d → d = content.take w := by
  cases ht with
  | create hdir =>
    rintro w hw
    obtain rfl : 0 = w := Option.some.inj hw
    refine ⟨Nat.zero_le _, fun d hd => ?_⟩
    have hd' : some [] = some d := (Function.update_self partID _ s.dir.files).symm.trans hd
    exact (Option.some.inj hd').symm
  | copy written k hlt hk =>
    intro w hw
    obtain rfl : min (written + k) content.length = w := Option.some.inj hw
    obtain ⟨hle, hfile⟩ := h written rfl
    refine ⟨Nat.min_le_right _ _, fun d hd => ?_⟩
    cases hold : s.dir.files partID with
    | none =>
      simp only [PartDir.write, hold] at hd
      exact absurd hd (by simp)
    | some e =>
      obtain rfl := hfile e hold
      simp only [PartDir.write, hold, Function.update_self, Option.some.injEq] at hd
      rw [← hd]
      exact write_at_end hle
  | lookup | copyEnd | push | saveETag | saveETagMissing | saveETagFault | updateSize => exact h
  | createMissing | createFault | lookupNone | copyFault =>
    exact fun w hw => absurd hw (by simp [PutPc.written])

/-- A step of the calls, which keep the part reader as it is. -/
theorem ContentInv.calls (h : ContentInv s) (hup : ∀ p c, s.Uploaded p c → s'.Uploaded p c)
    (hfiles : ∀ (i : ℕ) (p : ℤ) (c : List UInt8) (pc : PutPc) (w : ℕ),
      s'.calls[i]? = some (.put p c pc) → pc.written c = some w →
        w ≤ c.length ∧ ∀ d, s'.dir.files p = some d → d = c.take w)
    (hreader : s'.reader = s.reader) (hfetched : s'.fetched = s.fetched) : ContentInv s' := by
  refine ⟨hfiles, ?_, ?_, ?_⟩
  · intro p hp
    obtain ⟨c, hc⟩ := h.popped p (hreader ▸ hp)
    exact ⟨c, hup p c hc⟩
  · exact fun p d hp => hup p d (h.opened p d (hreader ▸ hp))
  · exact fun p d hp => hup p d (h.fetched p d (hfetched ▸ hp))

/-- The file invariant after a stage of a put: it concerns only its own part. -/
theorem ContentInv.put_files {i : ℕ} {ev : CallEvent} {partID : ℤ} {content : List UInt8}
    {pc pc' : PutPc} (h : ContentInv s) (hd : s.DistinctParts)
    (hcall : s.calls[i]? = some (.put partID content pc))
    (ht : PutTrans md5Hex s partID content pc ev s' pc') (j : ℕ) (p : ℤ) (c : List UInt8) (q : PutPc)
    (w : ℕ) (hj : (s.calls.set i (.put partID content pc'))[j]? = some (.put p c q))
    (hw : q.written c = some w) :
    w ≤ c.length ∧ ∀ d, s'.dir.files p = some d → d = c.take w := by
  rcases getElem?_set_cases hj with ⟨rfl, hput⟩ | ⟨hij, hj'⟩
  · obtain ⟨rfl, rfl, rfl⟩ := Call.put.inj hput
    exact ht.file (h.files i _ _ pc · hcall) w hw
  · rw [ht.files_of_ne (hd.ne hcall hj' hij).symm]
    exact h.files j p c q w hj' hw

/-- A step that only removes files, and keeps the calls and what was fetched. -/
theorem ContentInv.congr (h : ContentInv s) (hcalls : s'.calls = s.calls)
    (hfiles : ∀ p d, s'.dir.files p = some d → s.dir.files p = some d)
    (hfetched : s'.fetched = s.fetched)
    (hpopped : ∀ p, s'.reader = .openFile p → ∃ c, s.Uploaded p c)
    (hopened : ∀ p d, s'.reader = .fetch p d → s.Uploaded p d) : ContentInv s' := by
  have hup : ∀ p c, s.Uploaded p c → s'.Uploaded p c := by
    intro p c
    rw [Upload.Uploaded, Upload.Uploaded, hcalls]
    exact id
  refine ⟨?_, ?_, ?_, ?_⟩
  · intro i p c pc w hi hw
    rw [hcalls] at hi
    obtain ⟨hle, hfile⟩ := h.files i p c pc w hi hw
    exact ⟨hle, fun d hd => hfile d (hfiles p d hd)⟩
  · intro p hp
    obtain ⟨c, hc⟩ := hpopped p hp
    exact ⟨c, hup p c hc⟩
  · exact fun p d hp => hup p d (hopened p d hp)
  · exact fun p d hp => hup p d (h.fetched p d (hfetched ▸ hp))

theorem ContentInv.reader {m : ℕ} {ev : ReaderEvent} (h : ContentInv s) (hq : QueueOrder m s)
    (ht : ReaderTrans s ev s') : ContentInv s' := by
  cases ht with
  | popupPart p pq hpc hpop hne =>
    refine h.congr rfl (fun _ _ => id) rfl ?_ (by simp)
    rintro q hq'
    obtain rfl : p = q := by simpa using hq'
    refine uploaded_of_mem_pushedParts ?_
    rcases hq.queue.popup hpop with ⟨rfl, -⟩ | ⟨rfl, hq', -⟩
    · exact absurd rfl hne
    · have hmem : ((m : ℤ) + 1) ∈ (s.pushedParts : Multiset ℤ) := by
        rw [hq'.entries_eq, Multiset.mem_add]
        exact Or.inr (Multiset.mem_coe.mpr (mem_firstParts.mpr ⟨by omega, by push_cast; omega⟩))
      exact Multiset.mem_coe.mp hmem
  | openFile p content hpc hfile =>
    refine h.congr rfl (fun _ _ => id) rfl (by simp) ?_
    intro q d hq'
    obtain ⟨rfl, rfl⟩ : p = q ∧ content = d := by simpa using hq'
    obtain ⟨c, hc⟩ := h.popped p hpc
    rw [h.file_uploaded hc hfile]
    exact hc
  | fetch p opened hpc =>
    have hup := h.opened p opened hpc
    have hdata : (s.dir.files p).getD opened = opened := by
      cases hfile : s.dir.files p with
      | none => rfl
      | some d => exact h.file_uploaded hup hfile
    refine ⟨h.files, by simp, by simp, ?_⟩
    intro q d hmem
    rcases List.mem_append.mp hmem with hmem | hmem
    · exact h.fetched q d hmem
    · obtain ⟨rfl, rfl⟩ := Prod.mk.inj (List.mem_singleton.mp hmem)
      rw [hdata]
      exact hup
  | remove p hpc =>
    refine h.congr rfl ?_ rfl (by simp) (by simp)
    intro q d hd
    by_cases hqp : q = p
    · subst hqp
      exact absurd ((Function.update_self q _ s.dir.files).symm.trans hd) (by simp)
    · exact (Function.update_of_ne hqp _ s.dir.files).symm.trans hd
  | sendCancel opened hpc hclosed htoken =>
    refine h.congr rfl (fun _ _ => id) rfl ?_ ?_ <;> cases opened <;> simp [ReaderPc.afterCancel]
  | cleanup hpc =>
    exact h.congr rfl (fun _ _ hd => absurd hd (by simp [PartDir.none])) rfl (by simp) (by simp)
  | sendCancelPanic opened hpc hclosed => exact ⟨h.files, h.popped, h.opened, h.fetched⟩
  | takeToken | seeClosed | goPopup | popupEnd | closeData | openMissing | openFault | fetchFault
  | sendData => exact h.congr rfl (fun _ _ => id) rfl (by simp) (by simp)

/-- **The contents of the parts**, kept by every step while no part number is used twice. -/
theorem ContentInv.step {m : ℕ} {a : UploadAct} (h : ContentInv s) (hd : s.DistinctParts)
    (hc : CallsInv s) (hq : QueueOrder m s) (ht : UploadTrans md5Hex cfg s a s') :
    ContentInv s' := by
  have hnone : ∀ (p : ℤ) (d : List UInt8), PartDir.none.files p = some d → s.dir.files p = some d :=
    fun _ _ hd => absurd hd (by simp [PartDir.none])
  have hup : ∀ p c, s.Uploaded p c → s'.Uploaded p c := fun p c => ht.uploaded
  cases ht with
  | new hnew => exact absurd (hnew.symm.trans hc.in_map) (by simp)
  | newFault hnew => exact absurd (hnew.symm.trans hc.in_map) (by simp)
  | begin request =>
    refine h.calls hup ?_ rfl rfl
    intro i p c pc w hi hw
    rw [List.getElem?_append] at hi
    split at hi
    · exact h.files i p c pc w hi hw
    · -- a put that has just arrived has not created its file
      have hmem := List.mem_singleton.mp (List.mem_of_getElem? hi)
      cases request <;> simp only [Request.start, reduceCtorEq, Call.put.injEq] at hmem
      rw [hmem.2.2] at hw
      exact absurd hw (by simp [PutPc.written])
  | put i ev partID content pc pc' t hcall ht =>
    obtain ⟨-, -, -, -, hreader, hfetched, -, -⟩ := ht.frame
    have hfiles := h.put_files hd hcall ht
    exact h.calls hup hfiles hreader hfetched
  | complete i ev parts pc pc' t hcall ht =>
    obtain ⟨-, -, -, hreader, hfetched, -⟩ := ht.frame
    have hfiles : ∀ p d, t.dir.files p = some d → s.dir.files p = some d := by
      cases ht with
      | cleanup eTag => exact hnone
      | lookup | lookupNone | setDone | success | failure | construct | constructFault
      | cleanupFault => exact fun _ _ => id
    refine h.calls hup ?_ hreader hfetched
    intro j p c q w hj hw
    rcases getElem?_set_cases hj with ⟨-, hput⟩ | ⟨-, hj'⟩
    · cases hput
    obtain ⟨hle, hfile⟩ := h.files j p c q w hj' hw
    exact ⟨hle, fun d hd => hfile d (hfiles p d hd)⟩
  | abort i ev pc pc' t hcall ht => exact absurd (List.mem_of_getElem? hcall) (hc.no_abort pc)
  | reader ev t ht => exact h.reader hq ht
  | chunker ev t ht =>
    cases ht with
    | cleanup hpc => exact h.congr rfl hnone rfl h.popped h.opened
    | takeToken | seeClosed | timeout | receive | sendCancel | sendCancelPanic | sendChunk =>
      exact ⟨h.files, h.popped, h.opened, h.fetched⟩
  | sdk ev t ht =>
    cases ht with
    | cleanup err hsdk => exact h.congr rfl hnone rfl h.popped h.opened
    | readErrReader hsdk hpc => exact h.congr rfl (fun _ _ => id) rfl (by simp) (by simp)
    | read | readErrChunker | finish | finishErr | deliver =>
      exact ⟨h.files, h.popped, h.opened, h.fetched⟩

/-! ### The result of the upload -/

/-- A complete at this position has got a result that counts as success. -/
def CompletePc.committed : CompletePc → Bool
  | .construct | .cleanup _ | .returned (.ok _) | .returned (.error .constructObject)
  | .returned (.error .cleanup) => true
  | _ => false

/-- A result that counts as success is on its way from the SDK to the complete, or has arrived. -/
inductive Reported (s : Upload W) : Prop
  | cleanup (err : GoError) (h : s.sdk = .cleanup err) (hres : isSameRootError err = true)
  | deliver (res : Option GoError) (h : s.sdk = .deliver res) (hres : Commits res)
  | errorC (res : Option GoError) (h : res ∈ s.errorC) (hres : Commits res)
  | complete (parts : List CompletePart) (pc : CompletePc) (h : .complete parts pc ∈ s.calls)
      (hpc : pc.committed = true)

/-- Such a result means that the SDK has read its whole stream, and it reads no more. -/
def ReportInv (s : Upload W) : Prop :=
  Reported s → s.sdk ≠ .running ∧ readToEof s.pipe.reads = true

theorem reportInv_fresh (cfg : PipeConfig W) : ReportInv (Upload.fresh cfg) := by
  rintro (⟨err, h, -⟩ | ⟨res, h, -⟩ | ⟨res, h, -⟩ | ⟨parts, pc, h, -⟩) <;>
    simp [Upload.fresh, Upload.started, Upload.absent] at h

/-- A step that brings no new result and does not let the SDK read. -/
theorem ReportInv.congr (h : ReportInv s) (hrep : Reported s' → Reported s)
    (hsdk : s'.sdk = s.sdk) (hreads : s'.pipe.reads = s.pipe.reads) : ReportInv s' := by
  intro hr
  rw [hsdk, hreads]
  exact h (hrep hr)

theorem Reported.of_sdk (h : Reported s') (hcalls : s'.calls = s.calls) (hsdk : s'.sdk = s.sdk)
    (herr : s'.errorC = s.errorC) : Reported s := by
  cases h with
  | cleanup err h hres => exact .cleanup err (hsdk ▸ h) hres
  | deliver res h hres => exact .deliver res (hsdk ▸ h) hres
  | errorC res h hres => exact .errorC res (herr ▸ h) hres
  | complete parts pc h hpc => exact .complete parts pc (hcalls ▸ h) hpc

theorem ReportInv.sdk {ev : SdkEvent} (h : ReportInv s) (ht : SdkTrans s ev s') : ReportInv s' := by
  -- while the SDK runs there is no result
  have hrunning : s.sdk = .running → ¬ Reported s := fun hsdk hr => (h hr).1 hsdk
  cases ht with
  | read len pipe hsdk hread => exact fun hr => (hrunning hsdk (hr.of_sdk rfl rfl rfl)).elim
  | readErrReader hsdk hpc => exact fun hr => (hrunning hsdk (hr.of_sdk rfl rfl rfl)).elim
  | readErrChunker text hsdk hpc => exact fun hr => (hrunning hsdk (hr.of_sdk rfl rfl rfl)).elim
  | finish hsdk heof => exact fun _ => ⟨by simp, heof⟩
  | finishErr err hsdk heof =>
    intro hr
    refine ⟨by simp, ?_⟩
    cases hr with
    | cleanup e he hres =>
      obtain rfl : err = e := by simpa using he
      exact heof hres
    | deliver res hres' hres => exact absurd hres' (by simp)
    | errorC res hmem hres => exact absurd (.errorC res hmem hres) (hrunning hsdk)
    | complete parts pc hmem hpc => exact absurd (.complete parts pc hmem hpc) (hrunning hsdk)
  | cleanup err hsdk =>
    intro hr
    refine ⟨by simp, (h ?_).2⟩
    cases hr with
    | cleanup e he hres => exact absurd he (by simp)
    | deliver res hres' hres =>
      obtain rfl : some err = res := by simpa using hres'
      exact .cleanup err hsdk (hres err rfl)
    | errorC res hmem hres => exact .errorC res hmem hres
    | complete parts pc hmem hpc => exact .complete parts pc hmem hpc
  | deliver res hsdk hroom =>
    intro hr
    refine ⟨by simp, (h ?_).2⟩
    cases hr with
    | cleanup e he hres => exact absurd he (by simp)
    | deliver res' hres' hres => exact absurd hres' (by simp)
    | errorC res' hmem hres =>
      rcases List.mem_append.mp hmem with hmem | hmem
      · exact .errorC res' hmem hres
      · obtain rfl := List.mem_singleton.mp hmem
        exact .deliver res' hsdk hres
    | complete parts pc hmem hpc => exact .complete parts pc hmem hpc

/-- A complete takes its result from `errorC`. -/
theorem CompleteTrans.reported {i : ℕ} {ev : CallEvent} {parts : List CompletePart}
    {pc pc' : CompletePc} (hcall : s.calls[i]? = some (.complete parts pc))
    (ht : CompleteTrans s pc ev s' pc')
    (hr : Reported { s' with calls := s.calls.set i (.complete parts pc') }) : Reported s := by
  obtain ⟨-, -, -, -, -, -, hsdk, -⟩ := ht.frame
  have herr : ∀ res ∈ s'.errorC, res ∈ s.errorC := by
    cases ht with
    | success res rest hres herr | failure err rest hres herr =>
      intro x hx
      rw [herr]
      exact List.mem_cons_of_mem _ hx
    | lookup | lookupNone | setDone | construct | constructFault | cleanup | cleanupFault =>
      exact fun _ => id
  cases hr with
  | cleanup err h hres => exact .cleanup err (hsdk ▸ h) hres
  | deliver res h hres => exact .deliver res (hsdk ▸ h) hres
  | errorC res h hres => exact .errorC res (herr res h) hres
  | complete parts' q h hq =>
    rcases List.mem_or_eq_of_mem_set h with h | heq
    · exact .complete parts' q h hq
    · obtain ⟨rfl, rfl⟩ := Call.complete.inj heq
      have hold := List.mem_of_getElem? hcall
      cases ht with
      | success res rest hres herr' => exact .errorC res (by rw [herr']; simp) hres
      | construct | constructFault | cleanup | cleanupFault => exact .complete _ _ hold rfl
      | lookup | lookupNone | setDone | failure => exact absurd hq (by simp [CompletePc.committed])

theorem ReportInv.step {a : UploadAct} (h : ReportInv s) (hc : CallsInv s)
    (ht : UploadTrans md5Hex cfg s a s') : ReportInv s' := by
  cases ht with
  | new hnew => exact absurd (hnew.symm.trans hc.in_map) (by simp)
  | newFault hnew => exact absurd (hnew.symm.trans hc.in_map) (by simp)
  | begin request =>
    refine h.congr ?_ rfl rfl
    rintro (⟨err, h, hres⟩ | ⟨res, h, hres⟩ | ⟨res, h, hres⟩ | ⟨parts, pc, h, hpc⟩)
    · exact .cleanup err h hres
    · exact .deliver res h hres
    · exact .errorC res h hres
    · rcases List.mem_append.mp h with h | h
      · exact .complete parts pc h hpc
      · cases request <;> simp only [Request.start, List.mem_singleton, reduceCtorEq,
          Call.complete.injEq] at h
        rw [h.2] at hpc
        exact absurd hpc (by simp [CompletePc.committed])
  | put i ev partID content pc pc' t hcall ht =>
    obtain ⟨-, -, -, herr, -, -, hpipe, hsdk⟩ := ht.frame
    refine h.congr ?_ hsdk (by rw [hpipe])
    rintro (⟨err, h, hres⟩ | ⟨res, h, hres⟩ | ⟨res, h, hres⟩ | ⟨parts, q, h, hpc⟩)
    · exact .cleanup err (hsdk ▸ h) hres
    · exact .deliver res (hsdk ▸ h) hres
    · exact .errorC res (herr ▸ h) hres
    · rcases List.mem_or_eq_of_mem_set h with h | heq
      · exact .complete parts q h hpc
      · exact absurd heq (by simp)
  | complete i ev parts pc pc' t hcall ht =>
    obtain ⟨-, -, -, -, -, hpipe, hsdk, -⟩ := ht.frame
    exact h.congr (ht.reported hcall) hsdk (by rw [hpipe])
  | abort i ev pc pc' t hcall ht => exact absurd (List.mem_of_getElem? hcall) (hc.no_abort pc)
  | reader ev t ht =>
    cases ht <;> exact h.congr (fun hr => hr.of_sdk rfl rfl rfl) rfl rfl
  | chunker ev t ht =>
    cases ht with
    | receive pipe hrecv =>
      exact h.congr (fun hr => hr.of_sdk rfl rfl rfl) rfl (receive_frame hrecv).2.2.2.2.1
    | sendChunk pipe size hsend hsize =>
      exact h.congr (fun hr => hr.of_sdk rfl rfl rfl) rfl (sendChunk_frame hsend).2.2.2.1
    | takeToken | seeClosed | timeout | sendCancel | sendCancelPanic | cleanup =>
      exact h.congr (fun hr => hr.of_sdk rfl rfl rfl) rfl rfl
  | sdk ev t ht => exact h.sdk ht

/-! ### All together -/

/-- **The invariant of an orderly run.** -/
structure FlowInv (cfg : PipeConfig W) (s : Upload W) : Prop where
  calls : CallsInv s
  feed : FeedInv s
  pipe : PipeInv cfg s
  order : ∃ m, QueueOrder m s
  content : s.DistinctParts → ContentInv s
  report : ReportInv s

theorem flowInv_fresh (cfg : PipeConfig W) : FlowInv cfg (Upload.fresh cfg) :=
  ⟨callsInv_fresh cfg, feedInv_fresh cfg, pipeInv_fresh cfg, ⟨0, queueOrder_fresh cfg⟩,
    fun _ => contentInv_fresh cfg, reportInv_fresh cfg⟩

theorem FlowInv.step {a : UploadAct} (h : FlowInv cfg s) (hw : cfg.Works) (hok : Orderly s a)
    (hst : uploadStep md5Hex cfg s a = some s') : FlowInv cfg s' := by
  have ht := (uploadStep_trans hst).2
  obtain ⟨m, hm⟩ := h.order
  refine ⟨h.calls.step hok ht, h.feed.step h.calls.in_map ht,
    h.pipe.step h.feed hw h.calls.in_map ht, hm.step h.calls h.feed ht, ?_, h.report.step h.calls ht⟩
  intro hd
  have hd' := ht.distinctParts hd
  exact (h.content hd').step hd' h.calls hm ht

theorem readToEof_iff (reads : List MemFileData) :
    readToEof reads = true ↔ (∃ r ∈ reads, r.err = some .eof) ∧
      ∀ r ∈ reads, r.err = none ∨ r.err = some .eof := by
  simp [readToEof, List.any_eq_true, List.all_eq_true]

/-- **What the SDK has read at `io.EOF`**: the pipeline's output for the parts `1, …, m`, which are
exactly the parts pushed; and the complete has arrived. -/
theorem FlowInv.eof (h : FlowInv cfg s) (heof : readToEof s.pipe.reads = true) :
    ∃ m, 1 ≤ m ∧ s.fetched.map Prod.fst = firstParts m ∧ s.pushedParts.Perm (firstParts m) ∧
      s.Completing ∧
      (s.pipe.reads.map MemFileData.buf).flatten = cfg.output (s.fetched.map Prod.snd) := by
  obtain ⟨⟨r, hr, hre⟩, hclean⟩ := (readToEof_iff _).mp heof
  have hfacts := h.pipe hclean
  obtain ⟨hfin, hout⟩ := hfacts.eof_output hr hre
  obtain ⟨-, hdata, hdc⟩ := hfacts.ended hfin
  have hdone := h.feed.closed hdc
  obtain ⟨m, hm⟩ := h.order
  obtain ⟨hempty, hd, hstart⟩ := hm.drained (Or.inr hdc)
  have hperm := hm.queue.perm_of_drained hempty
  refine ⟨m, ?_, ?_, hperm, h.calls.done hd, ?_⟩
  · -- the queue has started, so part 1 was pushed
    have h1 := hperm.mem_iff.mp (Multiset.mem_coe.mp (hm.queue.start_iff.mp hstart))
    exact_mod_cast (mem_firstParts.mp h1).2
  · rcases hm.order with ho | hc | hs
    · simpa [Ordered, hdone, ReaderPc.unfetched] using ho
    · -- the chunking goroutine has cut its last chunks, so it has not left its loop early
      rw [chunkerDead_iff] at hc
      rw [Pipe.finished] at hfin
      rcases hc with ⟨text, hc⟩ | hc | ⟨hc, hmem⟩
      · rw [hc] at hfin
        have := h.feed.memClosed (by simpa using hfin)
        exact absurd (hc.symm.trans this) (by simp)
      · rw [hc] at hfin
        have := h.feed.memClosed (by simpa using hfin)
        exact absurd (hc.symm.trans this) (by simp)
      · rw [hc, hmem] at hfin
        exact absurd hfin (by simp)
    · simp [readerStopping_iff, hdone, hdc] at hs
  · rw [hout, h.feed.feed, hdata, hdone]
    simp [ReaderPc.inflight]

end Zs3Server.Gateway.Multipart
