import Zs3Server.Gateway.MultipartComplete

/-!
# The `.etag` files of an upload

`PutObjectPart` writes the ETag of a part into a file beside it.  `ListObjectParts` reads these files to list the
parts, and `CompleteMultipartUpload` to make the ETag of the object.  The listing starts at the marker itself
instead of after it; and an upload that ends in a same-root error, which counts as success, has its files removed
before the ETag is made.

* `ETagInv` — in every run, the `.etag` files are those of the parts uploaded, as long as there is a directory;
* `listObjectParts`, `listObjectParts_faithful_iff` — for which uploads and pages the listing is right;
* `OutcomeInv`, `complete_eTag_iff` — for which results of the upload the object has the ETag of its parts.
-/

namespace Zs3Server.Gateway.Multipart

open Lib.ByteString Lib.StepSystem Lib.GoContext
open Gateway.BatchUpload Gateway.ChunkPipe

variable {W : Type} {md5Hex : List UInt8 → GoString} {cfg : PipeConfig W}
  {history : List (ℤ × List UInt8)} {list : List CompletePart} {s s' : Upload W}

/-! ### The files in a run -/

/-- A `PutObjectPart` at this position has written its `.etag` file. -/
def PutPc.saved : PutPc → Bool
  | .updateSize | .returned (.ok _) => true
  | _ => false

/-- The call has written the ETag of this part. -/
def Call.Saves (call : Call) (p : ℤ) (c : List UInt8) : Prop := ∃ pc, call = .put p c pc ∧ pc.saved = true

def Upload.Saved (s : Upload W) (p : ℤ) (c : List UInt8) : Prop := ∃ call ∈ s.calls, call.Saves p c

/-- A call that moves on keeps what it has saved. -/
theorem saved_set {i : ℕ} {call call' : Call} (hi : s.calls[i]? = some call)
    (hcalls : s'.calls = s.calls.set i call') (hmono : ∀ p c, call.Saves p c → call'.Saves p c) (p : ℤ)
    (c : List UInt8) : s'.Saved p c ↔ s.Saved p c ∨ call'.Saves p c := by
  have hlen : i < s.calls.length := (List.getElem?_eq_some_iff.mp hi).1
  unfold Upload.Saved
  rw [hcalls]
  constructor
  · intro ⟨x, hx, hsaves⟩
    rcases List.mem_or_eq_of_mem_set hx with hx | rfl
    · exact Or.inl ⟨x, hx, hsaves⟩
    · exact Or.inr hsaves
  · intro h
    rcases h with ⟨x, hx, hsaves⟩ | hsaves
    · obtain ⟨j, hj⟩ := List.mem_iff_getElem?.mp hx
      by_cases hij : i = j
      · subst hij
        obtain rfl : call = x := Option.some.inj (hi.symm.trans hj)
        exact ⟨call', List.mem_set hlen _, hmono p c hsaves⟩
      · refine ⟨x, List.mem_of_getElem? (i := j) ?_, hsaves⟩
        rw [List.getElem?_set_ne hij]
        exact hj
    · exact ⟨call', List.mem_set hlen _, hsaves⟩

/-- The directory keeps its `.etag` files or is removed. -/
def Upload.KeepsETags (s s' : Upload W) : Prop :=
  (s'.dir.present = s.dir.present ∧ s'.dir.etags = s.dir.etags) ∨ s'.dir = PartDir.none

theorem PartDir.write_etags (dir : PartDir) (p : ℤ) (offset : ℕ) (data : List UInt8) :
    (dir.write p offset data).present = dir.present ∧ (dir.write p offset data).etags = dir.etags := by
  unfold PartDir.write
  split <;> exact ⟨rfl, rfl⟩

theorem PutTrans.etags {p : ℤ} {c : List UInt8} {pc pc' : PutPc} {ev : CallEvent}
    (ht : PutTrans md5Hex s p c pc ev s' pc') :
    (s.KeepsETags s' ∧ pc'.saved = pc.saved) ∨
      (s.dir.present = true ∧ s'.dir.present = true ∧ pc'.saved = true ∧
        s'.dir.etags = (p, md5Hex c) :: s.dir.etags) := by
  cases ht with
  | saveETag hdir => exact Or.inr ⟨hdir, hdir, rfl, rfl⟩
  | copy written k hlt hk => exact Or.inl ⟨Or.inl (PartDir.write_etags _ _ _ _), rfl⟩
  | _ => exact Or.inl ⟨Or.inl ⟨rfl, rfl⟩, rfl⟩

theorem CompleteTrans.etags {pc pc' : CompletePc} {ev : CallEvent} (ht : CompleteTrans s pc ev s' pc') :
    s.KeepsETags s' := by
  cases ht with
  | cleanup => exact Or.inr rfl
  | _ => exact Or.inl ⟨rfl, rfl⟩

theorem AbortTrans.etags {pc pc' : AbortPc} {ev : CallEvent} (ht : AbortTrans s pc ev s' pc') :
    s.KeepsETags s' := by
  cases ht with
  | cleanup => exact Or.inr rfl
  | _ => exact Or.inl ⟨rfl, rfl⟩

theorem ReaderTrans.etags {ev : ReaderEvent} (ht : ReaderTrans s ev s') : s.KeepsETags s' := by
  cases ht with
  | cleanup => exact Or.inr rfl
  | _ => exact Or.inl ⟨rfl, rfl⟩

theorem ChunkerTrans.etags {ev : ChunkerEvent} (ht : ChunkerTrans cfg s ev s') : s.KeepsETags s' := by
  cases ht with
  | cleanup => exact Or.inr rfl
  | _ => exact Or.inl ⟨rfl, rfl⟩

theorem SdkTrans.etags {ev : SdkEvent} (ht : SdkTrans s ev s') : s.KeepsETags s' := by
  cases ht with
  | cleanup => exact Or.inr rfl
  | _ => exact Or.inl ⟨rfl, rfl⟩

/-- **The `.etag` files are those of the parts uploaded**, as long as there is a directory. -/
structure ETagInv (md5Hex : List UInt8 → GoString) (s : Upload W) : Prop where
  in_map : s.inFileMap = true
  gone : s.dir.present = false → s.dir.etags = []
  sound : ∀ e ∈ s.dir.etags, ∃ c, s.Saved e.1 c ∧ e.2 = md5Hex c
  all : s.dir.present = true → ∀ p c, s.Saved p c → (p, md5Hex c) ∈ s.dir.etags

theorem eTagInv_fresh (cfg : PipeConfig W) : ETagInv md5Hex (Upload.fresh cfg) := by
  refine ⟨rfl, fun _ => rfl, ?_, ?_⟩
  · intro e he
    cases he
  · intro _ p c ⟨call, hcall, _⟩
    cases hcall

theorem ETagInv.congr (h : ETagInv md5Hex s) (hmap : s'.inFileMap = s.inFileMap) (hkeep : s.KeepsETags s')
    (hsaved : ∀ p c, s'.Saved p c ↔ s.Saved p c) : ETagInv md5Hex s' := by
  rcases hkeep with ⟨hpresent, hetags⟩ | hnone
  · refine ⟨hmap.trans h.in_map, ?_, ?_, ?_⟩
    · rw [hpresent, hetags]
      exact h.gone
    · intro e he
      rw [hetags] at he
      obtain ⟨c, hc, heq⟩ := h.sound e he
      exact ⟨c, (hsaved e.1 c).mpr hc, heq⟩
    · intro hdir p c hc
      rw [hpresent] at hdir
      rw [hetags]
      exact h.all hdir p c ((hsaved p c).mp hc)
  · refine ⟨hmap.trans h.in_map, ?_, ?_, ?_⟩
    · intro _
      rw [hnone]
      rfl
    · intro e he
      rw [hnone] at he
      cases he
    · intro hdir
      rw [hnone] at hdir
      cases hdir

theorem ETagInv.put {i : ℕ} {ev : CallEvent} {p : ℤ} {c : List UInt8} {pc pc' : PutPc} {t : Upload W}
    (h : ETagInv md5Hex s) (hi : s.calls[i]? = some (.put p c pc)) (ht : PutTrans md5Hex s p c pc ev t pc') :
    ETagInv md5Hex { t with calls := s.calls.set i (.put p c pc') } := by
  have hstays : pc.saved = true → pc'.saved = true := by
    rcases ht.etags with ⟨-, heq⟩ | ⟨-, -, hpc', -⟩
    · exact fun hpc => heq.trans hpc
    · exact fun _ => hpc'
  have hmono : ∀ q d, (Call.put p c pc).Saves q d → (Call.put p c pc').Saves q d := by
    intro q d ⟨x, heq, hx⟩
    cases heq
    exact ⟨pc', rfl, hstays hx⟩
  have hsaved : ∀ q d, Upload.Saved { t with calls := s.calls.set i (.put p c pc') } q d ↔ _ :=
    saved_set hi rfl hmono
  rcases ht.etags with ⟨hkeep, heq⟩ | ⟨hpresent, hpresent', hpc', hetags⟩
  · refine h.congr ht.frame.1 hkeep ?_
    intro q d
    rw [hsaved]
    refine or_iff_left_of_imp ?_
    intro ⟨x, hx, hxs⟩
    cases hx
    exact ⟨_, List.mem_of_getElem? hi, pc, rfl, heq.symm.trans hxs⟩
  · have hnew : (Call.put p c pc').Saves p c := ⟨pc', rfl, hpc'⟩
    refine ⟨ht.frame.1.trans h.in_map, ?_, ?_, ?_⟩
    · intro hno
      rw [hpresent'] at hno
      cases hno
    · intro e he
      rw [hetags] at he
      rcases List.mem_cons.mp he with rfl | he
      · exact ⟨c, (hsaved p c).mpr (Or.inr hnew), rfl⟩
      · obtain ⟨d, hd, heq⟩ := h.sound e he
        exact ⟨d, (hsaved e.1 d).mpr (Or.inl hd), heq⟩
    · intro _ q d hq
      rw [hetags]
      rcases (hsaved q d).mp hq with hq | ⟨x, hx, -⟩
      · exact List.mem_cons_of_mem _ (h.all hpresent q d hq)
      · cases hx
        exact List.mem_cons_self

theorem ETagInv.step {a : UploadAct} (h : ETagInv md5Hex s) (ht : UploadTrans md5Hex cfg s a s') :
    ETagInv md5Hex s' := by
  have hother : ∀ {i call call'}, s.calls[i]? = some call → s'.calls = s.calls.set i call' →
      (∀ p c, ¬ call.Saves p c) → (∀ p c, ¬ call'.Saves p c) → ∀ p c, s'.Saved p c ↔ s.Saved p c := by
    intro i call call' hi hcalls hno hno' p c
    rw [saved_set hi hcalls (fun p c hs => absurd hs (hno p c))]
    exact or_iff_left (hno' p c)
  cases ht with
  | new hmap | newFault hmap =>
    rw [h.in_map] at hmap
    cases hmap
  | begin request =>
    refine h.congr rfl (Or.inl ⟨rfl, rfl⟩) ?_
    intro p c
    have hstart : ¬ request.start.Saves p c := by
      intro ⟨pc, heq, hpc⟩
      cases request with
      | put q d =>
        cases heq
        cases hpc
      | complete | abort => cases heq
    unfold Upload.Saved
    simp only [List.mem_append, List.mem_singleton, or_and_right, exists_or, exists_eq_left]
    exact or_iff_left hstart
  | put i ev p c pc pc' t hcall ht => exact h.put hcall ht
  | complete i ev parts pc pc' t hcall ht =>
    refine h.congr ht.frame.1 ht.etags (hother hcall rfl ?_ ?_)
    · intro p c ⟨x, hx, _⟩
      cases hx
    · intro p c ⟨x, hx, _⟩
      cases hx
  | abort i ev pc pc' t hcall ht =>
    have hmap : t.inFileMap = s.inFileMap := by cases ht <;> rfl
    refine h.congr hmap ht.etags (hother hcall rfl ?_ ?_)
    · intro p c ⟨x, hx, _⟩
      cases hx
    · intro p c ⟨x, hx, _⟩
      cases hx
  | reader ev t ht =>
    refine h.congr ht.callsFrame.inFileMap ht.etags fun p c => ?_
    rw [Upload.Saved, ht.callsFrame.calls]
    rfl
  | chunker ev t ht =>
    refine h.congr ht.callsFrame.inFileMap ht.etags fun p c => ?_
    rw [Upload.Saved, ht.callsFrame.calls]
    rfl
  | sdk ev t ht =>
    refine h.congr ht.callsFrame.inFileMap ht.etags fun p c => ?_
    rw [Upload.Saved, ht.callsFrame.calls]
    rfl

theorem reaches_eTagInv {ok : Upload W → UploadAct → Prop}
    (h : Reaches (uploadStep md5Hex cfg) ok (Upload.fresh cfg) s) : ETagInv md5Hex s :=
  h.invariant (I := ETagInv md5Hex) (eTagInv_fresh cfg) fun _ _ _ hi _ hst => hi.step (uploadStep_trans hst).2

/-- What a `PutObjectPart` returns. -/
theorem returned_info {ok : Upload W → UploadAct → Prop}
    (h : Reaches (uploadStep md5Hex cfg) ok (Upload.fresh cfg) s) : ∀ p c info,
      Call.put p c (.returned (.ok info)) ∈ s.calls → info = ⟨p, md5Hex c, c.length, c.length⟩ := by
  refine h.invariant (I := fun s => ∀ p c info, Call.put p c (.returned (.ok info)) ∈ s.calls →
    info = ⟨p, md5Hex c, c.length, c.length⟩) ?_ ?_
  · intro p c info hmem
    cases hmem
  · intro s₁ a s₂ hi _ hst p c info hmem
    cases (uploadStep_trans hst).2 with
    | new | newFault => exact hi p c info hmem
    | begin request =>
      rcases List.mem_append.mp hmem with hmem | hmem
      · exact hi p c info hmem
      · cases request <;> cases List.mem_singleton.mp hmem
    | put i ev q d pc pc' t hcall ht =>
      rcases List.mem_or_eq_of_mem_set hmem with hmem | heq
      · exact hi p c info hmem
      · cases heq
        cases ht
        rfl
    | complete i ev parts pc pc' t hcall ht | abort i ev pc pc' t hcall ht =>
      rcases List.mem_or_eq_of_mem_set hmem with hmem | heq
      · exact hi p c info hmem
      · cases heq
    | reader ev t ht | chunker ev t ht | sdk ev t ht =>
      rw [ht.callsFrame.calls] at hmem
      exact hi p c info hmem

/-! ### Listing the parts -/

/-- `hex.EncodeToString`. -/
def hexEncode (b : GoString) : GoString :=
  b.flatMap fun x => [x.toNat / 16, x.toNat % 16].map fun d => UInt8.ofNat d.digitChar.toNat

/-- The errors of `ListObjectParts`, after "Unable to list object parts" and "Unable to read part ETag". -/
inductive ListPartsError where
  | stat
  | readETag
  deriving DecidableEq

/-- The part of `ListPartsInfo` that is not copied from the request. -/
structure ListPartsInfo where
  parts : List PartInfo
  nextPartNumberMarker : ℤ
  isTruncated : Bool
  deriving DecidableEq

/-- The loop of `ListObjectParts` from part `i` on.  `unreadable` are the parts whose `.etag` file is there and
cannot be read; size and ETag are those of that file. -/
def listPartsLoop (dir : PartDir) (unreadable : ℤ → Bool) (maxParts : ℤ) :
    ℕ → ℤ → Except ListPartsError (List PartInfo)
  | 0, _ => .ok []
  | fuel + 1, i =>
    if maxParts < i then .ok []
    else
      match dir.eTag i with
      | none => .ok []
      | some eTag =>
        if unreadable i then .error .readETag
        else
          (listPartsLoop dir unreadable maxParts fuel (i + 1)).map
            (⟨i, hexEncode eTag, eTag.length, eTag.length⟩ :: ·)

/-- `ListObjectParts`; the loop runs over at most the numbers from the marker to `maxParts`. -/
def listObjectParts (dir : PartDir) (unreadable : ℤ → Bool) (partNumberMarker maxParts : ℤ) :
    Except ListPartsError ListPartsInfo :=
  if dir.present then
    (listPartsLoop dir unreadable maxParts (maxParts + 1 - partNumberMarker).toNat partNumberMarker).map
      (⟨·, 0, false⟩)
  else .error .stat

/-- What a `PutObjectPart` has returned. -/
def Call.uploaded : Call → Option PartInfo
  | .put _ _ (.returned (.ok info)) => some info
  | _ => none

/-- The parts uploaded, as `PutObjectPart` has returned them. -/
def Upload.uploaded (s : Upload W) : List PartInfo := s.calls.filterMap Call.uploaded

/-- **What a page should be**: the first `maxParts` parts after the marker, by number. -/
def partsPage (uploaded : List PartInfo) (partNumberMarker maxParts : ℤ) : List PartInfo :=
  ((uploaded.filter fun x => partNumberMarker < x.partNumber).insertionSort
    (fun x y => x.partNumber ≤ y.partNumber)).take maxParts.toNat

theorem partsPage_eq_nil_iff {uploaded : List PartInfo} {marker maxParts : ℤ} (hmax : 1 ≤ maxParts) :
    partsPage uploaded marker maxParts = [] ↔ ∀ x ∈ uploaded, x.partNumber ≤ marker := by
  have hpos : maxParts.toNat ≠ 0 := by omega
  unfold partsPage
  rw [List.take_eq_nil_iff, or_iff_right hpos, ← List.length_eq_zero_iff, List.length_insertionSort,
    List.length_eq_zero_iff, List.filter_eq_nil_iff]
  simp only [decide_eq_true_eq, not_lt]

theorem lt_of_mem_partsPage {uploaded : List PartInfo} {marker maxParts : ℤ} {x : PartInfo}
    (h : x ∈ partsPage uploaded marker maxParts) : marker < x.partNumber := by
  have hmem := (List.mem_insertionSort _).mp (List.mem_of_mem_take h)
  simpa using (List.mem_filter.mp hmem).2

/-- Between calls, the parts saved are those uploaded. -/
theorem saved_iff_uploaded (h : ∀ call ∈ s.calls, ∃ p c res, call = .put p c (.returned res))
    (hinfo : ∀ p c info, Call.put p c (.returned (.ok info)) ∈ s.calls →
      info = ⟨p, md5Hex c, c.length, c.length⟩) (p : ℤ) :
    (∃ c, s.Saved p c) ↔ ∃ x ∈ s.uploaded, x.partNumber = p := by
  constructor
  · intro ⟨c, call, hcall, pc, heq, hpc⟩
    obtain ⟨q, d, res, hret⟩ := h call hcall
    subst hret
    cases heq
    cases res with
    | error err => cases hpc
    | ok info => exact ⟨info, List.mem_filterMap.mpr ⟨_, hcall, rfl⟩, by rw [hinfo p c info hcall]⟩
  · intro ⟨x, hx, hp⟩
    obtain ⟨call, hcall, hup⟩ := List.mem_filterMap.mp hx
    obtain ⟨q, d, res, hret⟩ := h call hcall
    subst hret
    cases res with
    | error err => cases hup
    | ok info =>
      obtain rfl : info = x := Option.some.inj hup
      rw [hinfo q d info hcall] at hp
      subst hp
      exact ⟨d, _, hcall, .returned (.ok info), rfl, rfl⟩

/-- The first number that is looked at is the marker. -/
theorem listPartsLoop_eq_nil_iff {dir : PartDir} {maxParts marker : ℤ} :
    listPartsLoop dir (fun _ => false) maxParts (maxParts + 1 - marker).toNat marker = .ok [] ↔
      maxParts < marker ∨ dir.eTag marker = none := by
  cases hfuel : (maxParts + 1 - marker).toNat with
  | zero => exact ⟨fun _ => Or.inl (by omega), fun _ => rfl⟩
  | succ fuel =>
    have hle : ¬ maxParts < marker := by omega
    rw [listPartsLoop, if_neg hle, or_iff_right hle]
    cases dir.eTag marker with
    | none => exact ⟨fun _ => rfl, fun _ => rfl⟩
    | some eTag =>
      refine ⟨?_, fun h => by cases h⟩
      simp only [Bool.false_eq_true, if_false]
      cases listPartsLoop dir (fun _ => false) maxParts fuel (marker + 1) with
      | error err => intro h; cases h
      | ok l => intro h; cases h

theorem listPartsLoop_head {dir : PartDir} {maxParts : ℤ} {fuel : ℕ} {marker : ℤ} {x : PartInfo}
    {l : List PartInfo} (h : listPartsLoop dir (fun _ => false) maxParts fuel marker = .ok (x :: l)) :
    x.partNumber = marker := by
  cases fuel with
  | zero => cases h
  | succ fuel =>
    rw [listPartsLoop] at h
    split at h
    · cases h
    · cases heTag : dir.eTag marker with
      | none =>
        rw [heTag] at h
        cases h
      | some eTag =>
        simp only [heTag, Bool.false_eq_true, if_false] at h
        cases hrest : listPartsLoop dir (fun _ => false) maxParts fuel (marker + 1) with
        | error err =>
          rw [hrest] at h
          cases h
        | ok rest =>
          rw [hrest] at h
          cases h
          rfl

theorem eTag_eq_none_iff (dir : PartDir) (p : ℤ) : dir.eTag p = none ↔ ∀ e ∈ dir.etags, e.1 ≠ p := by
  unfold PartDir.eTag
  rw [Option.map_eq_none_iff, List.find?_eq_none]
  simp only [beq_iff_eq]

/-- **When a listing is right.**  In a state of any run in which the upload has its directory and no call is under
way, a page is the first `maxParts` parts after the marker exactly if there is no such part, and the marker
itself is not listed either. -/
theorem listObjectParts_faithful_iff (md5Hex : List UInt8 → GoString) (cfg : PipeConfig W) (s : Upload W)
    (hrun : Reaches (uploadStep md5Hex cfg) (fun _ _ => True) (Upload.fresh cfg) s)
    (hdir : s.dir.present = true)
    (hquiet : ∀ call ∈ s.calls, ∃ p c res, call = .put p c (.returned res)) (marker maxParts : ℤ)
    (hmax : 1 ≤ maxParts) :
    (listObjectParts s.dir (fun _ => false) marker maxParts).map ListPartsInfo.parts =
        .ok (partsPage s.uploaded marker maxParts) ↔
      (∀ x ∈ s.uploaded, x.partNumber ≤ marker) ∧
        (maxParts < marker ∨ ∀ x ∈ s.uploaded, x.partNumber ≠ marker) := by
  have hinv := reaches_eTagInv hrun
  have hnone : s.dir.eTag marker = none ↔ ∀ x ∈ s.uploaded, x.partNumber ≠ marker := by
    rw [eTag_eq_none_iff]
    have hiff := saved_iff_uploaded hquiet (returned_info hrun) marker
    constructor
    · intro h x hx heq
      obtain ⟨c, hc⟩ := hiff.mpr ⟨x, hx, heq⟩
      exact h _ (hinv.all hdir marker c hc) rfl
    · intro h e he heq
      obtain ⟨c, hc, -⟩ := hinv.sound e he
      rw [heq] at hc
      obtain ⟨x, hx, hxm⟩ := hiff.mp ⟨c, hc⟩
      exact h x hx hxm
  have hparts : (listObjectParts s.dir (fun _ => false) marker maxParts).map ListPartsInfo.parts =
      listPartsLoop s.dir (fun _ => false) maxParts (maxParts + 1 - marker).toNat marker := by
    unfold listObjectParts
    rw [if_pos hdir]
    cases listPartsLoop s.dir (fun _ => false) maxParts (maxParts + 1 - marker).toNat marker <;> rfl
  rw [hparts, ← hnone, ← partsPage_eq_nil_iff hmax, ← listPartsLoop_eq_nil_iff]
  constructor
  · intro h
    cases hpage : partsPage s.uploaded marker maxParts with
    | nil => exact ⟨rfl, h.trans (by rw [hpage])⟩
    | cons x l =>
      -- a part after the marker is never the first one
      rw [hpage] at h
      have hlt := lt_of_mem_partsPage (hpage ▸ List.mem_cons_self)
      rw [listPartsLoop_head h] at hlt
      exact absurd hlt (lt_irrefl _)
  · intro ⟨hpage, hloop⟩
    rw [hpage, hloop]

/-- The ETag of the part `abc`. -/
def abcETag : GoString := lit "900150983cd24fb0d6963f7d28e17f72"

/-- Part 1 is uploaded. -/
def uploadABC : List UploadAct :=
  [.begin (.put 1 (lit "abc")), .call 0 .step, .call 0 .step, .call 0 (.copy 3), .call 0 .step, .call 0 .step,
    .call 0 .step, .call 0 .step]

/-- After the last part there is nothing to list. -/
theorem listObjectParts_faithful_iff_after : ∃ s, runActs (uploadStep (fun _ => abcETag) plainConfig)
      (Upload.fresh plainConfig) uploadABC = some s ∧ s.uploaded = [⟨1, abcETag, 3, 3⟩] ∧
      (listObjectParts s.dir (fun _ => false) 2 1000).map ListPartsInfo.parts =
        .ok (partsPage s.uploaded 2 1000) := by
  obtain ⟨s, hrun, hcalls, hdir⟩ : ∃ s, runActs (uploadStep (fun _ => abcETag) plainConfig)
      (Upload.fresh plainConfig) uploadABC = some s ∧
      s.calls = [.put 1 (lit "abc") (.returned (.ok ⟨1, abcETag, 3, 3⟩))] ∧ s.dir.present = true :=
    ⟨_, rfl, rfl, rfl⟩
  have hup : s.uploaded = [⟨1, abcETag, 3, 3⟩] := by
    rw [Upload.uploaded, hcalls]
    rfl
  refine ⟨s, hrun, hup, (listObjectParts_faithful_iff _ _ s (reaches_of_runActs _ hrun) hdir ?_ 2 1000
    (by decide)).mpr ?_⟩
  · intro call hcall
    rw [hcalls] at hcall
    exact ⟨1, _, _, List.mem_singleton.mp hcall⟩
  · rw [hup]
    exact ⟨by simp, Or.inr (by simp)⟩

/-- **An uploaded part is not listed**, as the listing starts at part 0.  With the marker 1 it is, but with the hex
digits of its ETag's letters and with the size of the `.etag` file. -/
theorem listObjectParts_misses : ∃ s, runActs (uploadStep (fun _ => abcETag) plainConfig)
      (Upload.fresh plainConfig) uploadABC = some s ∧
      partsPage s.uploaded 0 1000 = [⟨1, abcETag, 3, 3⟩] ∧
      listObjectParts s.dir (fun _ => false) 0 1000 = .ok ⟨[], 0, false⟩ ∧
      listObjectParts s.dir (fun _ => false) 1 1000 = .ok ⟨[⟨1, hexEncode abcETag, 32, 32⟩], 0, false⟩ ∧
      hexEncode abcETag ≠ abcETag :=
  ⟨_, rfl, by decide, by decide, by decide, by decide⟩

/-! ### The ETag of the object -/

/-- The concatenated ETags of the parts `1, …, m`. -/
def partETags (md5Hex : List UInt8 → GoString) (history : List (ℤ × List UInt8)) (m : ℕ) : GoString :=
  ((firstParts m).map fun p => md5Hex (partContent history p)).flatten

def AllPuts (calls : List Call) : Prop := ∀ call ∈ calls, ∃ p c pc, call = .put p c pc

/-- All calls are puts, or a complete has come when all puts had succeeded. -/
def CallsShape (calls : List Call) : Prop :=
  AllPuts calls ∨ ∃ puts parts pc, calls = puts ++ [.complete parts pc] ∧
    ∀ call ∈ puts, ∃ p c info, call = .put p c (.returned (.ok info))

/-- The ETag that a complete has made. -/
def CompletePc.eTag : CompletePc → Option GoString
  | .cleanup eTag => some eTag
  | .returned (.ok info) => some info.eTag
  | _ => none

/-- **The directory and the result**: with an error the SDK's goroutine removes the directory before it hands the
error over; with nil nobody has removed it when the ETag is made. -/
structure OutcomeInv (res : Option GoError) (eTag : GoString) (s : Upload W) : Prop where
  shape : CallsShape s.calls
  cleanup : ∀ err, s.sdk = .cleanup err → some err = res
  deliver : ∀ r, s.sdk = .deliver r → r = res
  errorC : ∀ r ∈ s.errorC, r = res
  posted : s.errorC ≠ [] → s.sdk = .done
  committed : ∀ parts pc, .complete parts pc ∈ s.calls → pc.committed = true → s.sdk = .done
  removed : res ≠ none → (s.sdk = .done ∨ ∃ r, s.sdk = .deliver r) → s.dir.present = false
  kept : res = none → s.pipe.ReadsClean → s.reader ≠ .cleanup ∧ s.pipe.chunker ≠ .cleanup ∧
    (s.dir.present = true ∨ ∃ parts r, .complete parts (.returned r) ∈ s.calls)
  made : ∀ parts pc x, .complete parts pc ∈ s.calls → pc.eTag = some x → x = eTag

variable {res : Option GoError} {eTag : GoString}

theorem outcomeInv_fresh (cfg : PipeConfig W) : OutcomeInv res eTag (Upload.fresh cfg) := by
  refine ⟨Or.inl ?_, ?_, ?_, ?_, ?_, ?_, ?_, ?_, ?_⟩
  · intro call hcall
    cases hcall
  · intro err h
    cases h
  · intro r h
    cases h
  · intro r h
    cases h
  · intro h
    exact absurd rfl h
  · intro parts pc h
    cases h
  · intro _ h
    rcases h with h | ⟨r, h⟩
    · cases h
    · cases h
  · intro _ _
    exact ⟨by simp [Upload.fresh, Upload.started, Upload.absent],
      by simp [Upload.fresh, Upload.started, Upload.absent], Or.inl rfl⟩
  · intro parts pc x h
    cases h

theorem KeepsETags.present (h : s.KeepsETags s') (hdir : s.dir.present = false) : s'.dir.present = false := by
  rcases h with ⟨hp, -⟩ | hnone
  · rw [hp]
    exact hdir
  · rw [hnone]
    rfl

/-- The goroutines leave the result alone, and remove the directory only after a failed read. -/
theorem OutcomeInv.congr (h : OutcomeInv res eTag s) (hcalls : s'.calls = s.calls) (hsdk : s'.sdk = s.sdk)
    (herr : s'.errorC = s.errorC) (hreads : s'.pipe.reads = s.pipe.reads) (hkeep : s.KeepsETags s')
    (hreader : s'.reader = .cleanup → s.reader = .cleanup)
    (hchunker : s'.pipe.chunker = .cleanup → s.pipe.chunker = .cleanup)
    (hdir : s'.dir.present = s.dir.present ∨ s.reader = .cleanup ∨ s.pipe.chunker = .cleanup) :
    OutcomeInv res eTag s' := by
  refine ⟨hcalls ▸ h.shape, hsdk ▸ h.cleanup, hsdk ▸ h.deliver, herr ▸ h.errorC, ?_, ?_, ?_, ?_, hcalls ▸ h.made⟩
  · rw [herr, hsdk]
    exact h.posted
  · rw [hcalls, hsdk]
    exact h.committed
  · intro hres hend
    rw [hsdk] at hend
    exact KeepsETags.present hkeep (h.removed hres hend)
  · intro hres hclean
    rw [Pipe.ReadsClean, hreads] at hclean
    obtain ⟨hr, hc, hp⟩ := h.kept hres hclean
    refine ⟨fun hr' => hr (hreader hr'), fun hc' => hc (hchunker hc'), ?_⟩
    rw [hcalls]
    rcases hdir with heq | hr' | hc'
    · rw [heq]
      exact hp
    · exact absurd hr' hr
    · exact absurd hc' hc

theorem OutcomeInv.reader {ev : ReaderEvent} (h : OutcomeInv res eTag s) (ht : ReaderTrans s ev s') :
    OutcomeInv res eTag s' := by
  refine h.congr ht.callsFrame.calls ?_ ?_ ?_ ht.etags ?_ ?_ ?_
  · cases ht <;> rfl
  · cases ht <;> rfl
  · cases ht <;> rfl
  · intro hpc
    cases ht with
    | sendCancel opened => cases opened <;> cases hpc
    | sendCancelPanic => exact hpc
    | _ => cases hpc
  · intro hpc
    cases ht <;> exact hpc
  · cases ht with
    | cleanup hpc => exact Or.inr (Or.inl hpc)
    | _ => exact Or.inl rfl

theorem receive_ne_cleanup {p p' : Pipe W} (h : p.receive cfg = some p') : p'.chunker ≠ .cleanup := by
  cases receive_trans h with
  | write data rest hpc hdata =>
    unfold Pipe.write
    dsimp only
    split_ifs <;> simp [hpc]
  | flush hpc hdata hclosed =>
    unfold Pipe.flush
    dsimp only
    split_ifs <;> simp

theorem sendChunk_ne_cleanup {p p' : Pipe W} (h : p.sendChunk = some p') : p'.chunker ≠ .cleanup := by
  intro hpc
  have hhealthy := (sendChunk_healthy h).1
  rw [hpc] at hhealthy
  cases hhealthy

theorem OutcomeInv.chunker {ev : ChunkerEvent} (h : OutcomeInv res eTag s) (ht : ChunkerTrans cfg s ev s') :
    OutcomeInv res eTag s' := by
  refine h.congr ht.callsFrame.calls ?_ ?_ ?_ ht.etags ?_ ?_ ?_
  · cases ht <;> rfl
  · cases ht <;> rfl
  · cases ht with
    | receive pipe hrecv => exact (receive_frame hrecv).2.2.2.2.1
    | sendChunk pipe size hsend => exact (sendChunk_frame hsend).2.2.2.1
    | _ => rfl
  · intro hpc
    cases ht <;> exact hpc
  · intro hpc
    cases ht with
    | receive pipe hrecv => exact absurd hpc (receive_ne_cleanup hrecv)
    | sendChunk pipe size hsend => exact absurd hpc (sendChunk_ne_cleanup hsend)
    | sendCancelPanic => exact hpc
    | _ => cases hpc
  · cases ht with
    | cleanup hpc => exact Or.inr (Or.inr hpc)
    | _ => exact Or.inl rfl

/-- A failed read is not clean. -/
theorem not_readsClean_append {p : Pipe W} {text : GoString} (reads : List MemFileData)
    (hreads : p.reads = reads ++ [⟨[], some (.other text)⟩]) : ¬ p.ReadsClean := by
  intro hclean
  rcases hclean ⟨[], some (.other text)⟩ (by simp [hreads]) with h | h
  · cases h
  · cases h

theorem OutcomeInv.sdk {ev : SdkEvent} (h : OutcomeInv res eTag s) (hok : ∀ r, ev = .finish r → r = res)
    (ht : SdkTrans s ev s') : OutcomeInv res eTag s' := by
  -- while the SDK runs, there is no result yet
  have hopen : ∀ {x y : SdkPc}, s.sdk = x → x ≠ .done → (s.errorC ≠ [] → y = .done) ∧
      ∀ parts pc, .complete parts pc ∈ s.calls → pc.committed = true → y = .done := by
    intro x y hx hne
    have hnot : s.sdk ≠ .done := by
      rw [hx]
      exact hne
    refine ⟨fun herr => absurd (h.posted herr) hnot, ?_⟩
    intro parts pc hmem hc
    exact absurd (h.committed parts pc hmem hc) hnot
  cases ht with
  | read len pipe hrun hst =>
    obtain ⟨-, -, -, hpc, -, r, hreads⟩ := read_frame hst
    refine ⟨h.shape, h.cleanup, h.deliver, h.errorC, h.posted, h.committed, h.removed, ?_, h.made⟩
    intro hres hclean
    refine hpc ▸ h.kept hres ?_
    intro x hx
    exact hclean x (by rw [hreads]; exact List.mem_append_left _ hx)
  | readErrReader hrun hpc | readErrChunker text hrun hpc =>
    refine ⟨h.shape, h.cleanup, h.deliver, h.errorC, h.posted, h.committed, h.removed, ?_, h.made⟩
    intro _ hclean
    exact absurd hclean (not_readsClean_append s.pipe.reads rfl)
  | finish hrun heof =>
    obtain ⟨hposted, hcommitted⟩ := hopen hrun (by simp)
    have hres := hok none rfl
    refine ⟨h.shape, ?_, ?_, h.errorC, hposted, hcommitted, fun hne => absurd hres.symm hne, h.kept, h.made⟩
    · intro err hx
      cases hx
    · intro r hx
      cases hx
      exact hres
  | finishErr err hrun heof =>
    obtain ⟨hposted, hcommitted⟩ := hopen hrun (by simp)
    refine ⟨h.shape, ?_, ?_, h.errorC, hposted, hcommitted, ?_, h.kept, h.made⟩
    · intro err' hx
      cases hx
      exact hok (some err) rfl
    · intro r hx
      cases hx
    · intro _ hend
      rcases hend with hx | ⟨r, hx⟩
      · cases hx
      · cases hx
  | cleanup err hsdk =>
    obtain ⟨hposted, hcommitted⟩ := hopen hsdk (by simp)
    have hres := h.cleanup err hsdk
    refine ⟨h.shape, ?_, ?_, h.errorC, hposted, hcommitted, fun _ _ => rfl, ?_, h.made⟩
    · intro err' hx
      cases hx
    · intro r hx
      cases hx
      exact hres
    · intro hnone
      rw [hnone] at hres
      cases hres
  | deliver r hsdk hroom =>
    have herr : s.errorC = [] := by
      by_contra hne
      rw [h.posted hne] at hsdk
      cases hsdk
    refine ⟨h.shape, ?_, ?_, ?_, fun _ => rfl, fun _ _ _ _ => rfl, ?_, h.kept, h.made⟩
    · intro err hx
      cases hx
    · intro r' hx
      cases hx
    · intro r' hr'
      have hmem : r' ∈ s.errorC ++ [r] := hr'
      rw [herr, List.nil_append] at hmem
      rw [List.mem_singleton.mp hmem]
      exact h.deliver r hsdk
    · intro hres _
      exact h.removed hres (Or.inr ⟨r, hsdk⟩)

theorem AllPuts.no_complete {calls : List Call} (h : AllPuts calls) {parts : List CompletePart}
    {pc : CompletePc} : .complete parts pc ∉ calls := by
  intro hmem
  obtain ⟨p, c, x, heq⟩ := h _ hmem
  cases heq

/-- The complete is the last of the calls. -/
theorem CallsShape.last {calls : List Call} (h : CallsShape calls) {parts : List CompletePart} {pc : CompletePc}
    (hmem : .complete parts pc ∈ calls) : ∃ puts, calls = puts ++ [.complete parts pc] ∧
      (∀ call ∈ puts, ∃ p c info, call = .put p c (.returned (.ok info))) ∧ AllPuts puts := by
  rcases h with hputs | ⟨puts, parts', pc', rfl, hputs⟩
  · exact absurd hmem hputs.no_complete
  · have hall : AllPuts puts := by
      intro call hcall
      obtain ⟨p, c, info, heq⟩ := hputs call hcall
      exact ⟨p, c, _, heq⟩
    rcases List.mem_append.mp hmem with hmem | hmem
    · exact absurd hmem hall.no_complete
    · rw [List.mem_singleton.mp hmem]
      exact ⟨puts, rfl, hputs, hall⟩

theorem AllPuts.only {puts : List Call} (h : AllPuts puts) {parts parts' : List CompletePart} {pc pc' : CompletePc}
    (hmem : .complete parts' pc' ∈ puts ++ [.complete parts pc]) : pc' = pc := by
  rcases List.mem_append.mp hmem with hmem | hmem
  · exact absurd hmem h.no_complete
  · cases List.mem_singleton.mp hmem
    rfl

/-- With nil the directory is there until the complete returns. -/
theorem OutcomeInv.present (h : OutcomeInv res eTag s) {parts : List CompletePart} {pc : CompletePc}
    (hmem : .complete parts pc ∈ s.calls) (hpc : ∀ r, pc ≠ .returned r) (hres : res = none)
    (hclean : s.pipe.ReadsClean) : s.dir.present = true := by
  obtain ⟨puts, hcalls, -, hall⟩ := h.shape.last hmem
  rcases (h.kept hres hclean).2.2 with hp | ⟨parts', r, hmem'⟩
  · exact hp
  · rw [hcalls] at hmem'
    exact absurd (hall.only hmem').symm (hpc r)

/-- A put moves only while all calls are puts. -/
theorem OutcomeInv.put {i : ℕ} {ev : CallEvent} {p : ℤ} {c : List UInt8} {pc pc' : PutPc} {t : Upload W}
    (h : OutcomeInv res eTag s) (hi : s.calls[i]? = some (.put p c pc)) (ht : PutTrans md5Hex s p c pc ev t pc') :
    OutcomeInv res eTag { t with calls := s.calls.set i (.put p c pc') } := by
  have hputs : AllPuts s.calls := by
    rcases h.shape with hputs | ⟨puts, parts, x, hcalls, hputs⟩
    · exact hputs
    · have hmem := List.mem_of_getElem? hi
      rw [hcalls] at hmem
      rcases List.mem_append.mp hmem with hmem | hmem
      · obtain ⟨q, d, info, heq⟩ := hputs _ hmem
        cases heq
        cases ht
      · cases List.mem_singleton.mp hmem
  have hputs' : AllPuts (s.calls.set i (.put p c pc')) := by
    intro call hmem
    rcases List.mem_or_eq_of_mem_set hmem with hmem | rfl
    · exact hputs call hmem
    · exact ⟨p, c, pc', rfl⟩
  have hdir : t.dir.present = s.dir.present := by
    rcases ht.etags with ⟨⟨hp, -⟩ | hnone, -⟩ | ⟨hp, hp', -⟩
    · exact hp
    · cases ht <;> first | rfl | exact (PartDir.write_etags _ _ _ _).1
    · rw [hp, hp']
  obtain ⟨-, -, -, herr, hreader, -, hpipe, hsdk⟩ := ht.frame
  refine ⟨Or.inl hputs', hsdk ▸ h.cleanup, hsdk ▸ h.deliver, herr ▸ h.errorC, ?_,
    fun _ _ hmem => absurd hmem hputs'.no_complete, ?_, ?_,
    fun _ _ _ hmem => absurd hmem hputs'.no_complete⟩
  · show t.errorC ≠ [] → t.sdk = .done
    rw [herr, hsdk]
    exact h.posted
  · show res ≠ none → (t.sdk = .done ∨ ∃ r, t.sdk = .deliver r) → t.dir.present = false
    rw [hsdk, hdir]
    exact h.removed
  · intro hres hclean
    have hclean' : s.pipe.ReadsClean := hpipe ▸ hclean
    obtain ⟨hr, hc, hp⟩ := h.kept hres hclean'
    refine ⟨hreader ▸ hr, hpipe ▸ hc, Or.inl ?_⟩
    rcases hp with hp | ⟨parts, r, hmem⟩
    · exact hdir.trans hp
    · exact absurd hmem hputs.no_complete

/-- A complete moves: it makes the ETag when the result is there. -/
theorem OutcomeInv.complete {i : ℕ} {ev : CallEvent} {parts : List CompletePart} {pc pc' : CompletePc}
    {t : Upload W} (h : OutcomeInv res eTag s) (hi : s.calls[i]? = some (.complete parts pc))
    (ht : CompleteTrans s pc ev t pc') (hmade : pc = .construct → constructCompleteObject s.dir = eTag) :
    OutcomeInv res eTag { t with calls := s.calls.set i (.complete parts pc') } := by
  have hmem₀ := List.mem_of_getElem? hi
  obtain ⟨puts, hcalls, hputs, hall⟩ := h.shape.last hmem₀
  have hlast : i = puts.length := by
    rw [hcalls] at hi
    by_contra hne
    rcases lt_or_gt_of_ne hne with hlt | hgt
    · rw [List.getElem?_append_left hlt] at hi
      exact hall.no_complete (List.mem_of_getElem? hi)
    · rw [List.getElem?_eq_none (by simp; omega)] at hi
      cases hi
  have hset : s.calls.set i (.complete parts pc') = puts ++ [.complete parts pc'] := by
    rw [hcalls, hlast, List.set_append_right _ _ le_rfl, Nat.sub_self]
    rfl
  obtain ⟨-, -, -, hreader, -, hpipe, hsdk, -⟩ := ht.frame
  rw [hset]
  refine ⟨Or.inr ⟨puts, parts, pc', rfl, hputs⟩, hsdk ▸ h.cleanup, hsdk ▸ h.deliver, ?_, ?_, ?_, ?_, ?_, ?_⟩
  · intro r hr
    refine h.errorC r ?_
    cases ht with
    | success r' rest hres herr | failure err rest hres herr =>
      rw [herr]
      exact List.mem_cons_of_mem _ hr
    | _ => exact hr
  · intro hne
    refine hsdk.trans (h.posted ?_)
    cases ht with
    | success r' rest hres herr | failure err rest hres herr => simp [herr]
    | _ => exact hne
  · intro parts' x hmem hx
    rw [hall.only hmem] at hx
    refine hsdk.trans ?_
    cases ht with
    | success r' rest hres herr => exact h.posted (by simp [herr])
    | construct | constructFault | cleanup | cleanupFault => exact h.committed parts _ hmem₀ rfl
    | _ => cases hx
  · intro hres hend
    refine KeepsETags.present ht.etags (h.removed hres ?_)
    rw [← hsdk]
    exact hend
  · intro hres hclean
    have hclean' : s.pipe.ReadsClean := hpipe ▸ hclean
    obtain ⟨hr, hc, -⟩ := h.kept hres hclean'
    refine ⟨hreader ▸ hr, hpipe ▸ hc, ?_⟩
    have hnew : Call.complete parts pc' ∈ puts ++ [.complete parts pc'] := by simp
    cases ht with
    | cleanup x => exact Or.inr ⟨parts, _, hnew⟩
    | _ => exact Or.inl (h.present hmem₀ (by simp) hres hclean')
  · intro parts' x y hmem hy
    rw [hall.only hmem] at hy
    cases ht with
    | construct =>
      obtain rfl := Option.some.inj hy
      exact hmade rfl
    | cleanup z => exact h.made parts _ y hmem₀ hy
    | _ => cases hy

/-- `constructCompleteObject` finds consecutive parts. -/
theorem eTagsFrom_eq {dir : PartDir} {e : ℤ → GoString} (n : ℕ) : ∀ (fuel : ℕ) (a : ℤ), n ≤ fuel →
    (∀ k : ℕ, k < n → dir.eTag (a + k) = some (e (a + k))) → dir.eTag (a + n) = none →
      dir.eTagsFrom fuel a = ((List.range n).map fun k : ℕ => e (a + k)).flatten := by
  induction n with
  | zero =>
    intro fuel a _ _ hnone
    cases fuel with
    | zero => rfl
    | succ fuel =>
      rw [Nat.cast_zero, add_zero] at hnone
      simp only [PartDir.eTagsFrom, hnone]
      rfl
  | succ n ih =>
    intro fuel a hle hsome hnone
    obtain ⟨fuel, rfl⟩ : ∃ k, fuel = k + 1 := ⟨fuel - 1, by omega⟩
    have hfirst := hsome 0 (by omega)
    have hshift : ∀ k : ℕ, a + 1 + (k : ℤ) = a + ((k + 1 : ℕ) : ℤ) := by
      intro k
      push_cast
      ring
    rw [Nat.cast_zero, add_zero] at hfirst
    rw [PartDir.eTagsFrom, hfirst, List.range_succ_eq_map, List.map_cons, List.flatten_cons, List.map_map,
      ih fuel (a + 1) (by omega) ?_ ?_]
    · simp only [Nat.cast_zero, add_zero, Function.comp_def, hshift, Nat.succ_eq_add_one]
    · intro k hk
      rw [hshift]
      exact hsome (k + 1) (by omega)
    · rw [hshift]
      exact hnone

theorem Upload.Saved.mem_parts {p : ℤ} {c : List UInt8} (h : s.Saved p c) : (p, c) ∈ s.parts := by
  obtain ⟨call, hcall, pc, rfl, -⟩ := h
  exact List.mem_filterMap.mpr ⟨_, hcall, rfl⟩

/-- When all parts are uploaded and the directory is there, the ETag is that of the parts. -/
theorem ETagInv.construct {m : ℕ} (h : ETagInv md5Hex s) (hdir : s.dir.present = true)
    (hall : ∀ x ∈ s.parts, s.Saved x.1 x.2) (hparts : s.parts.Perm history)
    (hperm : (history.map Prod.fst).Perm (firstParts m)) :
    constructCompleteObject s.dir = partETags md5Hex history m := by
  have hnd : (history.map Prod.fst).Nodup := hperm.nodup_iff.mpr (firstParts_nodup m)
  -- every part has its file, and no other has one
  have hsome : ∀ p ∈ firstParts m, s.dir.eTag p = some (md5Hex (partContent history p)) := by
    intro p hp
    obtain ⟨x, hx, rfl⟩ := List.mem_map.mp (hperm.mem_iff.mpr hp)
    have hfile := h.all hdir x.1 x.2 (hall x (hparts.mem_iff.mpr hx))
    cases hfind : s.dir.eTag x.1 with
    | none =>
      have hno := (eTag_eq_none_iff s.dir x.1).mp hfind (x.1, md5Hex x.2) hfile
      exact absurd rfl hno
    | some eTag =>
      obtain ⟨e, he, rfl⟩ := Option.map_eq_some_iff.mp hfind
      have hkey : e.1 = x.1 := by simpa using List.find?_some he
      obtain ⟨c, hc, heq⟩ := h.sound e (List.mem_of_find?_eq_some he)
      have hmem := hparts.mem_iff.mp hc.mem_parts
      rw [heq, ← hkey, partContent_of_mem hnd hmem]
  have hnone : s.dir.eTag (1 + m) = none := by
    rw [eTag_eq_none_iff]
    intro e he hkey
    obtain ⟨c, hc, -⟩ := h.sound e he
    have hmem := hperm.mem_iff.mp (List.mem_map_of_mem (f := Prod.fst) (hparts.mem_iff.mp hc.mem_parts))
    have hle := (mem_firstParts.mp hmem).2
    simp only at hle
    omega
  have hlen : m ≤ s.dir.etags.length := by
    have hsub : (firstParts m).map (fun p => (p, md5Hex (partContent history p))) ⊆ s.dir.etags := by
      intro e he
      obtain ⟨p, hp, rfl⟩ := List.mem_map.mp he
      obtain ⟨x, hx, rfl⟩ := List.mem_map.mp (hperm.mem_iff.mpr hp)
      rw [partContent_of_mem hnd hx]
      exact h.all hdir x.1 x.2 (hall x (hparts.mem_iff.mpr hx))
    have hnodup : ((firstParts m).map fun p => (p, md5Hex (partContent history p))).Nodup :=
      (firstParts_nodup m).map fun p q hpq => congrArg Prod.fst hpq
    simpa [firstParts_length] using (List.subperm_of_subset hnodup hsub).length_le
  unfold constructCompleteObject partETags
  rw [eTagsFrom_eq (e := fun p => md5Hex (partContent history p)) m _ 1 hlen ?_ hnone, firstParts, List.map_map]
  · simp only [Function.comp_def, add_comm]
  · intro k hk
    exact hsome _ (mem_firstParts.mpr ⟨by omega, by omega⟩)

/-- The ETag that a result leads to. -/
def eTagFor (md5Hex : List UInt8 → GoString) (history : List (ℤ × List UInt8)) (m : ℕ) (res : Option GoError) :
    GoString :=
  if res = none then partETags md5Hex history m else []

theorem OutcomeInv.step {m : ℕ} {a : UploadAct} (h : OutcomeInv res (eTagFor md5Hex history m res) s)
    (hflow : FlowInv cfg s) (hetag : ETagInv md5Hex s) (hparts : s.Completing → s.parts.Perm history)
    (hperm : (history.map Prod.fst).Perm (firstParts m)) (hok : OutcomeStep history list res s a)
    (ht : UploadTrans md5Hex cfg s a s') : OutcomeInv res (eTagFor md5Hex history m res) s' := by
  cases ht with
  | new hmap | newFault hmap =>
    rw [hetag.in_map] at hmap
    cases hmap
  | begin request =>
    have hadd : ∀ parts pc, Call.complete parts pc ∈ s.calls ++ [request.start] → pc ≠ .lookup →
        .complete parts pc ∈ s.calls := by
      intro parts pc hmem hne
      rcases List.mem_append.mp hmem with hmem | hmem
      · exact hmem
      · cases request with
        | complete list' =>
          cases List.mem_singleton.mp hmem
          exact absurd rfl hne
        | put | abort => cases List.mem_singleton.mp hmem
    refine ⟨?_, h.cleanup, h.deliver, h.errorC, h.posted, ?_, h.removed, ?_, ?_⟩
    · cases request with
      | put p c =>
        refine Or.inl ?_
        intro call hmem
        rcases List.mem_append.mp hmem with hmem | hmem
        · rcases h.shape with hputs | ⟨puts, parts, pc, hcalls, -⟩
          · exact hputs call hmem
          · exact absurd ⟨parts, pc, by simp [hcalls]⟩ hok.1.1
        · exact ⟨p, c, .create, List.mem_singleton.mp hmem⟩
      | complete parts => exact Or.inr ⟨s.calls, parts, .lookup, rfl, hok.1.2.2⟩
      | abort => exact hok.1.elim
    · intro parts pc hmem hc
      exact h.committed parts pc (hadd parts pc hmem (by rintro rfl; cases hc)) hc
    · intro hres hclean
      obtain ⟨hr, hc, hp⟩ := h.kept hres hclean
      refine ⟨hr, hc, hp.imp_right ?_⟩
      intro ⟨parts, r, hmem⟩
      exact ⟨parts, r, List.mem_append_left _ hmem⟩
    · intro parts pc x hmem hx
      exact h.made parts pc x (hadd parts pc hmem (by rintro rfl; cases hx)) hx
  | put i ev p c pc pc' t hcall ht => exact h.put hcall ht
  | complete i ev parts pc pc' t hcall ht =>
    refine h.complete hcall ht ?_
    rintro rfl
    have hmem := List.mem_of_getElem? hcall
    unfold eTagFor
    by_cases hres : res = none
    · rw [if_pos hres]
      have hclean := ((readToEof_iff _).mp (hflow.report (.complete parts _ hmem rfl)).2).2
      refine hetag.construct (h.present hmem (by simp) hres hclean) ?_ (hparts ⟨parts, _, hmem⟩) hperm
      intro x hx
      obtain ⟨call, hcall', hpart⟩ := List.mem_filterMap.mp hx
      obtain ⟨puts, hcalls, hputs, -⟩ := h.shape.last hmem
      have hmem' := hcall'
      rw [hcalls] at hmem'
      rcases List.mem_append.mp hmem' with hmem' | hmem'
      · obtain ⟨p, c, info, rfl⟩ := hputs call hmem'
        obtain rfl := Option.some.inj hpart
        exact ⟨_, hcall', _, rfl, rfl⟩
      · rw [List.mem_singleton.mp hmem'] at hpart
        cases hpart
    · have hgone := h.removed hres (Or.inl (h.committed parts _ hmem rfl))
      rw [if_neg hres, constructCompleteObject, hetag.gone hgone]
      rfl
  | abort i ev pc pc' t hcall ht => exact absurd (List.mem_of_getElem? hcall) (hflow.calls.no_abort pc)
  | reader ev t ht => exact h.reader ht
  | chunker ev t ht => exact h.chunker ht
  | sdk ev t ht => exact h.sdk (fun r hr => hok.2 r (by rw [hr])) ht

/-- The ETag of a complete that has succeeded. -/
theorem complete_eTag_eq {m : ℕ} (hw : cfg.Works) (hperm : (history.map Prod.fst).Perm (firstParts m))
    (hrun : Reaches (uploadStep md5Hex cfg) (OutcomeStep history list res) (Upload.fresh cfg) s)
    {parts : List CompletePart} {info : ObjectInfo}
    (hret : Call.complete parts (.returned (.ok info)) ∈ s.calls) :
    info.eTag = eTagFor md5Hex history m res := by
  have hinv : (FlowInv cfg s ∧ ETagInv md5Hex s ∧ (s.Completing → s.parts.Perm history)) ∧
      OutcomeInv res (eTagFor md5Hex history m res) s := by
    refine hrun.invariant (I := fun s => (FlowInv cfg s ∧ ETagInv md5Hex s ∧
      (s.Completing → s.parts.Perm history)) ∧ OutcomeInv res (eTagFor md5Hex history m res) s)
      ⟨⟨flowInv_fresh cfg, eTagInv_fresh cfg, ?_⟩, outcomeInv_fresh cfg⟩ ?_
    · intro ⟨parts, pc, hmem⟩
      cases hmem
    · intro s₁ a s₂ ⟨⟨hflow, hetag, hparts⟩, hi⟩ hok hst
      have ht := (uploadStep_trans hst).2
      exact ⟨⟨hflow.step hw hok.1.orderly hst, hetag.step ht, hok.1.completing_step hparts ht⟩,
        hi.step hflow hetag hparts hperm hok ht⟩
  exact hinv.2.made parts _ _ hret rfl

/-- **When a complete reports the ETags of the parts.**  Let the parts `1, …, m` be uploaded with success, and
let a complete have succeeded in a run in which the upload ended with `res`.  Its ETag is that of the parts if and
only if `res` is nil, or all the ETags are empty. -/
theorem complete_eTag_iff (md5Hex : List UInt8 → GoString) (cfg : PipeConfig W) (hw : cfg.Works)
    (history : List (ℤ × List UInt8)) (list : List CompletePart) (m : ℕ)
    (hperm : (history.map Prod.fst).Perm (firstParts m)) (res : Option GoError) (s : Upload W)
    (hrun : Reaches (uploadStep md5Hex cfg) (OutcomeStep history list res) (Upload.fresh cfg) s)
    (parts : List CompletePart) (info : ObjectInfo)
    (hret : Call.complete parts (.returned (.ok info)) ∈ s.calls) :
    info.eTag = partETags md5Hex history m ↔ res = none ∨ partETags md5Hex history m = [] := by
  rw [complete_eTag_eq hw hperm hrun hret, eTagFor]
  by_cases hres : res = none
  · rw [if_pos hres]
    exact ⟨fun _ => Or.inl hres, fun _ => rfl⟩
  · rw [if_neg hres, or_iff_right hres]
    exact eq_comm

/-- The history of one part. -/
def abcHistory : List (ℤ × List UInt8) := [(1, lit "abc")]

theorem complete_eTag_iff_nil : ∃ (s : Upload Unit) (parts : List CompletePart) (info : ObjectInfo),
    Reaches (uploadStep (fun _ => abcETag) plainConfig) (OutcomeStep abcHistory [] none)
        (Upload.fresh plainConfig) s ∧
      Call.complete parts (.returned (.ok info)) ∈ s.calls ∧
      info.eTag = partETags (fun _ => abcETag) abcHistory 1 := by
  have hw : plainConfig.Works := PipeConfig.works_of_plain rfl
  have hperm : (abcHistory.map Prod.fst).Perm (firstParts 1) := List.Perm.refl _
  obtain ⟨s, parts, info, hrun, hret, -⟩ := exists_complete hw (by decide) hperm commits_none
  exact ⟨s, parts, info, hrun, hret, (complete_eTag_iff _ _ hw abcHistory [] 1 hperm none s hrun parts info
    hret).mpr (Or.inl rfl)⟩

/-- The error of an upload that has changed nothing. -/
def sameRoot : GoError := .other (lit "previous allocation root are same")

/-- **A complete that succeeds with an empty ETag**: the upload ends with a same-root error. -/
theorem complete_eTag_empty : ∃ (s : Upload Unit) (parts : List CompletePart) (info : ObjectInfo),
    Reaches (uploadStep (fun _ => abcETag) plainConfig) (OutcomeStep abcHistory [] (some sameRoot))
        (Upload.fresh plainConfig) s ∧
      Call.complete parts (.returned (.ok info)) ∈ s.calls ∧ info.eTag = [] ∧
      partETags (fun _ => abcETag) abcHistory 1 = abcETag := by
  have hw : plainConfig.Works := PipeConfig.works_of_plain rfl
  have hperm : (abcHistory.map Prod.fst).Perm (firstParts 1) := List.Perm.refl _
  have hres : Commits (some sameRoot) := by
    intro err herr
    obtain rfl := Option.some.inj herr
    decide
  obtain ⟨s, parts, info, hrun, hret, -⟩ := exists_complete hw (by decide) hperm hres
  exact ⟨s, parts, info, hrun, hret, complete_eTag_eq hw hperm hrun hret, rfl⟩

end Zs3Server.Gateway.Multipart
