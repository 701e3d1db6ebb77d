import Zs3Server.Gateway.MultipartSteps

/-!
# The cancel channel of a multipart upload

`AbortMultipartUpload` closes `cancelC`; the part reader sends on it when it cannot open or read a
part file, and the chunking goroutine when the lz4 writer fails.  A second close and a send on the
closed channel both panic.

* `CancelSafe` — the condition on the steps: one abort finds the upload, no send is pending when it
  closes the channel, and afterwards no part file is missing and no file operation and no lz4 write
  fails;
* `closedInv_step` — the channel is closed exactly if an abort is past its close;
* `no_panic_of_cancelSafe` — a run of such steps never panics;
* `canPanic_of_not_cancelSafe` — after any other step the server panics without a further call;
* `cancel_channel_safe` — the two together.
-/

namespace Zs3Server.Gateway.Multipart

open Lib.ByteString Lib.StepSystem
open Gateway.ChunkPipe

variable {W : Type} {md5Hex : List UInt8 → GoString} {cfg : PipeConfig W} {s s' : Upload W}

/-- An abort that is about to close `cancelC`. -/
def Call.atClose : Call → Bool
  | .abort .closeCancel => true
  | _ => false

/-- An abort that is past its close. -/
def Call.hasClosed : Call → Bool
  | .abort .cleanup | .abort (.returned (.ok _)) | .abort (.returned (.error .abortCleanup)) => true
  | _ => false

/-- The next file operation of the part reader fails: its file is not there, or there is a fault. -/
def ReadFails (s : Upload W) : ReaderEvent → Prop
  | .step => ∃ partNumber, s.reader = .openFile partNumber ∧ s.dir.files partNumber = none
  | .fault => True

/-- The lz4 writer fails on the next block, or when it is closed after the last one. -/
def Lz4Fails (cfg : PipeConfig W) (p : Pipe W) : Prop :=
  match p.dataC with
  | data :: _ => (cfg.write p.zw data).2.2 = false
  | [] => (cfg.close p.zw).2.2 = false

/-- The condition on the steps.  An abort finds the upload in `FileMap` only if no other has found it;
it closes `cancelC` while neither goroutine has a send on it pending; and once it is closed neither
the files of the part reader nor the lz4 writer fail. -/
@[mk_iff]
structure CancelSafe (cfg : PipeConfig W) (s : Upload W) (a : UploadAct) : Prop where
  once : ∀ i ev, a = .call i ev → s.calls[i]? = some (.abort .lookup) → s.inFileMap = true →
    ∀ c ∈ s.calls, c.atClose = false ∧ c.hasClosed = false
  pending : ∀ i ev, a = .call i ev → s.calls[i]? = some (.abort .closeCancel) →
    (∀ opened, s.reader ≠ .sendCancel opened) ∧ s.pipe.chunker ≠ .sendCancel
  files : ∀ ev, a = .reader ev → s.cancelClosed = true → ¬ ReadFails s ev
  lz4 : a = .chunker .receive → s.cancelClosed = true → ¬ Lz4Fails cfg s.pipe

theorem receive_sendCancel_iff {p p' : Pipe W} (h : p.receive cfg = some p') :
    p'.chunker = .sendCancel ↔ Lz4Fails cfg p := by
  cases receive_trans h with
  | write data rest hpc hdata =>
    simp only [Lz4Fails, hdata, Pipe.write]
    split_ifs <;> simp_all
  | flush hpc hdata hclosed =>
    simp only [Lz4Fails, hdata, Pipe.flush]
    split_ifs <;> simp_all

/-! ### The calls and the channel -/

theorem countP_set_add {p : Call → Bool} {calls : List Call} {i : ℕ} {c : Call} (c' : Call)
    (h : calls[i]? = some c) :
    (calls.set i c').countP p + (p c).toNat = calls.countP p + (p c').toNat := by
  obtain ⟨hi, rfl⟩ := List.getElem?_eq_some_iff.mp h
  have hpos : p calls[i] = true → 0 < calls.countP p := fun hp =>
    List.countP_pos_iff.mpr ⟨_, List.getElem_mem hi, hp⟩
  rw [List.countP_set hi]
  cases hp : p calls[i] <;> cases p c' <;> simp
  all_goals have := hpos hp; omega

theorem countP_set_of_eq {p : Call → Bool} {calls : List Call} {i : ℕ} {c c' : Call}
    (h : calls[i]? = some c) (hp : p c' = p c) : (calls.set i c').countP p = calls.countP p := by
  have hadd : (calls.set i c').countP p + (p c).toNat = _ := countP_set_add c' h
  rw [hp] at hadd
  omega

theorem countP_start {p : Call → Bool} (hp : ∀ r : Request, p r.start = false) (calls : List Call)
    (request : Request) : (calls ++ [request.start]).countP p = calls.countP p := by
  simp [hp]

/-- What a put and a complete leave alone. -/
theorem PutTrans.channel {partID : ℤ} {content : List UInt8} {pc pc' : PutPc} {ev : CallEvent}
    (ht : PutTrans md5Hex s partID content pc ev s' pc') :
    s'.panicked = s.panicked ∧ s'.cancelClosed = s.cancelClosed ∧ s'.reader = s.reader ∧
      s'.pipe = s.pipe := by
  cases ht <;> exact ⟨rfl, rfl, rfl, rfl⟩

theorem CompleteTrans.channel {pc pc' : CompletePc} {ev : CallEvent} (ht : CompleteTrans s pc ev s' pc') :
    s'.panicked = s.panicked ∧ s'.cancelClosed = s.cancelClosed ∧ s'.reader = s.reader ∧
      s'.pipe = s.pipe := by
  cases ht <;> exact ⟨rfl, rfl, rfl, rfl⟩

/-- The channel is closed exactly if an abort is past its close. -/
def ClosedInv (s : Upload W) : Prop := s.cancelClosed = true ↔ 0 < s.calls.countP Call.hasClosed

theorem ClosedInv.move {t : Upload W} {i : ℕ} {c c' : Call} (h : ClosedInv s)
    (hclosed : t.cancelClosed = s.cancelClosed) (hcall : s.calls[i]? = some c)
    (hsame : c'.hasClosed = c.hasClosed) : ClosedInv { t with calls := s.calls.set i c' } := by
  show t.cancelClosed = true ↔ 0 < (s.calls.set i c').countP Call.hasClosed
  rw [hclosed, countP_set_of_eq hcall hsame]
  exact h

theorem closedInv_step {a : UploadAct} (h : ClosedInv s) (hst : uploadStep md5Hex cfg s a = some s') :
    ClosedInv s' := by
  cases (uploadStep_trans hst).2 with
  | new hmap => exact h
  | newFault hmap => exact h
  | begin request =>
    show s.cancelClosed = true ↔ 0 < (s.calls ++ [request.start]).countP Call.hasClosed
    rw [countP_start (by intro r; cases r <;> rfl)]
    exact h
  | put i ev partID content pc pc' t hcall ht => exact h.move ht.channel.2.1 hcall rfl
  | complete i ev parts pc pc' t hcall ht => exact h.move ht.channel.2.1 hcall rfl
  | abort i ev pc pc' t hcall ht =>
    cases ht with
    | close hopen =>
      have hpos : 0 < (s.calls.set i (.abort .cleanup)).countP Call.hasClosed := by
        have hi : i < s.calls.length := (List.getElem?_eq_some_iff.mp hcall).1
        exact List.countP_pos_iff.mpr ⟨_, List.mem_set hi _, rfl⟩
      exact ⟨fun _ => hpos, fun _ => rfl⟩
    | lookup | lookupNone | closePanic | cleanup | cleanupFault => exact h.move rfl hcall rfl
  | reader ev t ht => cases ht <;> exact h
  | chunker ev t ht => cases ht <;> exact h
  | sdk ev t ht => cases ht <;> exact h

theorem closedInv_absent (cfg : PipeConfig W) : ClosedInv (Upload.absent cfg) := by
  simp [ClosedInv, Upload.absent]

/-! ### Safe steps -/

/-- Nobody has panicked, at most one abort closes the channel, and on the closed channel no send is
pending. -/
structure CancelInv (s : Upload W) : Prop where
  no_panic : s.panicked = false
  closers : s.calls.countP Call.atClose + s.cancelClosed.toNat ≤ 1
  reader : s.cancelClosed = true → ∀ opened, s.reader ≠ .sendCancel opened
  chunker : s.cancelClosed = true → s.pipe.chunker ≠ .sendCancel

theorem cancelInv_absent (cfg : PipeConfig W) : CancelInv (Upload.absent cfg) :=
  ⟨rfl, by simp [Upload.absent], fun _ _ => by simp [Upload.absent],
    fun _ => by simp [Upload.absent, Pipe.new]⟩

/-- A call moves on, and the channel and the goroutines stay as they are. -/
theorem CancelInv.move {t : Upload W} {i : ℕ} {c c' : Call} (h : CancelInv s)
    (hframe : t.panicked = s.panicked ∧ t.cancelClosed = s.cancelClosed ∧ t.reader = s.reader ∧
      t.pipe = s.pipe)
    (hcall : s.calls[i]? = some c) (hclose : c'.atClose = c.atClose) :
    CancelInv { t with calls := s.calls.set i c' } := by
  obtain ⟨hpanic, hclosed, hreader, hpipe⟩ := hframe
  constructor
  · exact hpanic.trans h.no_panic
  · show (s.calls.set i c').countP Call.atClose + t.cancelClosed.toNat ≤ 1
    rw [countP_set_of_eq hcall hclose, hclosed]
    exact h.closers
  · show t.cancelClosed = true → ∀ opened, t.reader ≠ .sendCancel opened
    rw [hclosed, hreader]
    exact h.reader
  · show t.cancelClosed = true → t.pipe.chunker ≠ .sendCancel
    rw [hclosed, hpipe]
    exact h.chunker

theorem CancelInv.abort {i : ℕ} {pc pc' : AbortPc} {ev : CallEvent} (h : CancelInv s)
    (hclosed : ClosedInv s) (hok : CancelSafe cfg s (.call i ev))
    (hcall : s.calls[i]? = some (.abort pc)) (ht : AbortTrans s pc ev s' pc') :
    CancelInv { s' with calls := s.calls.set i (.abort pc') } := by
  cases ht with
  | lookup hmap =>
    -- no other abort has found the upload, so the channel is open and nobody is about to close it
    have hother := hok.once i _ rfl hcall hmap
    have hat : s.calls.countP Call.atClose = 0 :=
      List.countP_eq_zero.mpr fun c hc => by simp [(hother c hc).1]
    have hhas : s.calls.countP Call.hasClosed = 0 :=
      List.countP_eq_zero.mpr fun c hc => by simp [(hother c hc).2]
    have hopen : s.cancelClosed = false := by
      rw [Bool.eq_false_iff]
      intro hc
      exact absurd (hclosed.mp hc) (by omega)
    refine ⟨h.no_panic, ?_, h.reader, h.chunker⟩
    have hadd := countP_set_add (p := Call.atClose) (.abort .closeCancel) hcall
    simp only [Call.atClose, Bool.toNat_false, Bool.toNat_true] at hadd
    simp only [hopen, Bool.toNat_false]
    omega
  | close hopen =>
    refine ⟨h.no_panic, ?_, fun _ => (hok.pending i _ rfl hcall).1, fun _ => (hok.pending i _ rfl hcall).2⟩
    have hadd := countP_set_add (p := Call.atClose) (.abort .cleanup) hcall
    have hle := h.closers
    simp only [Call.atClose, Bool.toNat_false, Bool.toNat_true] at hadd
    simp only [hopen, Bool.toNat_false] at hle
    simp only [Bool.toNat_true]
    omega
  | closePanic hclosed =>
    have hpos : 0 < s.calls.countP Call.atClose :=
      List.countP_pos_iff.mpr ⟨_, List.mem_of_getElem? hcall, rfl⟩
    have hle := h.closers
    simp only [hclosed, Bool.toNat_true] at hle
    omega
  | lookupNone | cleanup | cleanupFault => exact h.move ⟨rfl, rfl, rfl, rfl⟩ hcall rfl

theorem CancelInv.readerStep {ev : ReaderEvent} (h : CancelInv s)
    (hok : s.cancelClosed = true → ¬ ReadFails s ev) (ht : ReaderTrans s ev s') : CancelInv s' := by
  cases ht with
  | openMissing p hpc hfile =>
    exact ⟨h.no_panic, h.closers, fun hc => absurd ⟨p, hpc, hfile⟩ (hok hc), h.chunker⟩
  | openFault => exact ⟨h.no_panic, h.closers, fun hc => absurd trivial (hok hc), h.chunker⟩
  | fetchFault => exact ⟨h.no_panic, h.closers, fun hc => absurd trivial (hok hc), h.chunker⟩
  | sendCancel opened =>
    exact ⟨h.no_panic, h.closers, fun _ _ => by cases opened <;> simp [ReaderPc.afterCancel], h.chunker⟩
  | sendCancelPanic opened hpc hclosed => exact absurd hpc (h.reader hclosed opened)
  | takeToken | seeClosed | goPopup | popupEnd | popupPart | closeData | openFile | fetch | sendData | remove |
    cleanup => exact ⟨h.no_panic, h.closers, fun _ _ => by simp, h.chunker⟩

theorem CancelInv.chunkerStep {ev : ChunkerEvent} (h : CancelInv s)
    (hok : ev = .receive → s.cancelClosed = true → ¬ Lz4Fails cfg s.pipe)
    (ht : ChunkerTrans cfg s ev s') : CancelInv s' := by
  cases ht with
  | receive pipe hrecv =>
    exact ⟨h.no_panic, h.closers, h.reader, fun hc hsend =>
      hok rfl hc ((receive_sendCancel_iff hrecv).mp hsend)⟩
  | sendCancelPanic hpc hclosed => exact absurd hpc (h.chunker hclosed)
  | sendChunk pipe size hsend hsize =>
    exact ⟨h.no_panic, h.closers, h.reader, fun _ => (sendChunk_frame hsend).2.2.2.2.2⟩
  | takeToken | seeClosed | timeout | sendCancel | cleanup =>
    exact ⟨h.no_panic, h.closers, h.reader, fun _ => by simp⟩

theorem CancelInv.sdkStep {ev : SdkEvent} (h : CancelInv s) (ht : SdkTrans s ev s') :
    CancelInv s' := by
  cases ht with
  | read len pipe hsdk hread =>
    refine ⟨h.no_panic, h.closers, h.reader, ?_⟩
    show s.cancelClosed = true → pipe.chunker ≠ .sendCancel
    rw [(read_frame hread).2.2.2.1]
    exact h.chunker
  | readErrReader => exact ⟨h.no_panic, h.closers, fun _ _ => by simp, h.chunker⟩
  | readErrChunker => exact ⟨h.no_panic, h.closers, h.reader, fun _ => by simp⟩
  | finish | finishErr | cleanup | deliver => exact ⟨h.no_panic, h.closers, h.reader, h.chunker⟩

/-- **One step**: a safe step does not panic, and leaves the channel safe. -/
theorem cancelInv_step {a : UploadAct} (h : CancelInv s) (hclosed : ClosedInv s)
    (hok : CancelSafe cfg s a) (hst : uploadStep md5Hex cfg s a = some s') : CancelInv s' := by
  cases (uploadStep_trans hst).2 with
  | new hmap => exact ⟨h.no_panic, h.closers, fun _ _ => by simp [Upload.started],
      fun _ => by simp [Upload.started]⟩
  | newFault hmap => exact ⟨h.no_panic, h.closers, h.reader, h.chunker⟩
  | begin request =>
    refine ⟨h.no_panic, ?_, h.reader, h.chunker⟩
    show (s.calls ++ [request.start]).countP Call.atClose + s.cancelClosed.toNat ≤ 1
    rw [countP_start (by intro r; cases r <;> rfl)]
    exact h.closers
  | put i ev partID content pc pc' t hcall ht => exact h.move ht.channel hcall rfl
  | complete i ev parts pc pc' t hcall ht => exact h.move ht.channel hcall rfl
  | abort i ev pc pc' t hcall ht => exact h.abort hclosed hok hcall ht
  | reader ev t ht => exact h.readerStep (hok.files ev rfl) ht
  | chunker ev t ht => exact h.chunkerStep (fun he => hok.lz4 (he ▸ rfl)) ht
  | sdk ev t ht => exact h.sdkStep ht

/-- **A run of safe steps never panics.** -/
theorem no_panic_of_cancelSafe
    (h : Reaches (uploadStep md5Hex cfg) (CancelSafe cfg) (Upload.absent cfg) s) :
    s.panicked = false := by
  have hinv : CancelInv s ∧ ClosedInv s := by
    refine h.invariant (I := fun s => CancelInv s ∧ ClosedInv s)
      ⟨cancelInv_absent cfg, closedInv_absent cfg⟩ ?_
    intro _ _ _ hi hok hst
    exact ⟨cancelInv_step hi.1 hi.2 hok hst, closedInv_step hi.2 hst⟩
  exact hinv.1.no_panic

/-! ### Unsafe steps -/

/-- The server can panic without a further call. -/
def CanPanic (md5Hex : List UInt8 → GoString) (cfg : PipeConfig W) (s : Upload W) : Prop :=
  ∃ s', Reaches (uploadStep md5Hex cfg) (fun _ a => ∀ r, a ≠ .begin r) s s' ∧ s'.panicked = true

theorem CanPanic.now (hpanic : s.panicked = true) : CanPanic md5Hex cfg s := ⟨s, .refl, hpanic⟩

theorem CanPanic.of_call {i : ℕ} {ev : CallEvent} (hpanic : s.panicked = false)
    (ht : UploadTrans md5Hex cfg s (.call i ev) s') (h : CanPanic md5Hex cfg s') :
    CanPanic md5Hex cfg s := by
  obtain ⟨s'', hreach, hp⟩ := h
  exact ⟨s'', (Reaches.single (fun _ => by simp) (ht.step hpanic)).trans hreach, hp⟩

/-- A pending send on the closed channel. -/
theorem canPanic_of_reader {opened : Option ℤ} (hpanic : s.panicked = false)
    (hclosed : s.cancelClosed = true) (hpc : s.reader = .sendCancel opened) :
    CanPanic md5Hex cfg s :=
  ⟨_, Reaches.single (fun _ => by simp)
    ((UploadTrans.reader _ _ (.sendCancelPanic opened hpc hclosed)).step hpanic), rfl⟩

theorem canPanic_of_chunker (hpanic : s.panicked = false) (hclosed : s.cancelClosed = true)
    (hpc : s.pipe.chunker = .sendCancel) : CanPanic md5Hex cfg s :=
  ⟨_, Reaches.single (fun _ => by simp)
    ((UploadTrans.chunker _ _ (.sendCancelPanic hpc hclosed)).step hpanic), rfl⟩

/-- A pending second close. -/
theorem canPanic_of_close {i : ℕ} (hpanic : s.panicked = false) (hclosed : s.cancelClosed = true)
    (hcall : s.calls[i]? = some (.abort .closeCancel)) : CanPanic md5Hex cfg s :=
  .of_call hpanic (.abort i .step _ _ _ hcall (.closePanic hclosed)) (.now rfl)

/-- What a step of an abort is. -/
theorem abort_of_trans {i : ℕ} {ev : CallEvent} {pc : AbortPc}
    (ht : UploadTrans md5Hex cfg s (.call i ev) s') (hcall : s.calls[i]? = some (.abort pc)) :
    ∃ t pc', AbortTrans s pc ev t pc' ∧ s' = { t with calls := s.calls.set i (.abort pc') } := by
  cases ht with
  | put _ _ _ _ _ _ _ hcall' => rw [hcall] at hcall'; cases hcall'
  | complete _ _ _ _ _ _ hcall' => rw [hcall] at hcall'; cases hcall'
  | abort _ _ pc₁ pc' t hcall' ht =>
    rw [hcall] at hcall'
    cases hcall'
    exact ⟨t, pc', ht, rfl⟩

theorem atClose_iff {c : Call} : c.atClose = true ↔ c = .abort .closeCancel := by
  unfold Call.atClose
  split <;> simp_all

/-- Two aborts that have found the upload. -/
theorem canPanic_of_twice {i : ℕ} {c : Call} (hpanic : s.panicked = false) (hinv : ClosedInv s)
    (hcall : s.calls[i]? = some (.abort .lookup)) (hc : c ∈ s.calls)
    (hfound : c.atClose = true ∨ c.hasClosed = true) :
    CanPanic md5Hex cfg { s with calls := s.calls.set i (.abort .closeCancel) } := by
  have hi : i < s.calls.length := (List.getElem?_eq_some_iff.mp hcall).1
  have hat : (s.calls.set i (.abort .closeCancel))[i]? = some (.abort .closeCancel) := by simp [hi]
  cases hclosed : s.cancelClosed with
  | true => exact canPanic_of_close hpanic rfl hat
  | false =>
    -- the other abort is not past its close yet; it closes first
    have hnot : c.hasClosed ≠ true := fun hh =>
      absurd (hinv.mpr (List.countP_pos_iff.mpr ⟨c, hc, hh⟩)) (by simp [hclosed])
    obtain rfl := atClose_iff.mp (hfound.resolve_right hnot)
    obtain ⟨j, hj⟩ := List.mem_iff_getElem?.mp hc
    have hne : i ≠ j := by
      rintro rfl
      rw [hcall] at hj
      cases hj
    have hj' : (s.calls.set i (.abort .closeCancel))[j]? = some (.abort .closeCancel) := by
      rwa [List.getElem?_set_ne hne]
    refine .of_call hpanic (.abort j .step _ _ _ hj' (.close rfl))
      (canPanic_of_close (i := i) hpanic rfl ?_)
    show ((s.calls.set i _).set j _)[i]? = _
    rwa [List.getElem?_set_ne hne.symm]

/-- **After an unsafe step the server can panic**, without a further call. -/
theorem canPanic_of_not_cancelSafe {a : UploadAct} (hinv : ClosedInv s)
    (hst : uploadStep md5Hex cfg s a = some s') (hnot : ¬ CancelSafe cfg s a) :
    CanPanic md5Hex cfg s' := by
  obtain ⟨hpanic, ht⟩ := uploadStep_trans hst
  by_contra hno
  refine hnot ⟨?_, ?_, ?_, ?_⟩
  · rintro i ev rfl hcall hmap c hc
    by_contra hfound
    apply hno
    obtain ⟨t, pc', habort, rfl⟩ := abort_of_trans ht hcall
    cases habort with
    | lookup => exact canPanic_of_twice hpanic hinv hcall hc (by grind)
    | lookupNone hmap' => exact absurd (hmap.symm.trans hmap') (by simp)
  · rintro i ev rfl hcall
    obtain ⟨t, pc', habort, rfl⟩ := abort_of_trans ht hcall
    cases habort with
    | close hopen =>
      exact ⟨fun opened hr => hno (canPanic_of_reader hpanic rfl hr),
        fun hc => hno (canPanic_of_chunker hpanic rfl hc)⟩
    | closePanic hclosed => exact absurd (.now rfl) hno
  · rintro ev rfl hclosed hfail
    apply hno
    cases ev with
    | step =>
      obtain ⟨p, hpc, hfile⟩ := hfail
      have hmissing : uploadStep md5Hex cfg s _ = _ :=
        (UploadTrans.reader _ _ (.openMissing p hpc hfile)).step hpanic
      obtain rfl := Option.some.inj (hst.symm.trans hmissing)
      exact canPanic_of_reader hpanic hclosed rfl
    | fault =>
      cases ht with
      | reader _ _ hr => cases hr <;> exact canPanic_of_reader hpanic hclosed rfl
  · rintro rfl hclosed hfail
    apply hno
    cases ht with
    | chunker _ _ hch =>
      cases hch with
      | receive pipe hrecv =>
        exact canPanic_of_chunker hpanic hclosed ((receive_sendCancel_iff hrecv).mpr hfail)

/-! ### The result -/

/-- **The cancel channel is safe exactly under `CancelSafe`.**  No run of safe steps closes a closed
channel or sends on one; and after any other step of any run the server can panic without a further
call. -/
theorem cancel_channel_safe (md5Hex : List UInt8 → GoString) (cfg : PipeConfig W) :
    (∀ s, Reaches (uploadStep md5Hex cfg) (CancelSafe cfg) (Upload.absent cfg) s →
      s.panicked = false) ∧
    (∀ s a s', Reaches (uploadStep md5Hex cfg) (fun _ _ => True) (Upload.absent cfg) s →
      uploadStep md5Hex cfg s a = some s' → ¬ CancelSafe cfg s a → CanPanic md5Hex cfg s') :=
  ⟨fun _ h => no_panic_of_cancelSafe h, fun _ _ _ h hst hnot =>
    canPanic_of_not_cancelSafe
      (h.invariant (closedInv_absent cfg) fun _ _ _ hi _ hst => closedInv_step hi hst) hst hnot⟩

/-- A safe run: an upload without parts is aborted while its reader waits for one. -/
theorem cancel_channel_safe_abort :
    ∃ s, Reaches (uploadStep (fun _ => []) plainConfig) (CancelSafe plainConfig)
      (Upload.absent plainConfig) s ∧ s.reader = .popup ∧ s.cancelClosed = true ∧
      s.panicked = false := by
  have hrun : ∃ s, runActs (uploadStep (fun _ => []) plainConfig) (Upload.absent plainConfig)
      [.new true, .reader .step, .begin .abort, .call 0 .step, .call 0 .step, .call 0 .step] =
        some s ∧ s.reader = .popup ∧ s.cancelClosed = true := ⟨_, rfl, rfl, rfl⟩
  obtain ⟨s, hacts, hreader, hclosed⟩ := hrun
  have hreach : Reaches (uploadStep (fun _ => []) plainConfig) (CancelSafe plainConfig)
      (Upload.absent plainConfig) s := by
    refine reaches_of_runOk _ hacts ?_
    simp [RunOk, cancelSafe_iff, uploadStep, Upload.absent, Upload.started, callStep, abortStep,
      readerStep, Request.start, Pipe.new, PartDir.none, Call.atClose, Call.hasClosed]
  exact ⟨s, hreach, hreader, hclosed, (cancel_channel_safe (fun _ => []) plainConfig).1 s hreach⟩

/-- **Two aborts of one upload panic the server**: the second closes the closed channel. -/
theorem cancel_channel_double_close :
    ∃ s, Reaches (uploadStep (fun _ => []) plainConfig) (fun _ _ => True)
      (Upload.absent plainConfig) s ∧ s.panicked = true := by
  have hrun : ∃ s, runActs (uploadStep (fun _ => []) plainConfig) (Upload.absent plainConfig)
      [.new true, .begin .abort, .call 0 .step, .call 0 .step, .call 0 .step, .begin .abort,
        .call 1 .step, .call 1 .step] = some s ∧ s.panicked = true := ⟨_, rfl, rfl⟩
  obtain ⟨s, hacts, hp⟩ := hrun
  exact ⟨s, reaches_of_runActs _ hacts, hp⟩

end Zs3Server.Gateway.Multipart
