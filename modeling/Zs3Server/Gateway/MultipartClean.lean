import Zs3Server.Gateway.MultipartContent

/-!
# Uploads in which nothing fails

A clean run of an upload: the parts `1, …, n` arrive in some order, each once; the complete follows;
no file operation fails, nobody aborts, the chunking goroutine does not time out, and the SDK reads
its stream up to `io.EOF` with large enough buffers.

* `CleanStep` — the condition on the steps;
* `CleanInv`, `CleanInv.step`, `reaches_cleanInv` — in a clean run the two goroutines stay in their
  loops or have ended in the regular way, every call is on its way to success, and the file of each
  part that has not been fetched is there;
* `CleanInv.ordered`, `CleanInv.file` — so the part reader fetches part after part.
-/

namespace Zs3Server.Gateway.Multipart

open Lib.ByteString Lib.StepSystem Lib.Slots
open Gateway.ChunkPipe

variable {W : Type} {md5Hex : List UInt8 → GoString} {cfg : PipeConfig W} {ready : PutPc → Bool} {n : ℕ}
  {content : ℤ → List UInt8} {list : List CompletePart} {s s' : Upload W}

/-! ### Clean runs -/

/-- The SDK has read `io.EOF`. -/
def Upload.AtEof (s : Upload W) : Prop := ∃ r ∈ s.pipe.reads, r.err = some .eof

/-- Every call so far is a put, and has come to a position that is `ready`. -/
def Upload.Ready (ready : PutPc → Bool) (s : Upload W) : Prop :=
  ∀ call ∈ s.calls, ∃ p c pc, call = Call.put p c pc ∧ ready pc = true

/-- **A step of a clean run**, with the parts `1, …, n` of the given contents and a complete with
`list`; `ready` says how far the puts are when the complete arrives.  The chunker's time of 120 minutes
does not run out. -/
def CleanStep (cfg : PipeConfig W) (ready : PutPc → Bool) (n : ℕ) (content : ℤ → List UInt8)
    (list : List CompletePart) (s : Upload W) : UploadAct → Prop
  | .begin (.put p c) =>
    ¬ s.Completing ∧ p ∈ firstParts n ∧ c = content p ∧ p ∉ s.parts.map Prod.fst
  | .begin (.complete parts) =>
    parts = list ∧ s.Ready ready ∧ ∀ p ∈ firstParts n, p ∈ s.parts.map Prod.fst
  | .begin .abort => False
  | .call _ ev => ev ≠ .fault
  | .reader ev => ev ≠ .fault
  | .chunker ev => ev ≠ .timeout
  | .sdk (.read len) => cfg.chunkWriteSize ≤ len ∧ ¬ s.AtEof
  | .sdk (.finish _) => False
  | _ => True

theorem CleanStep.orderly {a : UploadAct} (hready : ∀ pc, ready pc = true → pc.pushed = true)
    (h : CleanStep cfg ready n content list s a) : Orderly s a := by
  cases a with
  | begin request =>
    cases request with
    | put p c => exact h.1
    | complete parts =>
      intro call hmem
      obtain ⟨p, c, pc, rfl, hpc⟩ := h.2.1 call hmem
      simp [Call.pushedPart, hready pc hpc]
    | abort => exact h
  | _ => trivial

/-- The part reader is in its loop or has ended. -/
def ReaderPc.healthy : ReaderPc → Bool
  | .idle | .sendCancel _ | .sendErr | .cleanup => false
  | _ => true

/-- A put that has not failed. -/
def PutPc.healthy : PutPc → Bool
  | .returned (.error _) => false
  | _ => true

/-! ### The goroutines and the SDK -/

/-- The goroutines are well, the SDK reads, and there is no sign of a failure. -/
structure PartyInv (s : Upload W) : Prop where
  sdk : s.sdk = .running
  errorC : s.errorC = []
  token : s.cancelToken = false
  present : s.dir.present = true
  no_panic : s.panicked = false
  clean : s.pipe.ReadsClean
  reader : s.reader.healthy = true ∧ (s.reader = .done → s.pipe.dataClosed = true)
  chunker : s.pipe.chunker.healthy = true ∧ (s.pipe.chunker = .done → s.pipe.memClosed = true)

/-- The calls are on their way to success. -/
structure ClientInv (n : ℕ) (content : ℤ → List UInt8) (list : List CompletePart) (s : Upload W) :
    Prop where
  parts : ∀ p c, (p, c) ∈ s.parts → p ∈ firstParts n ∧ c = content p
  distinct : s.DistinctParts
  all : s.Completing → ∀ p ∈ firstParts n, p ∈ s.parts.map Prod.fst
  puts : ∀ p c pc, Call.put p c pc ∈ s.calls → pc.healthy = true
  completes : ∀ parts pc, Call.complete parts pc ∈ s.calls → parts = list ∧
    (pc = .lookup ∨ pc = .setDone ∨ pc = .waitError ∧ s.seqPQ.done = true)

/-- The file of a part is there until the part is fetched. -/
structure StoreInv (s : Upload W) : Prop where
  files : ∀ (i : ℕ) (p : ℤ) (c : List UInt8) (pc : PutPc), s.calls[i]? = some (.put p c pc) →
    pc ≠ .create → p ∉ s.fetched.map Prod.fst → s.dir.files p ≠ none
  sent : ∀ p, (∃ d, s.reader = .sendData p d) ∨ s.reader = .remove p → p ∈ s.fetched.map Prod.fst

/-- **The invariant of a clean run.** -/
structure CleanInv (cfg : PipeConfig W) (n : ℕ) (content : ℤ → List UInt8)
    (list : List CompletePart) (s : Upload W) : Prop where
  flow : FlowInv cfg s
  party : PartyInv s
  client : ClientInv n content list s
  store : StoreInv s

theorem cleanInv_fresh (cfg : PipeConfig W) (n : ℕ) (content : ℤ → List UInt8)
    (list : List CompletePart) : CleanInv cfg n content list (Upload.fresh cfg) := by
  refine ⟨flowInv_fresh cfg, ⟨rfl, rfl, rfl, rfl, rfl, ?_, ?_, ?_⟩, ⟨?_, ?_, ?_, ?_, ?_⟩, ⟨?_, ?_⟩⟩
  · simp [Pipe.ReadsClean, Upload.fresh, Upload.started, Upload.absent, Pipe.new]
  · exact ⟨rfl, by simp [Upload.fresh, Upload.started]⟩
  · exact ⟨rfl, by simp [Upload.fresh, Upload.started]⟩
  · simp [Upload.parts, Upload.fresh, Upload.started, Upload.absent]
  · simp [Upload.DistinctParts, Upload.parts, Upload.fresh, Upload.started, Upload.absent]
  · simp [Upload.Completing, Upload.fresh, Upload.started, Upload.absent]
  · simp [Upload.fresh, Upload.started, Upload.absent]
  · simp [Upload.fresh, Upload.started, Upload.absent]
  · simp [Upload.fresh, Upload.started, Upload.absent]
  · simp [Upload.fresh, Upload.started, Upload.absent]

/-- The part reader has fetched, in order, what the queue has returned. -/
theorem CleanInv.ordered (h : CleanInv cfg n content list s) : ∃ m, QueueOrder m s ∧ Ordered m s := by
  obtain ⟨m, hm⟩ := h.flow.order
  refine ⟨m, hm, ?_⟩
  rcases hm.order with ho | hc | hs
  · exact ho
  · obtain ⟨hh, hd⟩ := h.party.chunker
    cases hc with
    | sendErr text hc => rw [hc] at hh; exact absurd hh (by simp [ChunkerPc.healthy])
    | cleanup hc => rw [hc] at hh; exact absurd hh (by simp [ChunkerPc.healthy])
    | done hc hopen => exact absurd (hopen.symm.trans (hd hc)) (by simp)
  · obtain ⟨hh, hd⟩ := h.party.reader
    have htoken := h.party.token
    cases hs with
    | sendCancel opened hc => rw [hc] at hh; exact absurd hh (by simp [ReaderPc.healthy])
    | select ht hc => exact absurd (htoken.symm.trans ht) (by simp)
    | remove p ht hc => exact absurd (htoken.symm.trans ht) (by simp)
    | sendErr hc => rw [hc] at hh; exact absurd hh (by simp [ReaderPc.healthy])
    | cleanup hc => rw [hc] at hh; exact absurd hh (by simp [ReaderPc.healthy])
    | done hc hopen => exact absurd (hopen.symm.trans (hd hc)) (by simp)

/-- The file of the part the reader is about to open is there. -/
theorem CleanInv.file {p : ℤ} (h : CleanInv cfg n content list s) (hpc : s.reader = .openFile p) :
    s.dir.files p ≠ none := by
  obtain ⟨c, i, pc, hi, hpushed⟩ := (h.flow.content h.client.distinct).popped p hpc
  refine h.store.files i p c pc hi ?_ ?_
  · rintro rfl
    exact absurd hpushed (by simp [PutPc.pushed])
  · obtain ⟨m, -, ho⟩ := h.ordered
    have hnd := firstParts_nodup m
    rw [← ho, hpc, ReaderPc.unfetched, List.nodup_append] at hnd
    intro hmem
    exact hnd.2.2 p hmem p (List.mem_singleton_self p) rfl

theorem PutTrans.present {p : ℤ} {c : List UInt8} {pc pc' : PutPc} {ev : CallEvent}
    (ht : PutTrans md5Hex s p c pc ev s' pc') :
    s'.dir.present = s.dir.present ∧ s'.panicked = s.panicked := by
  cases ht with
  | copy written k hlt hk =>
    refine ⟨?_, rfl⟩
    simp only [PartDir.write]
    split <;> rfl
  | create | createMissing | createFault | lookup | lookupNone | copyEnd | copyFault | push
  | saveETag | saveETagMissing | saveETagFault | updateSize => exact ⟨rfl, rfl⟩

/-- Before its result is there, a complete only looks up the upload and calls `Done`. -/
theorem CompleteTrans.clean {pc pc' : CompletePc} {ev : CallEvent}
    (ht : CompleteTrans s pc ev s' pc') (hmap : s.inFileMap = true) (herr : s.errorC = [])
    (hpc : pc = .lookup ∨ pc = .setDone ∨ pc = .waitError ∧ s.seqPQ.done = true) :
    (pc = .lookup ∧ pc' = .setDone ∧ s' = s) ∨
      (pc = .setDone ∧ pc' = .waitError ∧ s' = { s with seqPQ := s.seqPQ.setDone }) := by
  cases ht with
  | lookup => exact Or.inl ⟨rfl, rfl, rfl⟩
  | setDone => exact Or.inr ⟨rfl, rfl, rfl⟩
  | lookupNone hnone => exact absurd (hmap.symm.trans hnone) (by simp)
  | success res rest hres hc => exact absurd (herr.symm.trans hc) (by simp)
  | failure err rest hres hc => exact absurd (herr.symm.trans hc) (by simp)
  | construct | constructFault | cleanup | cleanupFault => simp at hpc

theorem CleanInv.party_reader {ev : ReaderEvent} (h : CleanInv cfg n content list s)
    (hok : ev ≠ .fault) (ht : ReaderTrans s ev s') : PartyInv s' := by
  obtain ⟨hsdk, herr, htok, hpres, hpanic, hclean, ⟨hread, hdone⟩, hchunk⟩ := h.party
  cases ht with
  | takeToken hpc htoken => exact absurd (htok.symm.trans htoken) (by simp)
  | seeClosed hpc htoken hclosed =>
    exact absurd (h.flow.calls.open_cancel.symm.trans hclosed) (by simp)
  | openMissing p hpc hfile => exact absurd hfile (h.file hpc)
  | openFault | fetchFault => exact absurd rfl hok
  | sendCancel opened hpc => rw [hpc] at hread; exact absurd hread (by simp [ReaderPc.healthy])
  | sendCancelPanic opened hpc => rw [hpc] at hread; exact absurd hread (by simp [ReaderPc.healthy])
  | cleanup hpc => rw [hpc] at hread; exact absurd hread (by simp [ReaderPc.healthy])
  | closeData hpc => exact ⟨hsdk, herr, htok, hpres, hpanic, hclean, ⟨rfl, fun _ => rfl⟩, hchunk⟩
  | goPopup | popupEnd | popupPart | openFile | fetch | sendData | remove =>
    exact ⟨hsdk, herr, htok, hpres, hpanic, hclean, ⟨rfl, by simp⟩, hchunk⟩

theorem CleanInv.party_chunker {ev : ChunkerEvent} (h : CleanInv cfg n content list s)
    (hw : cfg.Works) (hok : ev ≠ .timeout) (ht : ChunkerTrans cfg s ev s') : PartyInv s' := by
  obtain ⟨hsdk, herr, htok, hpres, hpanic, hclean, hread, hchunk, hdone⟩ := h.party
  cases ht with
  | takeToken hpc htoken => exact absurd (htok.symm.trans htoken) (by simp)
  | seeClosed hpc htoken hclosed =>
    exact absurd (h.flow.calls.open_cancel.symm.trans hclosed) (by simp)
  | timeout => exact absurd rfl hok
  | sendCancel hpc => rw [hpc] at hchunk; exact absurd hchunk (by simp [ChunkerPc.healthy])
  | sendCancelPanic hpc => rw [hpc] at hchunk; exact absurd hchunk (by simp [ChunkerPc.healthy])
  | cleanup hpc => rw [hpc] at hchunk; exact absurd hchunk (by simp [ChunkerPc.healthy])
  | receive pipe hrecv =>
    obtain ⟨-, hdc, -, -, hreads, -⟩ := receive_frame hrecv
    have hfacts := (h.flow.pipe hclean).receive hw hrecv
    obtain ⟨hh, hnd⟩ := receive_healthy hrecv hfacts.not_sendCancel
    refine ⟨hsdk, herr, htok, hpres, hpanic, ?_, ?_, hh, fun hd => absurd hd hnd⟩
    · rw [Pipe.ReadsClean, hreads]
      exact hclean
    · rw [hdc]
      exact hread
  | sendChunk pipe size hsend hsize =>
    obtain ⟨-, -, hdc, hreads, -, -⟩ := sendChunk_frame hsend
    refine ⟨hsdk, herr, htok, hpres, hpanic, ?_, ?_, sendChunk_healthy hsend⟩
    · rw [Pipe.ReadsClean, hreads]
      exact hclean
    · rw [hdc]
      exact hread

theorem CleanInv.party_sdk {ev : SdkEvent} (h : CleanInv cfg n content list s)
    (hok : CleanStep cfg ready n content list s (.sdk ev)) (ht : SdkTrans s ev s') : PartyInv s' := by
  obtain ⟨hsdk, herr, htok, hpres, hpanic, hclean, hread, hchunk⟩ := h.party
  cases ht with
  | read len pipe hrun hst =>
    obtain ⟨-, -, hdc, hpc, hmem, -⟩ := read_frame hst
    have hclean' := (h.flow.pipe hclean).readsClean hst hok.1 hclean
    refine ⟨hsdk, herr, htok, hpres, hpanic, hclean', ?_, ?_⟩
    · rw [hdc]
      exact hread
    · rw [hpc, hmem]
      exact hchunk
  | readErrReader hrun hpc =>
    rw [hpc] at hread
    exact absurd hread.1 (by simp [ReaderPc.healthy])
  | readErrChunker text hrun hpc =>
    rw [hpc] at hchunk
    exact absurd hchunk.1 (by simp [ChunkerPc.healthy])
  | finish | finishErr => exact hok.elim
  | cleanup err hsdk' => exact absurd (hsdk.symm.trans hsdk') (by simp)
  | deliver res hsdk' => exact absurd (hsdk.symm.trans hsdk') (by simp)

theorem CleanInv.party_step {a : UploadAct} (h : CleanInv cfg n content list s) (hw : cfg.Works)
    (hok : CleanStep cfg ready n content list s a) (ht : UploadTrans md5Hex cfg s a s') :
    PartyInv s' := by
  have hmap := h.flow.calls.in_map
  cases ht with
  | new hnew => exact absurd (hnew.symm.trans hmap) (by simp)
  | newFault hnew => exact absurd (hnew.symm.trans hmap) (by simp)
  | begin request =>
    obtain ⟨hsdk, herr, htok, hpres, hpanic, hclean, hread, hchunk⟩ := h.party
    exact ⟨hsdk, herr, htok, hpres, hpanic, hclean, hread, hchunk⟩
  | put i ev p c pc pc' t hcall ht =>
    obtain ⟨hsdk, herr, htok, hpres, hpanic, hclean, hread, hchunk⟩ := h.party
    obtain ⟨-, htok', -, herr', hreader, -, hpipe, hsdk'⟩ := ht.frame
    obtain ⟨hpres', hpanic'⟩ := ht.present
    refine ⟨hsdk'.trans hsdk, herr'.trans herr, htok'.trans htok, hpres'.trans hpres,
      hpanic'.trans hpanic, ?_, ?_, ?_⟩
    · show t.pipe.ReadsClean
      rw [hpipe]
      exact hclean
    · show t.reader.healthy = true ∧ (t.reader = .done → t.pipe.dataClosed = true)
      rw [hreader, hpipe]
      exact hread
    · show t.pipe.chunker.healthy = true ∧ (t.pipe.chunker = .done → t.pipe.memClosed = true)
      rw [hpipe]
      exact hchunk
  | complete i ev parts pc pc' t hcall ht =>
    obtain ⟨hsdk, herr, htok, hpres, hpanic, hclean, hread, hchunk⟩ := h.party
    obtain ⟨-, hpc⟩ := h.client.completes parts pc (List.mem_of_getElem? hcall)
    rcases ht.clean hmap herr hpc with ⟨-, -, rfl⟩ | ⟨-, -, rfl⟩
    · exact ⟨hsdk, herr, htok, hpres, hpanic, hclean, hread, hchunk⟩
    · exact ⟨hsdk, herr, htok, hpres, hpanic, hclean, hread, hchunk⟩
  | abort i ev pc pc' t hcall ht =>
    exact absurd (List.mem_of_getElem? hcall) (h.flow.calls.no_abort pc)
  | reader ev t ht => exact h.party_reader hok ht
  | chunker ev t ht => exact h.party_chunker hw hok ht
  | sdk ev t ht => exact h.party_sdk hok ht

/-! ### The calls -/

/-- Without a failure a put goes on. -/
theorem PutTrans.healthy {p : ℤ} {c : List UInt8} {pc pc' : PutPc} {ev : CallEvent}
    (ht : PutTrans md5Hex s p c pc ev s' pc') (hok : ev ≠ .fault) (hmap : s.inFileMap = true)
    (hpres : s.dir.present = true) : pc'.healthy = true := by
  cases ht with
  | createMissing hdir => exact absurd (hpres.symm.trans hdir) (by simp)
  | saveETagMissing hdir => exact absurd (hpres.symm.trans hdir) (by simp)
  | lookupNone hnone => exact absurd (hmap.symm.trans hnone) (by simp)
  | createFault | copyFault | saveETagFault => exact absurd rfl hok
  | create | lookup | copy | copyEnd | push | saveETag | updateSize => rfl

theorem ClientInv.begin {request : Request} (h : ClientInv n content list s)
    (hok : CleanStep cfg ready n content list s (.begin request)) :
    ClientInv n content list { s with calls := s.calls ++ [request.start] } := by
  cases request with
  | abort => exact hok.elim
  | put p c =>
    obtain ⟨hnot, hp, hc, hnew⟩ := hok
    have hparts : Upload.parts { s with calls := s.calls ++ [Call.put p c .create] } =
        s.parts ++ [(p, c)] := by simp [Upload.parts, Call.part]
    refine ⟨?_, ?_, ?_, ?_, ?_⟩
    · intro q d hmem
      rw [Request.start, hparts] at hmem
      rcases List.mem_append.mp hmem with hmem | hmem
      · exact h.parts q d hmem
      · obtain ⟨rfl, rfl⟩ := Prod.mk.inj (List.mem_singleton.mp hmem)
        exact ⟨hp, hc⟩
    · rw [Upload.DistinctParts, Request.start, hparts, List.map_append, List.nodup_append]
      refine ⟨h.distinct, List.nodup_singleton _, ?_⟩
      rintro q hq r hr rfl
      obtain rfl := List.mem_singleton.mp hr
      exact hnew hq
    · rintro ⟨parts, pc, hmem⟩
      rcases List.mem_append.mp hmem with hmem | hmem
      · exact absurd ⟨parts, pc, hmem⟩ hnot
      · exact absurd (List.mem_singleton.mp hmem) (by simp [Request.start])
    · intro q d pc hmem
      rcases List.mem_append.mp hmem with hmem | hmem
      · exact h.puts q d pc hmem
      · obtain ⟨-, -, rfl⟩ := Call.put.inj (List.mem_singleton.mp hmem)
        rfl
    · intro parts pc hmem
      rcases List.mem_append.mp hmem with hmem | hmem
      · exact h.completes parts pc hmem
      · exact absurd (List.mem_singleton.mp hmem) (by simp [Request.start])
  | complete L =>
    obtain ⟨rfl, -, hall⟩ := hok
    have hparts : Upload.parts { s with calls := s.calls ++ [Call.complete L .lookup] } = s.parts := by
      simp [Upload.parts, Call.part]
    refine ⟨?_, ?_, ?_, ?_, ?_⟩
    · rw [Request.start, hparts]
      exact h.parts
    · rw [Upload.DistinctParts, Request.start, hparts]
      exact h.distinct
    · intro _
      rw [Request.start, hparts]
      exact hall
    · intro q d pc hmem
      rcases List.mem_append.mp hmem with hmem | hmem
      · exact h.puts q d pc hmem
      · exact absurd (List.mem_singleton.mp hmem) (by simp [Request.start])
    · intro parts pc hmem
      rcases List.mem_append.mp hmem with hmem | hmem
      · exact h.completes parts pc hmem
      · obtain ⟨rfl, rfl⟩ := Call.complete.inj (List.mem_singleton.mp hmem)
        exact ⟨rfl, Or.inl rfl⟩

/-- A step that updates call `i` and keeps its part. -/
theorem ClientInv.set {i : ℕ} {call call' : Call} (h : ClientInv n content list s)
    (hcall : s.calls[i]? = some call) (hcalls : s'.calls = s.calls.set i call')
    (hpart : call'.part = call.part)
    (hkind : ∀ parts pc, call' = .complete parts pc → s.Completing)
    (hput : ∀ p c pc, call' = .put p c pc → pc.healthy = true)
    (hcomplete : ∀ parts pc, call' = .complete parts pc → parts = list ∧
      (pc = .lookup ∨ pc = .setDone ∨ pc = .waitError ∧ s'.seqPQ.done = true))
    (hdone : s.seqPQ.done = true → s'.seqPQ.done = true) : ClientInv n content list s' := by
  have hparts : s'.parts = s.parts := by
    rw [Upload.parts, hcalls]
    exact filterMap_set_of_eq hcall hpart
  refine ⟨?_, ?_, ?_, ?_, ?_⟩
  · rw [hparts]
    exact h.parts
  · rw [Upload.DistinctParts, hparts]
    exact h.distinct
  · rintro ⟨parts, pc, hmem⟩
    rw [hparts]
    rw [hcalls] at hmem
    rcases List.mem_or_eq_of_mem_set hmem with hmem | heq
    · exact h.all ⟨parts, pc, hmem⟩
    · exact h.all (hkind parts pc heq.symm)
  · intro p c pc hmem
    rw [hcalls] at hmem
    rcases List.mem_or_eq_of_mem_set hmem with hmem | heq
    · exact h.puts p c pc hmem
    · exact hput p c pc heq.symm
  · intro parts pc hmem
    rw [hcalls] at hmem
    rcases List.mem_or_eq_of_mem_set hmem with hmem | heq
    · obtain ⟨hl, hpc⟩ := h.completes parts pc hmem
      exact ⟨hl, hpc.imp id (Or.imp id (And.imp id hdone))⟩
    · exact hcomplete parts pc heq.symm

theorem ClientInv.congr (h : ClientInv n content list s) (hf : CallsFrame s s') :
    ClientInv n content list s' := by
  refine ⟨?_, ?_, ?_, ?_, ?_⟩
  · rw [Upload.parts, hf.calls]
    exact h.parts
  · rw [Upload.DistinctParts, Upload.parts, hf.calls]
    exact h.distinct
  · rw [Upload.Completing, Upload.parts, hf.calls]
    exact h.all
  · rw [hf.calls]
    exact h.puts
  · rw [hf.calls, hf.done]
    exact h.completes

theorem CleanInv.client_step {a : UploadAct} (h : CleanInv cfg n content list s)
    (hok : CleanStep cfg ready n content list s a) (ht : UploadTrans md5Hex cfg s a s') :
    ClientInv n content list s' := by
  have hmap := h.flow.calls.in_map
  cases ht with
  | new hnew => exact absurd (hnew.symm.trans hmap) (by simp)
  | newFault hnew => exact absurd (hnew.symm.trans hmap) (by simp)
  | begin request => exact h.client.begin hok
  | put i ev p c pc pc' t hcall ht =>
    refine h.client.set hcall rfl rfl (by simp) ?_ (by simp) ?_
    · rintro _ _ _ heq
      obtain ⟨-, -, rfl⟩ := Call.put.inj heq
      exact ht.healthy hok hmap h.party.present
    · intro hd
      rcases ht.pushed with ⟨-, -, hpq⟩ | ⟨-, hpq⟩ <;> rw [hpq] <;> exact hd
  | complete i ev parts pc pc' t hcall ht =>
    have hmem := List.mem_of_getElem? hcall
    obtain ⟨hl, hpc⟩ := h.client.completes parts pc hmem
    refine h.client.set hcall rfl rfl (fun _ _ _ => ⟨parts, pc, hmem⟩) (by simp) ?_ ?_
    · rintro _ _ heq
      obtain ⟨rfl, rfl⟩ := Call.complete.inj heq
      rcases ht.clean hmap h.party.errorC hpc with ⟨-, rfl, rfl⟩ | ⟨-, rfl, rfl⟩
      · exact ⟨hl, Or.inr (Or.inl rfl)⟩
      · exact ⟨hl, Or.inr (Or.inr ⟨rfl, rfl⟩)⟩
    · intro hd
      obtain ⟨-, -, -, -, -, -, -, hpq⟩ := ht.frame
      rcases hpq with hpq | hpq <;> rw [hpq]
      · exact hd
      · rfl
  | abort i ev pc pc' t hcall ht =>
    exact absurd (List.mem_of_getElem? hcall) (h.flow.calls.no_abort pc)
  | reader ev t ht => exact h.client.congr ht.callsFrame
  | chunker ev t ht => exact h.client.congr ht.callsFrame
  | sdk ev t ht => exact h.client.congr ht.callsFrame

/-! ### The part files -/

/-- A put creates its file and keeps it. -/
theorem PutTrans.file_ne_none {p : ℤ} {c : List UInt8} {pc pc' : PutPc} {ev : CallEvent}
    (ht : PutTrans md5Hex s p c pc ev s' pc') (hpc' : pc'.healthy = true)
    (h : pc ≠ .create → s.dir.files p ≠ none) : s'.dir.files p ≠ none := by
  cases ht with
  | create hdir =>
    show Function.update s.dir.files p (some []) p ≠ none
    rw [Function.update_self]
    simp
  | copy written k hlt hk =>
    simp only [PartDir.write]
    split
    · show Function.update s.dir.files p _ p ≠ none
      rw [Function.update_self]
      simp
    · exact h (by simp)
  | createMissing | createFault => exact absurd hpc' (by simp [PutPc.healthy])
  | lookup | lookupNone | copyEnd | copyFault | push | saveETag | saveETagMissing | saveETagFault
  | updateSize => exact h (by simp)

/-- A step that keeps the files, the calls and the part reader. -/
theorem StoreInv.congr (h : StoreInv s) (hcalls : s'.calls = s.calls) (hdir : s'.dir = s.dir)
    (hfetched : s'.fetched = s.fetched) (hreader : s'.reader = s.reader) : StoreInv s' := by
  refine ⟨?_, ?_⟩
  · rw [hcalls, hdir, hfetched]
    exact h.files
  · rw [hreader, hfetched]
    exact h.sent

theorem CleanInv.store_reader {ev : ReaderEvent} (h : CleanInv cfg n content list s)
    (hok : ev ≠ .fault) (ht : ReaderTrans s ev s') : StoreInv s' := by
  obtain ⟨hfiles, hsent⟩ := h.store
  have hread := h.party.reader.1
  cases ht with
  | openFault | fetchFault => exact absurd rfl hok
  | sendCancel opened hpc => rw [hpc] at hread; exact absurd hread (by simp [ReaderPc.healthy])
  | cleanup hpc => rw [hpc] at hread; exact absurd hread (by simp [ReaderPc.healthy])
  | fetch p opened hpc =>
    refine ⟨?_, ?_⟩
    · intro i q c pc hi hne hq
      refine hfiles i q c pc hi hne fun hmem => hq ?_
      rw [List.map_append]
      exact List.mem_append_left _ hmem
    · rintro q (⟨d, hq⟩ | hq)
      · obtain ⟨rfl, -⟩ := ReaderPc.sendData.inj hq
        simp
      · exact absurd hq (by simp)
  | sendData p data hpc hroom =>
    refine ⟨hfiles, ?_⟩
    rintro q (⟨d, hq⟩ | hq)
    · exact absurd hq (by simp)
    · obtain rfl := ReaderPc.remove.inj hq
      exact hsent p (Or.inl ⟨data, hpc⟩)
  | remove p hpc =>
    refine ⟨?_, by simp⟩
    intro i q c pc hi hne hq
    have hqp : q ≠ p := by
      rintro rfl
      exact hq (hsent q (Or.inr hpc))
    show Function.update s.dir.files p none q ≠ none
    rw [Function.update_of_ne hqp]
    exact hfiles i q c pc hi hne hq
  | sendCancelPanic => exact ⟨hfiles, hsent⟩
  | takeToken | seeClosed | goPopup | popupEnd | popupPart | closeData | openFile | openMissing =>
    exact ⟨hfiles, by simp⟩

theorem CleanInv.store_step {a : UploadAct} (h : CleanInv cfg n content list s)
    (hok : CleanStep cfg ready n content list s a) (ht : UploadTrans md5Hex cfg s a s') :
    StoreInv s' := by
  have hmap := h.flow.calls.in_map
  cases ht with
  | new hnew => exact absurd (hnew.symm.trans hmap) (by simp)
  | newFault hnew => exact absurd (hnew.symm.trans hmap) (by simp)
  | begin request =>
    refine ⟨?_, h.store.sent⟩
    intro i p c pc hi hne
    rw [List.getElem?_append] at hi
    split at hi
    · exact h.store.files i p c pc hi hne
    · have hmem := List.mem_singleton.mp (List.mem_of_getElem? hi)
      cases request <;> simp only [Request.start, reduceCtorEq, Call.put.injEq] at hmem
      exact absurd hmem.2.2 hne
  | put i ev p c pc pc' t hcall ht =>
    obtain ⟨-, -, -, -, hreader, hfetched, -, -⟩ := ht.frame
    have hpc' := ht.healthy hok hmap h.party.present
    refine ⟨?_, ?_⟩
    · intro j q d qc hj hne hq
      have hq' : q ∉ s.fetched.map Prod.fst := hfetched ▸ hq
      rcases getElem?_set_cases hj with ⟨rfl, hput⟩ | ⟨hij, hj'⟩
      · obtain ⟨rfl, rfl, rfl⟩ := Call.put.inj hput
        exact ht.file_ne_none hpc' fun hne => h.store.files i _ _ pc hcall hne hq'
      · show t.dir.files q ≠ none
        rw [ht.files_of_ne (h.client.distinct.ne hcall hj' hij).symm]
        exact h.store.files j q d qc hj' hne hq'
    · show ∀ q, (∃ d, t.reader = .sendData q d) ∨ t.reader = .remove q → q ∈ t.fetched.map Prod.fst
      rw [hreader, hfetched]
      exact h.store.sent
  | complete i ev parts pc pc' t hcall ht =>
    obtain ⟨-, hpc⟩ := h.client.completes parts pc (List.mem_of_getElem? hcall)
    have hset : ∀ (j : ℕ) (p : ℤ) (c : List UInt8) (q : PutPc),
        (s.calls.set i (.complete parts pc'))[j]? = some (.put p c q) →
        s.calls[j]? = some (.put p c q) := by
      intro j p c q hj
      rcases getElem?_set_cases hj with ⟨-, hput⟩ | ⟨-, hj'⟩
      · cases hput
      · exact hj'
    rcases ht.clean hmap h.party.errorC hpc with ⟨-, -, rfl⟩ | ⟨-, -, rfl⟩
    · exact ⟨fun j p c q hj => h.store.files j p c q (hset j p c q hj), h.store.sent⟩
    · exact ⟨fun j p c q hj => h.store.files j p c q (hset j p c q hj), h.store.sent⟩
  | abort i ev pc pc' t hcall ht =>
    exact absurd (List.mem_of_getElem? hcall) (h.flow.calls.no_abort pc)
  | reader ev t ht => exact h.store_reader hok ht
  | chunker ev t ht =>
    have hchunk := h.party.chunker.1
    cases ht with
    | cleanup hpc => rw [hpc] at hchunk; exact absurd hchunk (by simp [ChunkerPc.healthy])
    | takeToken | seeClosed | timeout | receive | sendCancel | sendCancelPanic | sendChunk =>
      exact h.store.congr rfl rfl rfl rfl
  | sdk ev t ht =>
    cases ht with
    | cleanup err hsdk => exact absurd (h.party.sdk.symm.trans hsdk) (by simp)
    | readErrReader hsdk hpc => exact ⟨h.store.files, by simp⟩
    | read | readErrChunker | finish | finishErr | deliver => exact h.store.congr rfl rfl rfl rfl

/-! ### All together -/

theorem CleanInv.step {a : UploadAct} (h : CleanInv cfg n content list s) (hw : cfg.Works)
    (hready : ∀ pc, ready pc = true → pc.pushed = true)
    (hok : CleanStep cfg ready n content list s a) (hst : uploadStep md5Hex cfg s a = some s') :
    CleanInv cfg n content list s' := by
  have ht := (uploadStep_trans hst).2
  exact ⟨h.flow.step hw (hok.orderly hready) hst, h.party_step hw hok ht, h.client_step hok ht,
    h.store_step hok ht⟩

theorem reaches_cleanInv (hw : cfg.Works) (hready : ∀ pc, ready pc = true → pc.pushed = true)
    (h : Reaches (uploadStep md5Hex cfg) (CleanStep cfg ready n content list) (Upload.fresh cfg) s) :
    CleanInv cfg n content list s :=
  h.invariant (I := CleanInv cfg n content list) (cleanInv_fresh cfg n content list)
    fun _ _ _ hi hok hst => hi.step hw hready hok hst

end Zs3Server.Gateway.Multipart
