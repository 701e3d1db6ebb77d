import Zs3Server.Gateway.MultipartSteps

/-!
# The flow of the parts through a multipart upload

In an orderly run — no abort, and the complete comes after every part has been pushed — the parts
reach the SDK in order, whatever fails on the way: if the SDK reads its stream to `io.EOF` without an
error, it has read the parts `1, …, m` that were uploaded, and no others.

* `Orderly` — the condition on the calls;
* `PipeInv`, `FeedInv`, `QueueOrder`, `CallsInv` — the invariants, from the SDK's end back to the
  calls: what was read is the output for the blocks taken; the blocks are what the reader fetched; it
  fetched the parts the queue returned, unless the pipeline has stopped for good; and the queue got
  the parts the calls pushed;
* `PipeInv.step`, `FeedInv.step`, `QueueOrder.step`, `CallsInv.step` — kept by every step.
-/

namespace Zs3Server.Gateway.Multipart

open Lib.ByteString Lib.Slots
open Gateway.ChunkPipe

variable {W : Type} {md5Hex : List UInt8 → GoString} {cfg : PipeConfig W} {s s' : Upload W}

/-! ### The calls of an orderly run -/

/-- The part number and content of a `PutObjectPart`. -/
def Call.part : Call → Option (ℤ × List UInt8)
  | .put partID content _ => some (partID, content)
  | _ => none

/-- A `PutObjectPart` at this position has pushed its part number. -/
def PutPc.pushed : PutPc → Bool
  | .saveETag | .updateSize | .returned (.ok _) | .returned (.error .saveETag) => true
  | _ => false

/-- The part number a `PutObjectPart` has pushed. -/
def Call.pushedPart : Call → Option ℤ
  | .put partID _ pc => if pc.pushed then some partID else none
  | _ => none

/-- The parts of the calls so far, whether they have been uploaded or not. -/
def Upload.parts (s : Upload W) : List (ℤ × List UInt8) := s.calls.filterMap Call.part

/-- The part numbers pushed so far. -/
def Upload.pushedParts (s : Upload W) : List ℤ := s.calls.filterMap Call.pushedPart

/-- A `CompleteMultipartUpload` has arrived. -/
def Upload.Completing (s : Upload W) : Prop := ∃ parts pc, Call.complete parts pc ∈ s.calls

/-- **An orderly run**: no part arrives after the complete, the only complete arrives when every call
so far has pushed its part, and there is no abort. -/
def Orderly (s : Upload W) : UploadAct → Prop
  | .begin (.put _ _) => ¬ s.Completing
  | .begin (.complete _) => ∀ call ∈ s.calls, call.pushedPart ≠ none
  | .begin .abort => False
  | _ => True

/-- The upload just after `NewMultipartUpload` has returned its ID. -/
def Upload.fresh (cfg : PipeConfig W) : Upload W := (Upload.absent cfg).started

/-- The calls of an orderly run: none is an abort; once a complete has arrived every put has pushed
its part; and `Done` is called by a complete. -/
structure CallsInv (s : Upload W) : Prop where
  no_abort : ∀ pc, Call.abort pc ∉ s.calls
  pushed : s.Completing → ∀ partID content pc, Call.put partID content pc ∈ s.calls →
    pc.pushed = true
  done : s.seqPQ.done = true → s.Completing
  open_cancel : s.cancelClosed = false
  in_map : s.inFileMap = true

/-! ### The invariants of the pipeline -/

/-- A block the part reader holds and has not sent yet. -/
def ReaderPc.inflight : ReaderPc → List (List UInt8)
  | .sendData _ data => [data]
  | _ => []

/-- A part number the part reader has got from the queue and not fetched yet. -/
def ReaderPc.unfetched : ReaderPc → List ℤ
  | .openFile partNumber | .fetch partNumber _ => [partNumber]
  | _ => []

/-- While no read has failed, the pipe invariant holds. -/
def PipeInv (cfg : PipeConfig W) (s : Upload W) : Prop := s.pipe.ReadsClean → PipeFacts cfg s.pipe

/-- The blocks that went into the pipe are those the part reader fetched, and the goroutines close
their channels when they end. -/
structure FeedInv (s : Upload W) : Prop where
  feed : s.fetched.map Prod.snd = s.pipe.taken ++ s.pipe.dataC ++ s.reader.inflight
  closed : s.pipe.dataClosed = true → s.reader = .done
  memClosed : s.pipe.memClosed = true → s.pipe.chunker = .done

/-- The part reader has fetched what the queue returned. -/
def Ordered (m : ℕ) (s : Upload W) : Prop :=
  s.fetched.map Prod.fst ++ s.reader.unfetched = firstParts m

/-- The chunking goroutine has left its loop without closing `memFileDataChan`. -/
@[mk_iff]
inductive ChunkerDead (s : Upload W) : Prop
  | sendErr (text : GoString) (h : s.pipe.chunker = .sendErr text)
  | cleanup (h : s.pipe.chunker = .cleanup)
  | done (h : s.pipe.chunker = .done) (hopen : s.pipe.memClosed = false)

/-- The part reader is on its way out without closing `dataC`: it has a send on `cancelC` pending, or
will find the token it sent, or has left its loop. -/
@[mk_iff]
inductive ReaderStopping (s : Upload W) : Prop
  | sendCancel (opened : Option ℤ) (h : s.reader = .sendCancel opened)
  | select (htoken : s.cancelToken = true) (h : s.reader = .select)
  | remove (partNumber : ℤ) (htoken : s.cancelToken = true) (h : s.reader = .remove partNumber)
  | sendErr (h : s.reader = .sendErr)
  | cleanup (h : s.reader = .cleanup)
  | done (h : s.reader = .done) (hopen : s.pipe.dataClosed = false)

/-- The queue has returned `m` of the parts pushed so far; the part reader has fetched them in order,
unless the pipeline has stopped for good; and it ends its loop on a started and drained queue. -/
structure QueueOrder (m : ℕ) (s : Upload W) : Prop where
  queue : PqInv (s.pushedParts : Multiset ℤ) m s.seqPQ
  order : Ordered m s ∨ ChunkerDead s ∨ ReaderStopping s
  drained : s.reader = .closeData ∨ s.pipe.dataClosed = true →
    s.seqPQ.queue.entries = 0 ∧ s.seqPQ.done = true ∧ s.seqPQ.start = true

/-! ### The pipe -/

theorem pipeInv_fresh (cfg : PipeConfig W) : PipeInv cfg (Upload.fresh cfg) := by
  intro _
  refine (pipeFacts_new cfg).goto ?_ ?_ rfl ?_ <;> simp [Pipe.new]

theorem PipeInv.reader {ev : ReaderEvent} (h : PipeInv cfg s) (hf : FeedInv s)
    (ht : ReaderTrans s ev s') : PipeInv cfg s' := by
  cases ht with
  | closeData hpc => exact fun hclean => (h hclean).closeData
  | sendData p data hpc hroom =>
    intro hclean
    refine (h hclean).put ?_ data
    rw [Bool.eq_false_iff]
    intro hc
    rw [hf.closed hc] at hpc
    exact absurd hpc (by simp)
  | takeToken | seeClosed | goPopup | popupEnd | popupPart | openFile | openMissing | openFault
  | fetch | fetchFault | remove | sendCancel | sendCancelPanic | cleanup => exact h

/-- The goroutine leaves its `select`, or ends after its cleanup. -/
theorem PipeInv.goto {x : ChunkerPc} (h : PipeInv cfg s)
    (hfrom : s.pipe.chunker = .select ∨ s.pipe.chunker = .cleanup)
    (hx : x = .done ∨ ∃ text, x = .sendErr text) (hclean : s.pipe.ReadsClean) :
    PipeFacts cfg { s.pipe with chunker := x } := by
  have hfacts := h hclean
  refine hfacts.goto ?_ ?_ ?_ ?_
  · rcases hfrom with hpc | hpc <;> simp [hpc]
  · rcases hx with rfl | ⟨text, rfl⟩ <;> simp
  · rw [Bool.eq_false_iff]
    intro hc
    rw [hfacts.closed hc] at hfrom
    simp at hfrom
  · rcases hx with rfl | ⟨text, rfl⟩ <;> simp

theorem PipeInv.chunker {ev : ChunkerEvent} (h : PipeInv cfg s) (hw : cfg.Works)
    (ht : ChunkerTrans cfg s ev s') : PipeInv cfg s' := by
  cases ht with
  | takeToken hpc _ => exact h.goto (Or.inl hpc) (Or.inr ⟨_, rfl⟩)
  | seeClosed hpc _ _ => exact h.goto (Or.inl hpc) (Or.inr ⟨_, rfl⟩)
  | timeout hpc => exact h.goto (Or.inl hpc) (Or.inr ⟨_, rfl⟩)
  | cleanup hpc => exact h.goto (Or.inr hpc) (Or.inl rfl)
  | receive pipe hrecv =>
    intro hclean
    refine (h ?_).receive hw hrecv
    rw [Pipe.ReadsClean, ← (receive_frame hrecv).2.2.2.2.1]
    exact hclean
  | sendCancel hpc _ _ => exact fun hclean => absurd hpc (h hclean).not_sendCancel
  | sendCancelPanic hpc _ => exact h
  | sendChunk pipe size hsend hsize =>
    intro hclean
    refine (h ?_).sendChunk hsend
    rw [Pipe.ReadsClean, ← (sendChunk_frame hsend).2.2.2.1]
    exact hclean

theorem PipeInv.sdk {ev : SdkEvent} (h : PipeInv cfg s) (ht : SdkTrans s ev s') :
    PipeInv cfg s' := by
  cases ht with
  | read len pipe hsdk hread =>
    intro hclean
    refine (h ?_).read hread hclean
    obtain ⟨r, hr⟩ := (read_frame hread).2.2.2.2.2
    intro x hx
    exact hclean x (hr ▸ List.mem_append_left _ hx)
  | readErrReader hsdk hpc =>
    intro hclean
    have := hclean _ (List.mem_append_right _ (List.mem_singleton_self _))
    simp at this
  | readErrChunker text hsdk hpc =>
    intro hclean
    have := hclean _ (List.mem_append_right _ (List.mem_singleton_self _))
    simp at this
  | finish | finishErr | cleanup | deliver => exact h

theorem PipeInv.step {a : UploadAct} (h : PipeInv cfg s) (hf : FeedInv s) (hw : cfg.Works)
    (hmap : s.inFileMap = true) (ht : UploadTrans md5Hex cfg s a s') : PipeInv cfg s' := by
  cases ht with
  | new hnew => exact absurd (hnew.symm.trans hmap) (by simp)
  | newFault hnew => exact absurd (hnew.symm.trans hmap) (by simp)
  | begin request => exact h
  | put i ev partID content pc pc' t hcall ht => cases ht <;> exact h
  | complete i ev parts pc pc' t hcall ht => cases ht <;> exact h
  | abort i ev pc pc' t hcall ht => cases ht <;> exact h
  | reader ev t ht => exact h.reader hf ht
  | chunker ev t ht => exact h.chunker hw ht
  | sdk ev t ht => exact h.sdk ht

/-! ### From the part reader to the pipe -/

theorem feedInv_fresh (cfg : PipeConfig W) : FeedInv (Upload.fresh cfg) := by
  refine ⟨rfl, ?_, ?_⟩ <;> simp [Upload.fresh, Upload.started, Upload.absent, Pipe.new]

theorem FeedInv.reader {ev : ReaderEvent} (h : FeedInv s) (ht : ReaderTrans s ev s') :
    FeedInv s' := by
  obtain ⟨hfeed, hclosed, hmem⟩ := h
  -- while the reader has not ended, `dataC` is open
  have hopen : ∀ {pc : ReaderPc}, s.reader = pc → pc ≠ .done → s.pipe.dataClosed = true → False := by
    rintro pc rfl hne hc
    exact hne (hclosed hc)
  cases ht with
  | closeData hpc => exact ⟨by simpa [hpc, ReaderPc.inflight] using hfeed, fun _ => rfl, hmem⟩
  | fetch p opened hpc =>
    rw [hpc] at hfeed
    refine ⟨?_, fun hc => (hopen hpc (by simp) hc).elim, hmem⟩
    rw [List.map_append, hfeed]
    simp [ReaderPc.inflight]
  | sendData p data hpc hroom =>
    rw [hpc] at hfeed
    refine ⟨?_, fun hc => (hopen hpc (by simp) hc).elim, hmem⟩
    simpa [ReaderPc.inflight] using hfeed
  | sendCancel opened hpc _ _ =>
    rw [hpc] at hfeed
    refine ⟨?_, fun hc => (hopen hpc (by simp) hc).elim, hmem⟩
    cases opened <;> exact hfeed
  | sendCancelPanic => exact ⟨hfeed, hclosed, hmem⟩
  | cleanup hpc => exact ⟨by simpa [hpc, ReaderPc.inflight] using hfeed, fun _ => rfl, hmem⟩
  | takeToken hpc | seeClosed hpc | goPopup hpc =>
    rw [hpc] at hfeed
    exact ⟨hfeed, fun hc => (hopen hpc (by simp) hc).elim, hmem⟩
  | popupEnd pq hpc | popupPart p pq hpc | openFile p content hpc | openMissing p hpc
  | openFault p hpc | fetchFault p opened hpc | remove p hpc =>
    rw [hpc] at hfeed
    exact ⟨hfeed, fun hc => (hopen hpc (by simp) hc).elim, hmem⟩

theorem FeedInv.chunker {ev : ChunkerEvent} (h : FeedInv s) (ht : ChunkerTrans cfg s ev s') :
    FeedInv s' := by
  obtain ⟨hfeed, hclosed, hmem⟩ := h
  have hopen : ∀ {pc : ChunkerPc}, s.pipe.chunker = pc → pc ≠ .done → s.pipe.memClosed = true →
      False := by
    rintro pc rfl hne hc
    exact hne (hmem hc)
  cases ht with
  | receive pipe hrecv =>
    obtain ⟨htaken, hdc, -, hmc, -, hpc⟩ := receive_frame hrecv
    refine ⟨?_, fun hc => hclosed (hdc ▸ hc), fun hc => ?_⟩
    · show s.fetched.map Prod.snd = pipe.taken ++ pipe.dataC ++ s.reader.inflight
      rw [htaken, hfeed]
    · exact (hopen hpc (by simp) (hmc ▸ hc)).elim
  | sendChunk pipe size hsend hsize =>
    obtain ⟨htaken, hdata, hdc, -, -, -⟩ := sendChunk_frame hsend
    refine ⟨?_, fun hc => hclosed (hdc ▸ hc), ?_⟩
    · show s.fetched.map Prod.snd = pipe.taken ++ pipe.dataC ++ s.reader.inflight
      rw [htaken, hdata, hfeed]
    · intro hc
      obtain ⟨hnot, hor⟩ := sendChunk_memClosed hsend
      exact (hor hc).elim (fun hc' => absurd (hmem hc') hnot) id
  | cleanup hpc => exact ⟨hfeed, hclosed, fun _ => rfl⟩
  | takeToken hpc | seeClosed hpc | timeout hpc | sendCancel hpc =>
    exact ⟨hfeed, hclosed, fun hc => (hopen hpc (by simp) hc).elim⟩
  | sendCancelPanic => exact ⟨hfeed, hclosed, hmem⟩

theorem FeedInv.sdk {ev : SdkEvent} (h : FeedInv s) (ht : SdkTrans s ev s') : FeedInv s' := by
  obtain ⟨hfeed, hclosed, hmem⟩ := h
  cases ht with
  | read len pipe hsdk hread =>
    obtain ⟨htaken, hdata, hdc, hpc, hmc, -⟩ := read_frame hread
    refine ⟨?_, fun hc => hclosed (hdc ▸ hc), fun hc => hpc.trans (hmem (hmc ▸ hc))⟩
    show s.fetched.map Prod.snd = pipe.taken ++ pipe.dataC ++ s.reader.inflight
    rw [htaken, hdata, hfeed]
  | readErrReader hsdk hpc =>
    rw [hpc] at hfeed
    refine ⟨hfeed, fun hc => ?_, hmem⟩
    exact absurd (hpc.symm.trans (hclosed hc)) (by simp)
  | readErrChunker text hsdk hpc =>
    refine ⟨hfeed, hclosed, fun hc => ?_⟩
    exact absurd (hpc.symm.trans (hmem hc)) (by simp)
  | finish | finishErr | cleanup | deliver => exact ⟨hfeed, hclosed, hmem⟩

theorem FeedInv.step {a : UploadAct} (h : FeedInv s) (hmap : s.inFileMap = true)
    (ht : UploadTrans md5Hex cfg s a s') : FeedInv s' := by
  cases ht with
  | new hnew => exact absurd (hnew.symm.trans hmap) (by simp)
  | newFault hnew => exact absurd (hnew.symm.trans hmap) (by simp)
  | begin request => exact ⟨h.feed, h.closed, h.memClosed⟩
  | put i ev partID content pc pc' t hcall ht => cases ht <;> exact ⟨h.feed, h.closed, h.memClosed⟩
  | complete i ev parts pc pc' t hcall ht =>
    cases ht <;> exact ⟨h.feed, h.closed, h.memClosed⟩
  | abort i ev pc pc' t hcall ht => cases ht <;> exact ⟨h.feed, h.closed, h.memClosed⟩
  | reader ev t ht => exact h.reader ht
  | chunker ev t ht => exact h.chunker ht
  | sdk ev t ht => exact h.sdk ht

/-! ### The calls -/

/-- A put pushes its part in one stage; the others neither touch the queue nor change whether the
part has been pushed. -/
theorem PutTrans.pushed {partID : ℤ} {content : List UInt8} {pc pc' : PutPc} {ev : CallEvent}
    (ht : PutTrans md5Hex s partID content pc ev s' pc') :
    (pc.pushed = false ∧ pc'.pushed = true ∧ s'.seqPQ = s.seqPQ.push partID) ∨
      (pc'.pushed = pc.pushed ∧ s'.seqPQ = s.seqPQ) := by
  cases ht with
  | push => exact Or.inl ⟨rfl, rfl, rfl⟩
  | create | createMissing | createFault | lookup | lookupNone | copy | copyEnd | copyFault
  | saveETag | saveETagMissing | saveETagFault | updateSize => exact Or.inr ⟨rfl, rfl⟩

/-- A put touches the directory, the queue and the size only. -/
theorem PutTrans.frame {partID : ℤ} {content : List UInt8} {pc pc' : PutPc} {ev : CallEvent}
    (ht : PutTrans md5Hex s partID content pc ev s' pc') :
    s'.inFileMap = s.inFileMap ∧ s'.cancelToken = s.cancelToken ∧
      s'.cancelClosed = s.cancelClosed ∧ s'.errorC = s.errorC ∧ s'.reader = s.reader ∧
      s'.fetched = s.fetched ∧ s'.pipe = s.pipe ∧ s'.sdk = s.sdk := by
  cases ht <;> exact ⟨rfl, rfl, rfl, rfl, rfl, rfl, rfl, rfl⟩

/-- A complete touches the directory, the queue's `done` flag and `errorC` only. -/
theorem CompleteTrans.frame {pc pc' : CompletePc} {ev : CallEvent}
    (ht : CompleteTrans s pc ev s' pc') :
    s'.inFileMap = s.inFileMap ∧ s'.cancelToken = s.cancelToken ∧
      s'.cancelClosed = s.cancelClosed ∧ s'.reader = s.reader ∧ s'.fetched = s.fetched ∧
      s'.pipe = s.pipe ∧ s'.sdk = s.sdk ∧ (s'.seqPQ = s.seqPQ ∨ s'.seqPQ = s.seqPQ.setDone) := by
  cases ht with
  | setDone => exact ⟨rfl, rfl, rfl, rfl, rfl, rfl, rfl, Or.inr rfl⟩
  | lookup | lookupNone | success | failure | construct | constructFault | cleanup
  | cleanupFault => exact ⟨rfl, rfl, rfl, rfl, rfl, rfl, rfl, Or.inl rfl⟩

theorem callsInv_fresh (cfg : PipeConfig W) : CallsInv (Upload.fresh cfg) := by
  refine ⟨?_, ?_, ?_, rfl, rfl⟩ <;>
    simp [Upload.fresh, Upload.started, Upload.absent, newSeqPriorityQueue]

theorem CallsInv.begin {request : Request} (h : CallsInv s) (hok : Orderly s (.begin request)) :
    CallsInv { s with calls := s.calls ++ [request.start] } := by
  refine ⟨?_, ?_, ?_, h.open_cancel, h.in_map⟩
  · intro pc hmem
    rcases List.mem_append.mp hmem with hmem | hmem
    · exact h.no_abort pc hmem
    · cases request with
      | abort => exact hok
      | put | complete => simp [Request.start] at hmem
  · rintro ⟨parts, pc, hcomplete⟩ partID content pc' hput
    cases request with
    | abort => exact hok.elim
    | put p c =>
      simp only [Request.start, List.mem_append, List.mem_singleton, reduceCtorEq, or_false]
        at hcomplete
      exact (hok ⟨parts, pc, hcomplete⟩).elim
    | complete L =>
      simp only [Request.start, List.mem_append, List.mem_singleton, reduceCtorEq, or_false] at hput
      have hpushed := hok _ hput
      by_contra hp
      exact hpushed (if_neg hp)
  · intro hd
    obtain ⟨parts, pc, hmem⟩ := h.done hd
    exact ⟨parts, pc, List.mem_append_left _ hmem⟩

theorem CallsInv.put {i : ℕ} {ev : CallEvent} {partID : ℤ} {content : List UInt8} {pc pc' : PutPc}
    (h : CallsInv s) (hcall : s.calls[i]? = some (.put partID content pc))
    (ht : PutTrans md5Hex s partID content pc ev s' pc') :
    CallsInv { s' with calls := s.calls.set i (.put partID content pc') } := by
  obtain ⟨hmap, -, hcancel, -⟩ := ht.frame
  have hcompleting : Upload.Completing { s' with calls := s.calls.set i (.put partID content pc') } →
      s.Completing := by
    rintro ⟨parts, q, hmem⟩
    rcases List.mem_or_eq_of_mem_set hmem with hmem | heq
    · exact ⟨parts, q, hmem⟩
    · exact absurd heq (by simp)
  refine ⟨?_, ?_, ?_, hcancel.trans h.open_cancel, hmap.trans h.in_map⟩
  · intro q hmem
    rcases List.mem_or_eq_of_mem_set hmem with hmem | heq
    · exact h.no_abort q hmem
    · exact absurd heq (by simp)
  · intro hc p c q hmem
    rcases List.mem_or_eq_of_mem_set hmem with hmem | heq
    · exact h.pushed (hcompleting hc) p c q hmem
    · obtain ⟨rfl, rfl, rfl⟩ := Call.put.inj heq
      have hold := h.pushed (hcompleting hc) _ _ pc (List.mem_of_getElem? hcall)
      rcases ht.pushed with ⟨-, hnew, -⟩ | ⟨hsame, -⟩
      · exact hnew
      · exact hsame.trans hold
  · intro hd
    have hd' : s.seqPQ.done = true := by
      rcases ht.pushed with ⟨-, -, hpq⟩ | ⟨-, hpq⟩ <;> rw [hpq] at hd <;> exact hd
    obtain ⟨parts, q, hmem⟩ := h.done hd'
    obtain ⟨j, hj⟩ := List.mem_iff_getElem?.mp hmem
    refine ⟨parts, q, List.mem_iff_getElem?.mpr ⟨j, ?_⟩⟩
    rw [List.getElem?_set_ne, hj]
    rintro rfl
    rw [hcall] at hj
    exact absurd hj (by simp)

theorem CallsInv.complete {i : ℕ} {ev : CallEvent} {parts : List CompletePart} {pc pc' : CompletePc}
    (h : CallsInv s) (hcall : s.calls[i]? = some (.complete parts pc))
    (ht : CompleteTrans s pc ev s' pc') :
    CallsInv { s' with calls := s.calls.set i (.complete parts pc') } := by
  obtain ⟨hmap, -, hcancel, -⟩ := ht.frame
  have hi : i < s.calls.length := (List.getElem?_eq_some_iff.mp hcall).1
  refine ⟨?_, ?_, fun _ => ?_, hcancel.trans h.open_cancel, hmap.trans h.in_map⟩
  · intro q hmem
    rcases List.mem_or_eq_of_mem_set hmem with hmem | heq
    · exact h.no_abort q hmem
    · exact absurd heq (by simp)
  · intro _ p c q hmem
    rcases List.mem_or_eq_of_mem_set hmem with hmem | heq
    · exact h.pushed ⟨parts, pc, List.mem_of_getElem? hcall⟩ p c q hmem
    · exact absurd heq (by simp)
  · exact ⟨parts, pc', List.mem_set hi _⟩

/-- The goroutines and the SDK leave the calls and `FileMap` alone, and do not close `cancelC` or call
`Done`. -/
structure CallsFrame (s s' : Upload W) : Prop where
  calls : s'.calls = s.calls
  cancelClosed : s'.cancelClosed = s.cancelClosed
  inFileMap : s'.inFileMap = s.inFileMap
  done : s'.seqPQ.done = s.seqPQ.done

theorem ReaderTrans.callsFrame {ev : ReaderEvent} (ht : ReaderTrans s ev s') : CallsFrame s s' := by
  cases ht with
  | popupEnd pq hpc hpop | popupPart p pq hpc hpop hne =>
    refine ⟨rfl, rfl, rfl, ?_⟩
    rcases (popup_cases hpop).2 with ⟨-, hpq, -⟩ | ⟨-, -, -, -, hd⟩
    · exact congrArg SeqPriorityQueue.done hpq
    · exact hd
  | takeToken | seeClosed | goPopup | closeData | openFile | openMissing | openFault | fetch
  | fetchFault | sendData | remove | sendCancel | sendCancelPanic | cleanup =>
    exact ⟨rfl, rfl, rfl, rfl⟩

theorem ChunkerTrans.callsFrame {ev : ChunkerEvent} (ht : ChunkerTrans cfg s ev s') :
    CallsFrame s s' := by
  cases ht <;> exact ⟨rfl, rfl, rfl, rfl⟩

theorem SdkTrans.callsFrame {ev : SdkEvent} (ht : SdkTrans s ev s') : CallsFrame s s' := by
  cases ht <;> exact ⟨rfl, rfl, rfl, rfl⟩

theorem CallsInv.congr (h : CallsInv s) (hf : CallsFrame s s') : CallsInv s' := by
  refine ⟨?_, ?_, ?_, hf.cancelClosed.trans h.open_cancel, hf.inFileMap.trans h.in_map⟩
  · rw [hf.calls]
    exact h.no_abort
  · rw [Upload.Completing, hf.calls]
    exact h.pushed
  · rw [Upload.Completing, hf.calls, hf.done]
    exact h.done

theorem CallsInv.step {a : UploadAct} (h : CallsInv s) (hok : Orderly s a)
    (ht : UploadTrans md5Hex cfg s a s') : CallsInv s' := by
  cases ht with
  | new hnew => exact absurd (hnew.symm.trans h.in_map) (by simp)
  | newFault hnew => exact absurd (hnew.symm.trans h.in_map) (by simp)
  | begin request => exact h.begin hok
  | put i ev partID content pc pc' t hcall ht => exact h.put hcall ht
  | complete i ev parts pc pc' t hcall ht => exact h.complete hcall ht
  | abort i ev pc pc' t hcall ht => exact absurd (List.mem_of_getElem? hcall) (h.no_abort pc)
  | reader ev t ht => exact h.congr ht.callsFrame
  | chunker ev t ht => exact h.congr ht.callsFrame
  | sdk ev t ht => exact h.congr ht.callsFrame

/-! ### From the calls to the part reader -/

theorem queueOrder_fresh (cfg : PipeConfig W) : QueueOrder 0 (Upload.fresh cfg) := by
  refine ⟨newSeqPriorityQueue_inv, Or.inl rfl, ?_⟩
  simp [Upload.fresh, Upload.started, Upload.absent, Pipe.new]

theorem pushedParts_eq_of_calls (h : s'.calls = s.calls) : s'.pushedParts = s.pushedParts := by
  rw [Upload.pushedParts, h, Upload.pushedParts]

/-- A step after which the reader has not closed `dataC` and is not about to. -/
theorem QueueOrder.move {m : ℕ} (h : QueueOrder m s) (hcalls : s'.calls = s.calls)
    (hpq : s'.seqPQ = s.seqPQ) (hpc : s'.reader ≠ .closeData) (hopen : s'.pipe.dataClosed = false)
    (horder : Ordered m s ∨ ChunkerDead s ∨ ReaderStopping s →
      Ordered m s' ∨ ChunkerDead s' ∨ ReaderStopping s') : QueueOrder m s' := by
  refine ⟨?_, horder h.order, ?_⟩
  · rw [hpq, pushedParts_eq_of_calls hcalls]
    exact h.queue
  · rintro (hc | hc)
    · exact absurd hc hpc
    · exact absurd (hopen.symm.trans hc) (by simp)

theorem ChunkerDead.congr (h : ChunkerDead s) (hpc : s'.pipe.chunker = s.pipe.chunker)
    (hmem : s'.pipe.memClosed = s.pipe.memClosed) : ChunkerDead s' := by
  rw [chunkerDead_iff] at h ⊢
  rw [hpc, hmem]
  exact h

/-- The part reader goes on in its loop. -/
theorem order_forward {m m' : ℕ} (h : Ordered m s ∨ ChunkerDead s ∨ ReaderStopping s)
    (hstop : ¬ ReaderStopping s) (hpc : s'.pipe.chunker = s.pipe.chunker)
    (hmem : s'.pipe.memClosed = s.pipe.memClosed) (hord : Ordered m s → Ordered m' s') :
    Ordered m' s' ∨ ChunkerDead s' ∨ ReaderStopping s' := by
  rcases h with ho | hc | hs
  · exact Or.inl (hord ho)
  · exact Or.inr (Or.inl (hc.congr hpc hmem))
  · exact absurd hs hstop

theorem QueueOrder.reader {m : ℕ} {ev : ReaderEvent} (h : QueueOrder m s) (hf : FeedInv s)
    (ht : ReaderTrans s ev s') : ∃ m', QueueOrder m' s' := by
  have hopen : ∀ {pc : ReaderPc}, s.reader = pc → pc ≠ .done → s.pipe.dataClosed = false := by
    rintro pc rfl hne
    rw [Bool.eq_false_iff]
    exact fun hc => hne (hf.closed hc)
  cases ht with
  -- the reader starts on its way out, or is on it
  | takeToken hpc htoken =>
    exact ⟨m, h.move rfl rfl (by simp) (hopen hpc (by simp)) fun _ => Or.inr (Or.inr (.sendErr rfl))⟩
  | seeClosed hpc htoken hclosed =>
    exact ⟨m, h.move rfl rfl (by simp) (hopen hpc (by simp)) fun _ => Or.inr (Or.inr (.sendErr rfl))⟩
  | openMissing p hpc hfile =>
    exact ⟨m, h.move rfl rfl (by simp) (hopen hpc (by simp)) fun _ =>
      Or.inr (Or.inr (.sendCancel none rfl))⟩
  | openFault p hpc =>
    exact ⟨m, h.move rfl rfl (by simp) (hopen hpc (by simp)) fun _ =>
      Or.inr (Or.inr (.sendCancel none rfl))⟩
  | fetchFault p opened hpc =>
    exact ⟨m, h.move rfl rfl (by simp) (hopen hpc (by simp)) fun _ =>
      Or.inr (Or.inr (.sendCancel (some p) rfl))⟩
  | sendCancel opened hpc hclosed htoken =>
    refine ⟨m, h.move rfl rfl ?_ (hopen hpc (by simp)) fun _ => Or.inr (Or.inr ?_)⟩
    · cases opened <;> simp [ReaderPc.afterCancel]
    · cases opened with
      | none => exact .select rfl rfl
      | some p => exact .remove p rfl rfl
  | sendCancelPanic opened hpc hclosed =>
    refine ⟨m, h.move rfl rfl ?_ (hopen hpc (by simp)) fun _ => Or.inr (Or.inr ?_)⟩
    · rw [Upload.panic, hpc]
      simp
    · exact .sendCancel opened hpc
  | cleanup hpc =>
    have hdc := hopen hpc (by simp)
    exact ⟨m, h.move rfl rfl (by simp) hdc fun _ => Or.inr (Or.inr (.done rfl hdc))⟩
  | remove p hpc =>
    refine ⟨m, h.move rfl rfl (by simp) (hopen hpc (by simp)) ?_⟩
    rintro (ho | hc | hs)
    · exact Or.inl (by simpa [Ordered, hpc, ReaderPc.unfetched] using ho)
    · exact Or.inr (Or.inl (hc.congr rfl rfl))
    · have htoken : s.cancelToken = true := by simpa [readerStopping_iff, hpc] using hs
      exact Or.inr (Or.inr (.select htoken rfl))
  -- the reader goes on
  | goPopup hpc htoken hclosed =>
    refine ⟨m, h.move rfl rfl (by simp) (hopen hpc (by simp)) fun ho => ?_⟩
    refine order_forward ho (by simp [readerStopping_iff, hpc, htoken]) rfl rfl fun ho => ?_
    simpa [Ordered, hpc, ReaderPc.unfetched] using ho
  | openFile p content hpc hfile =>
    refine ⟨m, h.move rfl rfl (by simp) (hopen hpc (by simp)) fun ho => ?_⟩
    refine order_forward ho (by simp [readerStopping_iff, hpc]) rfl rfl fun ho => ?_
    simpa [Ordered, hpc, ReaderPc.unfetched] using ho
  | fetch p opened hpc =>
    refine ⟨m, h.move rfl rfl (by simp) (hopen hpc (by simp)) fun ho => ?_⟩
    refine order_forward ho (by simp [readerStopping_iff, hpc]) rfl rfl fun ho => ?_
    simpa [Ordered, hpc, ReaderPc.unfetched] using ho
  | sendData p data hpc hroom =>
    refine ⟨m, h.move rfl rfl (by simp) (hopen hpc (by simp)) fun ho => ?_⟩
    refine order_forward ho (by simp [readerStopping_iff, hpc]) rfl rfl fun ho => ?_
    simpa [Ordered, hpc, ReaderPc.unfetched] using ho
  | closeData hpc =>
    refine ⟨m, h.queue, ?_, fun _ => h.drained (Or.inl hpc)⟩
    refine order_forward h.order (by simp [readerStopping_iff, hpc]) rfl rfl fun ho => ?_
    simpa [Ordered, hpc, ReaderPc.unfetched] using ho
  | popupEnd pq hpc hpop =>
    rcases h.queue.popup hpop with ⟨-, rfl, he, hd, hst⟩ | ⟨hv, -⟩
    · refine ⟨m, h.queue, ?_, fun _ => ⟨he, hd, hst⟩⟩
      refine order_forward h.order (by simp [readerStopping_iff, hpc]) rfl rfl fun ho => ?_
      simpa [Ordered, hpc, ReaderPc.unfetched] using ho
    · omega
  | popupPart p pq hpc hpop hne =>
    rcases h.queue.popup hpop with ⟨rfl, -⟩ | ⟨rfl, hq, hd, -⟩
    · exact absurd rfl hne
    · refine ⟨m + 1, hq, ?_, ?_⟩
      · refine order_forward h.order (by simp [readerStopping_iff, hpc]) rfl rfl fun ho => ?_
        simpa [Ordered, hpc, ReaderPc.unfetched, firstParts_succ] using ho
      · rintro (hc | hc)
        · exact absurd hc (by simp)
        · exact absurd ((hopen hpc (by simp)).symm.trans hc) (by simp)

/-- The chunking goroutine and the SDK leave the queue, the calls and what was fetched alone. -/
theorem QueueOrder.pipe {m : ℕ} (h : QueueOrder m s) (hcalls : s'.calls = s.calls)
    (hpq : s'.seqPQ = s.seqPQ) (hpc : s'.reader = .closeData → s.reader = .closeData)
    (hdc : s'.pipe.dataClosed = s.pipe.dataClosed)
    (horder : Ordered m s' ∨ ChunkerDead s' ∨ ReaderStopping s') : QueueOrder m s' := by
  refine ⟨?_, horder, ?_⟩
  · rw [hpq, pushedParts_eq_of_calls hcalls]
    exact h.queue
  · rw [hpq, hdc]
    rintro (hc | hc)
    · exact h.drained (Or.inl (hpc hc))
    · exact h.drained (Or.inr hc)

theorem ReaderStopping.congr (h : ReaderStopping s) (hpc : s'.reader = s.reader)
    (htoken : s.cancelToken = true → s'.cancelToken = true)
    (hdc : s'.pipe.dataClosed = s.pipe.dataClosed) : ReaderStopping s' := by
  cases h with
  | sendCancel opened h => exact .sendCancel opened (hpc.trans h)
  | select ht h => exact .select (htoken ht) (hpc.trans h)
  | remove p ht h => exact .remove p (htoken ht) (hpc.trans h)
  | sendErr h => exact .sendErr (hpc.trans h)
  | cleanup h => exact .cleanup (hpc.trans h)
  | done h hopen => exact .done (hpc.trans h) (hdc.trans hopen)

/-- The chunking goroutine goes on in its loop. -/
theorem order_chunking {m : ℕ} (h : Ordered m s ∨ ChunkerDead s ∨ ReaderStopping s)
    (hdead : ¬ ChunkerDead s) (hfetched : s'.fetched = s.fetched) (hpc : s'.reader = s.reader)
    (htoken : s.cancelToken = true → s'.cancelToken = true)
    (hdc : s'.pipe.dataClosed = s.pipe.dataClosed) :
    Ordered m s' ∨ ChunkerDead s' ∨ ReaderStopping s' := by
  rcases h with ho | hc | hs
  · exact Or.inl (by rw [Ordered, hfetched, hpc]; exact ho)
  · exact absurd hc hdead
  · exact Or.inr (Or.inr (hs.congr hpc htoken hdc))

theorem QueueOrder.chunker {m : ℕ} {ev : ChunkerEvent} (h : QueueOrder m s) (hf : FeedInv s)
    (ht : ChunkerTrans cfg s ev s') : QueueOrder m s' := by
  cases ht with
  | takeToken hpc htoken =>
    exact h.pipe rfl rfl id rfl (Or.inr (Or.inl (.sendErr _ rfl)))
  | seeClosed hpc htoken hclosed =>
    exact h.pipe rfl rfl id rfl (Or.inr (Or.inl (.sendErr _ rfl)))
  | timeout hpc => exact h.pipe rfl rfl id rfl (Or.inr (Or.inl (.sendErr _ rfl)))
  | cleanup hpc =>
    refine h.pipe rfl rfl id rfl (Or.inr (Or.inl (.done rfl ?_)))
    show s.pipe.memClosed = false
    rw [Bool.eq_false_iff]
    exact fun hc => absurd (hpc.symm.trans (hf.memClosed hc)) (by simp)
  | receive pipe hrecv =>
    obtain ⟨-, hdc, -, -, -, hpc⟩ := receive_frame hrecv
    exact h.pipe rfl rfl id hdc
      (order_chunking h.order (by simp [chunkerDead_iff, hpc]) rfl rfl id hdc)
  | sendCancel hpc hclosed htoken =>
    exact h.pipe rfl rfl id rfl
      (order_chunking h.order (by simp [chunkerDead_iff, hpc]) rfl rfl (fun _ => rfl) rfl)
  | sendCancelPanic hpc hclosed =>
    exact h.pipe rfl rfl id rfl
      (order_chunking h.order (by simp [chunkerDead_iff, hpc]) rfl rfl id rfl)
  | sendChunk pipe size hsend hsize =>
    have hdc := (sendChunk_frame hsend).2.2.1
    refine h.pipe rfl rfl id hdc (order_chunking h.order ?_ rfl rfl id hdc)
    cases hpc : s.pipe.chunker <;> simp_all [chunkerDead_iff, Pipe.sendChunk]

theorem QueueOrder.sdk {m : ℕ} {ev : SdkEvent} (h : QueueOrder m s) (ht : SdkTrans s ev s') :
    QueueOrder m s' := by
  cases ht with
  | read len pipe hsdk hread =>
    obtain ⟨-, -, hdc, hpc, hmem, -⟩ := read_frame hread
    refine h.pipe rfl rfl id hdc ?_
    rcases h.order with ho | hc | hs
    · exact Or.inl ho
    · exact Or.inr (Or.inl (hc.congr hpc hmem))
    · exact Or.inr (Or.inr (hs.congr rfl id hdc))
  | readErrReader hsdk hpc =>
    exact h.pipe rfl rfl (by simp) rfl (Or.inr (Or.inr (.cleanup rfl)))
  | readErrChunker text hsdk hpc =>
    exact h.pipe rfl rfl id rfl (Or.inr (Or.inl (.cleanup rfl)))
  | finish | finishErr | cleanup | deliver =>
    refine h.pipe rfl rfl id rfl ?_
    rcases h.order with ho | hc | hs
    · exact Or.inl ho
    · exact Or.inr (Or.inl (hc.congr rfl rfl))
    · exact Or.inr (Or.inr (hs.congr rfl id rfl))

/-- The calls leave the goroutines alone. -/
theorem order_calls {m : ℕ} (h : Ordered m s ∨ ChunkerDead s ∨ ReaderStopping s)
    (hfetched : s'.fetched = s.fetched) (hpc : s'.reader = s.reader)
    (htoken : s'.cancelToken = s.cancelToken) (hpipe : s'.pipe = s.pipe) :
    Ordered m s' ∨ ChunkerDead s' ∨ ReaderStopping s' := by
  rcases h with ho | hc | hs
  · exact Or.inl (by rw [Ordered, hfetched, hpc]; exact ho)
  · exact Or.inr (Or.inl (hc.congr (by rw [hpipe]) (by rw [hpipe])))
  · exact Or.inr (Or.inr (hs.congr hpc (fun ht => htoken.trans ht) (by rw [hpipe])))

/-- A put pushes at most its own part, and none after `Done`. -/
theorem QueueOrder.put {m i : ℕ} {ev : CallEvent} {partID : ℤ} {content : List UInt8}
    {pc pc' : PutPc} (h : QueueOrder m s) (hc : CallsInv s)
    (hcall : s.calls[i]? = some (.put partID content pc))
    (ht : PutTrans md5Hex s partID content pc ev s' pc') :
    QueueOrder m { s' with calls := s.calls.set i (.put partID content pc') } := by
  obtain ⟨-, htoken, -, -, hreader, hfetched, hpipe, -⟩ := ht.frame
  rcases ht.pushed with ⟨hold, hnew, hpq⟩ | ⟨hsame, hpq⟩
  · refine ⟨?_, order_calls h.order hfetched hreader htoken hpipe, ?_⟩
    · have hperm := filterMap_set_of_none (x := partID) (f := Call.pushedPart) hcall
        (b := .put partID content pc') (by simp [Call.pushedPart, hold])
        (by simp [Call.pushedPart, hnew])
      show PqInv (((s.calls.set i (.put partID content pc')).filterMap Call.pushedPart : List ℤ) :
        Multiset ℤ) m s'.seqPQ
      rw [hpq, Multiset.coe_eq_coe.mpr hperm]
      exact h.queue.push partID
    · -- after `Done` every put has pushed
      intro hd
      have hdone : s.seqPQ.done = true := by
        refine (h.drained ?_).2.1
        rw [← hreader, ← hpipe]
        exact hd
      have := hc.pushed (hc.done hdone) _ _ pc (List.mem_of_getElem? hcall)
      exact absurd (hold.symm.trans this) (by simp)
  · refine ⟨?_, order_calls h.order hfetched hreader htoken hpipe, ?_⟩
    · have heq := filterMap_set_of_eq (f := Call.pushedPart) hcall
        (b := .put partID content pc') (by simp [Call.pushedPart, hsame])
      show PqInv (((s.calls.set i (.put partID content pc')).filterMap Call.pushedPart : List ℤ) :
        Multiset ℤ) m s'.seqPQ
      rw [hpq, heq]
      exact h.queue
    · show s'.reader = .closeData ∨ s'.pipe.dataClosed = true → _
      rw [hreader, hpipe, hpq]
      exact h.drained

theorem QueueOrder.complete {m i : ℕ} {ev : CallEvent} {parts : List CompletePart}
    {pc pc' : CompletePc} (h : QueueOrder m s) (hcall : s.calls[i]? = some (.complete parts pc))
    (ht : CompleteTrans s pc ev s' pc') :
    QueueOrder m { s' with calls := s.calls.set i (.complete parts pc') } := by
  obtain ⟨-, htoken, -, hreader, hfetched, hpipe, -, hpq⟩ := ht.frame
  have heq := filterMap_set_of_eq (f := Call.pushedPart) hcall (b := .complete parts pc') rfl
  refine ⟨?_, order_calls h.order hfetched hreader htoken hpipe, ?_⟩
  · show PqInv (((s.calls.set i (.complete parts pc')).filterMap Call.pushedPart : List ℤ) :
      Multiset ℤ) m s'.seqPQ
    rw [heq]
    rcases hpq with hpq | hpq <;> rw [hpq]
    · exact h.queue
    · exact h.queue.setDone
  · show s'.reader = .closeData ∨ s'.pipe.dataClosed = true → _
    rw [hreader, hpipe]
    intro hd
    obtain ⟨he, hdone, hst⟩ := h.drained hd
    rcases hpq with hpq | hpq <;> rw [hpq]
    · exact ⟨he, hdone, hst⟩
    · exact ⟨he, rfl, hst⟩

theorem QueueOrder.step {m : ℕ} {a : UploadAct} (h : QueueOrder m s) (hc : CallsInv s)
    (hf : FeedInv s) (ht : UploadTrans md5Hex cfg s a s') : ∃ m', QueueOrder m' s' := by
  cases ht with
  | new hnew => exact absurd (hnew.symm.trans hc.in_map) (by simp)
  | newFault hnew => exact absurd (hnew.symm.trans hc.in_map) (by simp)
  | begin request =>
    refine ⟨m, ?_, order_calls h.order rfl rfl rfl rfl, h.drained⟩
    have hnone : request.start.pushedPart = none := by cases request <;> rfl
    rw [Upload.pushedParts, List.filterMap_append, List.filterMap_cons_none hnone]
    simpa [Upload.pushedParts] using h.queue
  | put i ev partID content pc pc' t hcall ht => exact ⟨m, h.put hc hcall ht⟩
  | complete i ev parts pc pc' t hcall ht => exact ⟨m, h.complete hcall ht⟩
  | abort i ev pc pc' t hcall ht => exact absurd (List.mem_of_getElem? hcall) (hc.no_abort pc)
  | reader ev t ht => exact h.reader hf ht
  | chunker ev t ht => exact ⟨m, h.chunker hf ht⟩
  | sdk ev t ht => exact ⟨m, h.sdk ht⟩

end Zs3Server.Gateway.Multipart
