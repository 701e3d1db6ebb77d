import Zs3Server.Gateway.Multipart

/-!
# What a step of a multipart upload can do

The transitions of each party of an upload, one for each branch of the code, with the guard under
which the branch is taken and the state it leads to.  Every invariant of the upload is proved from
these, party by party.

* `PutTrans`, `CompleteTrans`, `AbortTrans`, `ReaderTrans`, `ChunkerTrans`, `SdkTrans` — the
  transitions of the parties;
* `UploadTrans` — those of the upload; `uploadStep_trans` says that there are no others, and
  `UploadTrans.step` that each of them is a step.
-/

namespace Zs3Server.Gateway.Multipart

open Lib.ByteString Lib.GoContext Lib.GoInt64
open Gateway.BatchUpload Gateway.ChunkPipe

variable {W : Type} {md5Hex : List UInt8 → GoString} {cfg : PipeConfig W} {s s' : Upload W}

/-! ### The calls -/

/-- The stages of a `PutObjectPart` of `content` as part `partID`. -/
inductive PutTrans (md5Hex : List UInt8 → GoString) (s : Upload W) (partID : ℤ)
    (content : List UInt8) : PutPc → CallEvent → Upload W → PutPc → Prop
  | create (hdir : s.dir.present = true) :
      PutTrans md5Hex s partID content .create .step { s with
        dir := { s.dir with files := Function.update s.dir.files partID (some []) } } .lookup
  | createMissing (hdir : s.dir.present = false) :
      PutTrans md5Hex s partID content .create .step s (.returned (.error .createPartFile))
  | createFault :
      PutTrans md5Hex s partID content .create .fault s (.returned (.error .createPartFile))
  | lookup (hmap : s.inFileMap = true) : PutTrans md5Hex s partID content .lookup .step s (.copy 0)
  | lookupNone (hmap : s.inFileMap = false) :
      PutTrans md5Hex s partID content .lookup .step s (.returned (.error .notFound))
  | copy (written k : ℕ) (hlt : written < content.length) (hk : 0 < k) :
      PutTrans md5Hex s partID content (.copy written) (.copy k)
        { s with dir := s.dir.write partID written ((content.drop written).take k) }
        (.copy (min (written + k) content.length))
  | copyEnd : PutTrans md5Hex s partID content (.copy content.length) .step s .push
  | copyFault (written : ℕ) :
      PutTrans md5Hex s partID content (.copy written) .fault s (.returned (.error .writePartData))
  | push :
      PutTrans md5Hex s partID content .push .step { s with seqPQ := s.seqPQ.push partID } .saveETag
  | saveETag (hdir : s.dir.present = true) :
      PutTrans md5Hex s partID content .saveETag .step { s with
        dir := { s.dir with etags := (partID, md5Hex content) :: s.dir.etags } } .updateSize
  | saveETagMissing (hdir : s.dir.present = false) :
      PutTrans md5Hex s partID content .saveETag .step s (.returned (.error .saveETag))
  | saveETagFault :
      PutTrans md5Hex s partID content .saveETag .fault s (.returned (.error .saveETag))
  | updateSize :
      PutTrans md5Hex s partID content .updateSize .step
        { s with size := s.size.update partID content.length }
        (.returned (.ok ⟨partID, md5Hex content, content.length, content.length⟩))

/-- The stages of a `CompleteMultipartUpload`. -/
inductive CompleteTrans (s : Upload W) : CompletePc → CallEvent → Upload W → CompletePc → Prop
  | lookup (hmap : s.inFileMap = true) : CompleteTrans s .lookup .step s .setDone
  | lookupNone (hmap : s.inFileMap = false) :
      CompleteTrans s .lookup .step s (.returned (.error .notFound))
  | setDone :
      CompleteTrans s .setDone .step { s with seqPQ := s.seqPQ.setDone } .waitError
  | success (res : Option GoError) (rest : List (Option GoError)) (hres : Commits res)
      (herr : s.errorC = res :: rest) :
      CompleteTrans s .waitError .step { s with errorC := rest } .construct
  | failure (err : GoError) (rest : List (Option GoError)) (hres : isSameRootError err = false)
      (herr : s.errorC = some err :: rest) :
      CompleteTrans s .waitError .step { s with errorC := rest } (.returned (.error (.upload err)))
  | construct : CompleteTrans s .construct .step s (.cleanup (constructCompleteObject s.dir))
  | constructFault :
      CompleteTrans s .construct .fault s (.returned (.error .constructObject))
  | cleanup (eTag : GoString) :
      CompleteTrans s (.cleanup eTag) .step { s with dir := PartDir.none }
        (.returned (.ok ⟨eTag, s.size.fileSize⟩))
  | cleanupFault (eTag : GoString) :
      CompleteTrans s (.cleanup eTag) .fault s (.returned (.error .cleanup))

/-- The stages of an `AbortMultipartUpload`. -/
inductive AbortTrans (s : Upload W) : AbortPc → CallEvent → Upload W → AbortPc → Prop
  | lookup (hmap : s.inFileMap = true) : AbortTrans s .lookup .step s .closeCancel
  | lookupNone (hmap : s.inFileMap = false) :
      AbortTrans s .lookup .step s (.returned (.error .abortNotFound))
  | close (hopen : s.cancelClosed = false) :
      AbortTrans s .closeCancel .step { s with cancelClosed := true } .cleanup
  | closePanic (hclosed : s.cancelClosed = true) :
      AbortTrans s .closeCancel .step s.panic .closeCancel
  | cleanup : AbortTrans s .cleanup .step { s with dir := PartDir.none } (.returned (.ok ()))
  | cleanupFault : AbortTrans s .cleanup .fault s (.returned (.error .abortCleanup))

theorem putStep_trans {partID : ℤ} {content : List UInt8} {pc pc' : PutPc} {ev : CallEvent}
    (h : putStep md5Hex s partID content pc ev = some (s', pc')) :
    PutTrans md5Hex s partID content pc ev s' pc' := by
  unfold putStep PartDir.create PartDir.saveETag at h
  split at h
  · by_cases hdir : s.dir.present = true
    · rw [if_pos hdir] at h
      obtain ⟨rfl, rfl⟩ := Prod.mk.inj (Option.some.inj h)
      exact .create hdir
    · rw [if_neg hdir] at h
      obtain ⟨rfl, rfl⟩ := Prod.mk.inj (Option.some.inj h)
      exact .createMissing (by simpa using hdir)
  · obtain ⟨rfl, rfl⟩ := Prod.mk.inj (Option.some.inj h)
    exact .createFault
  · split at h <;> next hmap =>
      obtain ⟨rfl, rfl⟩ := Prod.mk.inj (Option.some.inj h)
      first | exact .lookup hmap | exact .lookupNone (by simpa using hmap)
  · next written k =>
    split at h
    · next hc =>
      obtain ⟨rfl, rfl⟩ := Prod.mk.inj (Option.some.inj h)
      exact .copy written k hc.1 hc.2
    · exact absurd h (by simp)
  · next written =>
    split at h
    · next hc =>
      obtain ⟨rfl, rfl⟩ := Prod.mk.inj (Option.some.inj h)
      subst hc
      exact .copyEnd
    · exact absurd h (by simp)
  · next written =>
    obtain ⟨rfl, rfl⟩ := Prod.mk.inj (Option.some.inj h)
    exact .copyFault written
  · obtain ⟨rfl, rfl⟩ := Prod.mk.inj (Option.some.inj h)
    exact .push
  · by_cases hdir : s.dir.present = true
    · rw [if_pos hdir] at h
      obtain ⟨rfl, rfl⟩ := Prod.mk.inj (Option.some.inj h)
      exact .saveETag hdir
    · rw [if_neg hdir] at h
      obtain ⟨rfl, rfl⟩ := Prod.mk.inj (Option.some.inj h)
      exact .saveETagMissing (by simpa using hdir)
  · obtain ⟨rfl, rfl⟩ := Prod.mk.inj (Option.some.inj h)
    exact .saveETagFault
  · obtain ⟨rfl, rfl⟩ := Prod.mk.inj (Option.some.inj h)
    exact .updateSize
  · exact absurd h (by simp)

theorem completeStep_trans {pc pc' : CompletePc} {ev : CallEvent}
    (h : completeStep s pc ev = some (s', pc')) : CompleteTrans s pc ev s' pc' := by
  unfold completeStep at h
  split at h
  · split at h <;> next hmap =>
      obtain ⟨rfl, rfl⟩ := Prod.mk.inj (Option.some.inj h)
      first | exact .lookup hmap | exact .lookupNone (by simpa using hmap)
  · obtain ⟨rfl, rfl⟩ := Prod.mk.inj (Option.some.inj h)
    exact .setDone
  · split at h
    · exact absurd h (by simp)
    · next rest herr =>
      obtain ⟨rfl, rfl⟩ := Prod.mk.inj (Option.some.inj h)
      exact .success none rest (fun _ he => absurd he (by simp)) herr
    · next err rest herr =>
      cases hroot : isSameRootError err with
      | true =>
        rw [hroot, if_pos rfl] at h
        obtain ⟨rfl, rfl⟩ := Prod.mk.inj (Option.some.inj h)
        exact .success (some err) rest (fun e he => Option.some.inj he ▸ hroot) herr
      | false =>
        rw [hroot, if_neg (by simp)] at h
        obtain ⟨rfl, rfl⟩ := Prod.mk.inj (Option.some.inj h)
        exact .failure err rest hroot herr
  · obtain ⟨rfl, rfl⟩ := Prod.mk.inj (Option.some.inj h)
    exact .construct
  · obtain ⟨rfl, rfl⟩ := Prod.mk.inj (Option.some.inj h)
    exact .constructFault
  · next eTag =>
    obtain ⟨rfl, rfl⟩ := Prod.mk.inj (Option.some.inj h)
    exact .cleanup eTag
  · next eTag =>
    obtain ⟨rfl, rfl⟩ := Prod.mk.inj (Option.some.inj h)
    exact .cleanupFault eTag
  · exact absurd h (by simp)

theorem abortStep_trans {pc pc' : AbortPc} {ev : CallEvent}
    (h : abortStep s pc ev = some (s', pc')) : AbortTrans s pc ev s' pc' := by
  unfold abortStep at h
  split at h
  · split at h <;> next hmap =>
      obtain ⟨rfl, rfl⟩ := Prod.mk.inj (Option.some.inj h)
      first | exact .lookup hmap | exact .lookupNone (by simpa using hmap)
  · split at h <;> next hc =>
      obtain ⟨rfl, rfl⟩ := Prod.mk.inj (Option.some.inj h)
      first | exact .closePanic hc | exact .close (by simpa using hc)
  · obtain ⟨rfl, rfl⟩ := Prod.mk.inj (Option.some.inj h)
    exact .cleanup
  · obtain ⟨rfl, rfl⟩ := Prod.mk.inj (Option.some.inj h)
    exact .cleanupFault
  · exact absurd h (by simp)

/-! ### The goroutines and the SDK -/

/-- The steps of the part reader. -/
inductive ReaderTrans (s : Upload W) : ReaderEvent → Upload W → Prop
  | takeToken (hpc : s.reader = .select) (htoken : s.cancelToken = true) :
      ReaderTrans s .step { s with cancelToken := false, reader := .sendErr }
  | seeClosed (hpc : s.reader = .select) (htoken : s.cancelToken = false)
      (hclosed : s.cancelClosed = true) : ReaderTrans s .step { s with reader := .sendErr }
  | goPopup (hpc : s.reader = .select) (htoken : s.cancelToken = false)
      (hclosed : s.cancelClosed = false) : ReaderTrans s .step { s with reader := .popup }
  | popupEnd (pq : SeqPriorityQueue) (hpc : s.reader = .popup)
      (hpop : s.seqPQ.popup = some (-1, pq)) :
      ReaderTrans s .step { s with seqPQ := pq, reader := .closeData }
  | popupPart (partNumber : ℤ) (pq : SeqPriorityQueue) (hpc : s.reader = .popup)
      (hpop : s.seqPQ.popup = some (partNumber, pq)) (hne : partNumber ≠ -1) :
      ReaderTrans s .step { s with seqPQ := pq, reader := .openFile partNumber }
  | closeData (hpc : s.reader = .closeData) :
      ReaderTrans s .step { s with pipe := { s.pipe with dataClosed := true }, reader := .done }
  | openFile (partNumber : ℤ) (content : List UInt8) (hpc : s.reader = .openFile partNumber)
      (hfile : s.dir.files partNumber = some content) :
      ReaderTrans s .step { s with reader := .fetch partNumber content }
  | openMissing (partNumber : ℤ) (hpc : s.reader = .openFile partNumber)
      (hfile : s.dir.files partNumber = none) :
      ReaderTrans s .step { s with reader := .sendCancel none }
  | openFault (partNumber : ℤ) (hpc : s.reader = .openFile partNumber) :
      ReaderTrans s .fault { s with reader := .sendCancel none }
  | fetch (partNumber : ℤ) (opened : List UInt8) (hpc : s.reader = .fetch partNumber opened) :
      ReaderTrans s .step { s with
        fetched := s.fetched ++ [(partNumber, (s.dir.files partNumber).getD opened)]
        reader := .sendData partNumber ((s.dir.files partNumber).getD opened) }
  | fetchFault (partNumber : ℤ) (opened : List UInt8) (hpc : s.reader = .fetch partNumber opened) :
      ReaderTrans s .fault { s with reader := .sendCancel (some partNumber) }
  | sendData (partNumber : ℤ) (data : List UInt8) (hpc : s.reader = .sendData partNumber data)
      (hroom : s.pipe.dataC.length < dataCap) :
      ReaderTrans s .step { s with
        pipe := { s.pipe with dataC := s.pipe.dataC ++ [data] }
        reader := .remove partNumber }
  | remove (partNumber : ℤ) (hpc : s.reader = .remove partNumber) :
      ReaderTrans s .step { s with dir := s.dir.remove partNumber, reader := .select }
  | sendCancel (opened : Option ℤ) (hpc : s.reader = .sendCancel opened)
      (hclosed : s.cancelClosed = false) (htoken : s.cancelToken = false) :
      ReaderTrans s .step { s with cancelToken := true, reader := ReaderPc.afterCancel opened }
  | sendCancelPanic (opened : Option ℤ) (hpc : s.reader = .sendCancel opened)
      (hclosed : s.cancelClosed = true) : ReaderTrans s .step s.panic
  | cleanup (hpc : s.reader = .cleanup) :
      ReaderTrans s .step { s with dir := PartDir.none, reader := .done }

/-- The steps of the chunking goroutine. -/
inductive ChunkerTrans (cfg : PipeConfig W) (s : Upload W) : ChunkerEvent → Upload W → Prop
  | takeToken (hpc : s.pipe.chunker = .select) (htoken : s.cancelToken = true) :
      ChunkerTrans cfg s .cancel { s with
        cancelToken := false
        pipe := { s.pipe with chunker := .sendErr (lit "upload is canceled") } }
  | seeClosed (hpc : s.pipe.chunker = .select) (htoken : s.cancelToken = false)
      (hclosed : s.cancelClosed = true) :
      ChunkerTrans cfg s .cancel
        { s with pipe := { s.pipe with chunker := .sendErr (lit "upload is canceled") } }
  | timeout (hpc : s.pipe.chunker = .select) :
      ChunkerTrans cfg s .timeout
        { s with pipe := { s.pipe with chunker := .sendErr (lit "upload is timed out") } }
  | receive (pipe : Pipe W) (hrecv : s.pipe.receive cfg = some pipe) :
      ChunkerTrans cfg s .receive { s with pipe := pipe }
  | sendCancel (hpc : s.pipe.chunker = .sendCancel) (hclosed : s.cancelClosed = false)
      (htoken : s.cancelToken = false) :
      ChunkerTrans cfg s .step
        { s with cancelToken := true, pipe := { s.pipe with chunker := .select } }
  | sendCancelPanic (hpc : s.pipe.chunker = .sendCancel) (hclosed : s.cancelClosed = true) :
      ChunkerTrans cfg s .step s.panic
  | cleanup (hpc : s.pipe.chunker = .cleanup) :
      ChunkerTrans cfg s .step
        { s with dir := PartDir.none, pipe := { s.pipe with chunker := .done } }
  | sendChunk (pipe : Pipe W) (size : FileSize) (hsend : s.pipe.sendChunk = some pipe)
      (hsize : size = if s.pipe.chunker = .flushing [] ∧ cfg.toCompress = true then
        { s.size with fileSize := wrap64 pipe.total } else s.size) :
      ChunkerTrans cfg s .step { s with pipe := pipe, size := size }

/-- The steps of the SDK. -/
inductive SdkTrans (s : Upload W) : SdkEvent → Upload W → Prop
  | read (len : ℕ) (pipe : Pipe W) (hsdk : s.sdk = .running) (hread : s.pipe.read len = some pipe) :
      SdkTrans s (.read len) { s with pipe := pipe }
  | readErrReader (hsdk : s.sdk = .running) (hpc : s.reader = .sendErr) :
      SdkTrans s (.readErr .reader) { s with
        reader := .cleanup
        pipe := { s.pipe with
          reads := s.pipe.reads ++ [⟨[], some (.other (lit "upload is canceled"))⟩] } }
  | readErrChunker (text : GoString) (hsdk : s.sdk = .running)
      (hpc : s.pipe.chunker = .sendErr text) :
      SdkTrans s (.readErr .chunker) { s with
        pipe := { s.pipe with
          chunker := .cleanup
          reads := s.pipe.reads ++ [⟨[], some (.other text)⟩] } }
  | finish (hsdk : s.sdk = .running) (heof : readToEof s.pipe.reads = true) :
      SdkTrans s (.finish none) { s with sdk := .deliver none }
  | finishErr (err : GoError) (hsdk : s.sdk = .running)
      (heof : isSameRootError err = true → readToEof s.pipe.reads = true) :
      SdkTrans s (.finish (some err)) { s with sdk := .cleanup err }
  | cleanup (err : GoError) (hsdk : s.sdk = .cleanup err) :
      SdkTrans s .step { s with dir := PartDir.none, sdk := .deliver (some err) }
  | deliver (res : Option GoError) (hsdk : s.sdk = .deliver res) (hroom : s.errorC.length < 1) :
      SdkTrans s .step { s with errorC := s.errorC ++ [res], sdk := .done }

theorem readerStep_trans {ev : ReaderEvent} (h : readerStep s ev = some s') :
    ReaderTrans s ev s' := by
  unfold readerStep at h
  split at h
  · next hpc =>
    split at h
    · next htoken =>
      obtain rfl := Option.some.inj h
      exact .takeToken hpc htoken
    · next htoken =>
      split at h
      · next hclosed =>
        obtain rfl := Option.some.inj h
        exact .seeClosed hpc (by simpa using htoken) hclosed
      · next hclosed =>
        obtain rfl := Option.some.inj h
        exact .goPopup hpc (by simpa using htoken) (by simpa using hclosed)
  · next hpc =>
    split at h
    · next partNumber pq hpop =>
      split at h
      · next hv =>
        subst hv
        obtain rfl := Option.some.inj h
        exact .popupEnd pq hpc hpop
      · next hv =>
        obtain rfl := Option.some.inj h
        exact .popupPart partNumber pq hpc hpop hv
    · exact absurd h (by simp)
  · next hpc =>
    obtain rfl := Option.some.inj h
    exact .closeData hpc
  · next partNumber hpc =>
    split at h
    · next content hfile =>
      obtain rfl := Option.some.inj h
      exact .openFile partNumber content hpc hfile
    · next hfile =>
      obtain rfl := Option.some.inj h
      exact .openMissing partNumber hpc hfile
  · next partNumber hpc =>
    obtain rfl := Option.some.inj h
    exact .openFault partNumber hpc
  · next partNumber opened hpc =>
    obtain rfl := Option.some.inj h
    exact .fetch partNumber opened hpc
  · next partNumber opened hpc =>
    obtain rfl := Option.some.inj h
    exact .fetchFault partNumber opened hpc
  · next partNumber data hpc =>
    split at h
    · next hroom =>
      obtain rfl := Option.some.inj h
      exact .sendData partNumber data hpc hroom
    · exact absurd h (by simp)
  · next partNumber hpc =>
    obtain rfl := Option.some.inj h
    exact .remove partNumber hpc
  · next opened hpc =>
    split at h
    · next hclosed =>
      obtain rfl := Option.some.inj h
      exact .sendCancelPanic opened hpc hclosed
    · next hclosed =>
      split at h
      · exact absurd h (by simp)
      · next htoken =>
        obtain rfl := Option.some.inj h
        exact .sendCancel opened hpc (by simpa using hclosed) (by simpa using htoken)
  · next hpc =>
    obtain rfl := Option.some.inj h
    exact .cleanup hpc
  · exact absurd h (by simp)

theorem chunkerStep_trans {ev : ChunkerEvent} (h : chunkerStep cfg s ev = some s') :
    ChunkerTrans cfg s ev s' := by
  cases ev with
  | cancel =>
    simp only [chunkerStep] at h
    split at h
    · next hpc =>
      split at h
      · next htoken =>
        obtain rfl := Option.some.inj h
        exact .takeToken hpc htoken
      · next htoken =>
        split at h
        · next hclosed =>
          obtain rfl := Option.some.inj h
          exact .seeClosed hpc (by simpa using htoken) hclosed
        · exact absurd h (by simp)
    · exact absurd h (by simp)
  | timeout =>
    simp only [chunkerStep] at h
    split at h
    · next hpc =>
      obtain rfl := Option.some.inj h
      exact .timeout hpc
    · exact absurd h (by simp)
  | receive =>
    simp only [chunkerStep, Option.map_eq_some_iff] at h
    obtain ⟨pipe, hrecv, rfl⟩ := h
    exact .receive pipe hrecv
  | step =>
    simp only [chunkerStep] at h
    split at h
    · next hpc =>
      split at h
      · next hclosed =>
        obtain rfl := Option.some.inj h
        exact .sendCancelPanic hpc hclosed
      · next hclosed =>
        split at h
        · exact absurd h (by simp)
        · next htoken =>
          obtain rfl := Option.some.inj h
          exact .sendCancel hpc (by simpa using hclosed) (by simpa using htoken)
    · next hpc =>
      obtain rfl := Option.some.inj h
      exact .cleanup hpc
    · next hpc =>
      obtain ⟨pipe, hsend, rfl⟩ := Option.map_eq_some_iff.mp h
      refine .sendChunk pipe _ hsend ?_
      simp [hpc]
    · next hpc =>
      obtain ⟨pipe, hsend, rfl⟩ := Option.map_eq_some_iff.mp h
      refine .sendChunk pipe s.size hsend ?_
      rw [if_neg]
      rintro ⟨hf, -⟩
      exact hpc hf

theorem sdkStep_trans {ev : SdkEvent} (h : sdkStep s ev = some s') : SdkTrans s ev s' := by
  cases ev with
  | read len =>
    simp only [sdkStep] at h
    split at h
    · next hsdk =>
      obtain ⟨pipe, hread, rfl⟩ := Option.map_eq_some_iff.mp h
      exact .read len pipe hsdk hread
    · exact absurd h (by simp)
  | readErr sender =>
    cases sender with
    | reader =>
      simp only [sdkStep] at h
      split at h
      · next hc =>
        obtain rfl := Option.some.inj h
        exact .readErrReader hc.1 hc.2
      · exact absurd h (by simp)
    | chunker =>
      simp only [sdkStep] at h
      split at h
      · next text hsdk hpc =>
        obtain rfl := Option.some.inj h
        exact .readErrChunker text hsdk hpc
      · exact absurd h (by simp)
  | finish res =>
    simp only [sdkStep] at h
    split at h
    · next hc =>
      cases res with
      | some err =>
        obtain rfl := Option.some.inj h
        exact .finishErr err hc.1 (by simpa using hc.2)
      | none =>
        obtain rfl := Option.some.inj h
        exact .finish hc.1 (by simpa using hc.2)
    · exact absurd h (by simp)
  | step =>
    simp only [sdkStep] at h
    split at h
    · next err hsdk =>
      obtain rfl := Option.some.inj h
      exact .cleanup err hsdk
    · next res hsdk =>
      split at h
      · next hroom =>
        obtain rfl := Option.some.inj h
        exact .deliver res hsdk hroom
      · exact absurd h (by simp)
    · exact absurd h (by simp)

/-! ### The upload -/

/-- The steps of an upload. -/
inductive UploadTrans (md5Hex : List UInt8 → GoString) (cfg : PipeConfig W) (s : Upload W) :
    UploadAct → Upload W → Prop
  | new (hmap : s.inFileMap = false) : UploadTrans md5Hex cfg s (.new true) s.started
  | newFault (hmap : s.inFileMap = false) :
      UploadTrans md5Hex cfg s (.new false) { s with inFileMap := true }
  | begin (request : Request) :
      UploadTrans md5Hex cfg s (.begin request) { s with calls := s.calls ++ [request.start] }
  | put (i : ℕ) (ev : CallEvent) (partID : ℤ) (content : List UInt8) (pc pc' : PutPc) (t : Upload W)
      (hcall : s.calls[i]? = some (.put partID content pc))
      (ht : PutTrans md5Hex s partID content pc ev t pc') :
      UploadTrans md5Hex cfg s (.call i ev)
        { t with calls := s.calls.set i (.put partID content pc') }
  | complete (i : ℕ) (ev : CallEvent) (parts : List CompletePart) (pc pc' : CompletePc) (t : Upload W)
      (hcall : s.calls[i]? = some (.complete parts pc)) (ht : CompleteTrans s pc ev t pc') :
      UploadTrans md5Hex cfg s (.call i ev) { t with calls := s.calls.set i (.complete parts pc') }
  | abort (i : ℕ) (ev : CallEvent) (pc pc' : AbortPc) (t : Upload W)
      (hcall : s.calls[i]? = some (.abort pc)) (ht : AbortTrans s pc ev t pc') :
      UploadTrans md5Hex cfg s (.call i ev) { t with calls := s.calls.set i (.abort pc') }
  | reader (ev : ReaderEvent) (t : Upload W) (ht : ReaderTrans s ev t) :
      UploadTrans md5Hex cfg s (.reader ev) t
  | chunker (ev : ChunkerEvent) (t : Upload W) (ht : ChunkerTrans cfg s ev t) :
      UploadTrans md5Hex cfg s (.chunker ev) t
  | sdk (ev : SdkEvent) (t : Upload W) (ht : SdkTrans s ev t) : UploadTrans md5Hex cfg s (.sdk ev) t

/-- **Every step is one of the transitions**, taken before any panic. -/
theorem uploadStep_trans {a : UploadAct} (h : uploadStep md5Hex cfg s a = some s') :
    s.panicked = false ∧ UploadTrans md5Hex cfg s a s' := by
  unfold uploadStep at h
  split at h
  · exact absurd h (by simp)
  · next hpanic =>
    refine ⟨by simpa using hpanic, ?_⟩
    split at h
    · next mkdir =>
      split at h
      · exact absurd h (by simp)
      · next hmap =>
        have hmap' : s.inFileMap = false := by simpa using hmap
        cases mkdir with
        | true =>
          obtain rfl := Option.some.inj h
          exact .new hmap'
        | false =>
          obtain rfl := Option.some.inj h
          exact .newFault hmap'
    · next request =>
      obtain rfl := Option.some.inj h
      exact .begin request
    · next i ev =>
      unfold callStep at h
      split at h
      · next partID content pc hcall =>
        obtain ⟨⟨t, pc'⟩, hput, rfl⟩ := Option.map_eq_some_iff.mp h
        exact .put i ev partID content pc pc' t hcall (putStep_trans hput)
      · next parts pc hcall =>
        obtain ⟨⟨t, pc'⟩, hcomplete, rfl⟩ := Option.map_eq_some_iff.mp h
        exact .complete i ev parts pc pc' t hcall (completeStep_trans hcomplete)
      · next pc hcall =>
        obtain ⟨⟨t, pc'⟩, habort, rfl⟩ := Option.map_eq_some_iff.mp h
        exact .abort i ev pc pc' t hcall (abortStep_trans habort)
      · exact absurd h (by simp)
    · next ev => exact .reader ev s' (readerStep_trans h)
    · next ev => exact .chunker ev s' (chunkerStep_trans h)
    · next ev => exact .sdk ev s' (sdkStep_trans h)

/-! ### Every transition is a step -/

theorem PutTrans.step {partID : ℤ} {content : List UInt8} {pc pc' : PutPc} {ev : CallEvent}
    (h : PutTrans md5Hex s partID content pc ev s' pc') :
    putStep md5Hex s partID content pc ev = some (s', pc') := by
  cases h <;> simp_all [putStep, PartDir.create, PartDir.saveETag]

theorem CompleteTrans.step {pc pc' : CompletePc} {ev : CallEvent}
    (h : CompleteTrans s pc ev s' pc') : completeStep s pc ev = some (s', pc') := by
  cases h with
  | success res rest hres herr =>
    cases res with
    | none => simp [completeStep, herr]
    | some err => simp [completeStep, herr, hres err rfl]
  | _ => simp_all [completeStep]

theorem AbortTrans.step {pc pc' : AbortPc} {ev : CallEvent} (h : AbortTrans s pc ev s' pc') :
    abortStep s pc ev = some (s', pc') := by
  cases h <;> simp_all [abortStep]

theorem ReaderTrans.step {ev : ReaderEvent} (h : ReaderTrans s ev s') :
    readerStep s ev = some s' := by
  cases h <;> simp_all [readerStep]

theorem SdkTrans.step {ev : SdkEvent} (h : SdkTrans s ev s') : sdkStep s ev = some s' := by
  cases h <;> simp_all [sdkStep]

theorem ChunkerTrans.step {ev : ChunkerEvent} (h : ChunkerTrans cfg s ev s') :
    chunkerStep cfg s ev = some s' := by
  cases h with
  | sendChunk pipe size hsend hsize =>
    subst hsize
    cases hpc : s.pipe.chunker with
    | flushing chunks =>
      cases chunks with
      | nil => simp [chunkerStep, hpc, hsend]
      | cons c cs => simp [chunkerStep, hpc, hsend]
    | sending chunks => simp [chunkerStep, hpc, hsend]
    | _ => simp [Pipe.sendChunk, hpc] at hsend
  | _ => simp_all [chunkerStep]

theorem UploadTrans.step {a : UploadAct} (hpanic : s.panicked = false)
    (h : UploadTrans md5Hex cfg s a s') : uploadStep md5Hex cfg s a = some s' := by
  unfold uploadStep
  rw [if_neg (by simp [hpanic])]
  cases h with
  | new hmap => simp [hmap]
  | newFault hmap => simp [hmap]
  | begin request => rfl
  | put i ev partID content pc pc' t hcall ht => simp [callStep, hcall, ht.step]
  | complete i ev parts pc pc' t hcall ht => simp [callStep, hcall, ht.step]
  | abort i ev pc pc' t hcall ht => simp [callStep, hcall, ht.step]
  | reader ev t ht => exact ht.step
  | chunker ev t ht => exact ht.step
  | sdk ev t ht => exact ht.step

end Zs3Server.Gateway.Multipart
