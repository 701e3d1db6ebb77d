import Zs3Server.Lib.GoInt64
import Zs3Server.Gateway.SeqPriorityQueue
import Zs3Server.Gateway.BatchUpload
import Zs3Server.Gateway.ChunkPipe

/-!
# Multipart uploads

One multipart upload with everything that runs on its behalf: the calls of `PutObjectPart`,
`CompleteMultipartUpload` and `AbortMultipartUpload`, the goroutine that reads the parts in order, the
chunking goroutine, and the SDK's `DoMultiOperation`, which reads the object from `memFile`.  They
share the part directory, the sequential queue of part numbers and the channels `cancelC`, `dataC`,
`memFileDataChan`, `errChan` and `errorC`.

A step of the model is one channel operation, one queue operation, one file operation or one stage of
a call; which of the enabled steps happens, when a file operation fails, and what the SDK returns is
given by the action.  The three Go functions and the two goroutines are `putStep`, `completeStep`,
`abortStep`, `readerStep` and `chunkerStep`.

Of the SDK it is assumed that `DoMultiOperation` returns nil or a same-root error only after it has
read its stream to `io.EOF` without another error.
-/

namespace Zs3Server.Gateway.Multipart

open Lib.ByteString Lib.GoContext Lib.GoInt64
open Gateway.BatchUpload Gateway.ChunkPipe

/-! ### The part directory -/

/-- The directory of one upload ID: whether it is there, the part files by part number, and the
`.etag` files. -/
structure PartDir where
  present : Bool
  files : ℤ → Option (List UInt8)
  etags : List (ℤ × GoString)

/-- No directory. -/
def PartDir.none : PartDir := ⟨false, fun _ => Option.none, []⟩

/-- `os.Create` of a part file: it truncates the file if it is there, and fails without the
directory. -/
def PartDir.create (dir : PartDir) (partID : ℤ) : Option PartDir :=
  if dir.present then some { dir with files := Function.update dir.files partID (some []) }
  else Option.none

/-- A write at an offset of an open part file; it is lost if the file has been removed. -/
def PartDir.write (dir : PartDir) (partID : ℤ) (offset : ℕ) (data : List UInt8) : PartDir :=
  match dir.files partID with
  | some content =>
    { dir with
      files := Function.update dir.files partID
        (some (content.take offset ++ List.replicate (offset - content.length) 0 ++ data ++
          content.drop (offset + data.length))) }
  | Option.none => dir

/-- `os.Remove` of a part file. -/
def PartDir.remove (dir : PartDir) (partID : ℤ) : PartDir :=
  { dir with files := Function.update dir.files partID Option.none }

/-- `os.WriteFile` of a part's `.etag` file. -/
def PartDir.saveETag (dir : PartDir) (partID : ℤ) (eTag : GoString) : Option PartDir :=
  if dir.present then some { dir with etags := (partID, eTag) :: dir.etags } else Option.none

/-- The content of a part's `.etag` file. -/
def PartDir.eTag (dir : PartDir) (partID : ℤ) : Option GoString :=
  (dir.etags.find? fun e => e.1 == partID).map Prod.snd

/-- The ETags of consecutive parts from `partNumber` on, for at most `fuel` parts. -/
def PartDir.eTagsFrom (dir : PartDir) : ℕ → ℤ → GoString
  | 0, _ => []
  | fuel + 1, partNumber =>
    match dir.eTag partNumber with
    | some eTag => eTag ++ dir.eTagsFrom fuel (partNumber + 1)
    | Option.none => []

/-- `constructCompleteObject`: the concatenated ETags of parts 1, 2, … up to the first missing one;
there are at most as many as `.etag` files. -/
def constructCompleteObject (dir : PartDir) : GoString := dir.eTagsFrom dir.etags.length 1

/-! ### The size accounting -/

/-- The size fields of `MultiPartFile`. -/
structure FileSize where
  fileSize : ℤ
  lastPartSize : ℤ
  lastPartID : ℤ
  lastPartUpdated : Bool

/-- `UpdateFileSize`. -/
def FileSize.update (f : FileSize) (partID size : ℤ) : FileSize :=
  if f.lastPartUpdated then f
  else if f.lastPartSize = 0 then
    { f with lastPartSize := size, lastPartID := partID, fileSize := wrap64 (f.fileSize + size) }
  else if f.lastPartSize < size then
    { f with
      fileSize := wrap64 ((f.lastPartID - 1) * size + f.lastPartSize)
      lastPartSize := size }
  else if size = f.lastPartSize then { f with fileSize := wrap64 (f.fileSize + size) }
  else
    { f with
      fileSize := wrap64 ((partID - 1) * f.lastPartSize + size)
      lastPartUpdated := true }

/-! ### Calls -/

/-- The errors of the three calls. -/
inductive CallError where
  | createPartFile
  | notFound
  | writePartData
  | saveETag
  | upload (err : GoError)
  | constructObject
  | cleanup
  | abortNotFound
  | abortCleanup
  deriving DecidableEq

/-- The text of an error, where `osErr` is the text of the file error that caused it. -/
def CallError.text (uploadID osErr : GoString) : CallError → GoString
  | .createPartFile => lit "error creating part file: " ++ osErr
  | .notFound => lit "uploadID: " ++ uploadID ++ lit " not found"
  | .writePartData => lit "error writing part data: " ++ osErr
  | .saveETag => lit "error saving ETag file: " ++ osErr
  | .upload err => lit "error uploading to Zus storage: " ++ err.text
  | .constructObject => lit "error constructing complete object: " ++ osErr
  | .cleanup => lit "error cleaning up part files and directories: " ++ osErr
  | .abortNotFound => lit "abort - uploadID: " ++ uploadID ++ lit " not found"
  | .abortCleanup => osErr

/-- An entry of the list `CompleteMultipartUpload` is called with. -/
structure CompletePart where
  partNumber : ℤ
  eTag : GoString
  deriving DecidableEq

/-- The result of `PutObjectPart`. -/
structure PartInfo where
  partNumber : ℤ
  eTag : GoString
  size : ℤ
  actualSize : ℤ
  deriving DecidableEq

/-- The result of `CompleteMultipartUpload`, without the names it was called with. -/
structure ObjectInfo where
  eTag : GoString
  size : ℤ
  deriving DecidableEq

/-- Where a `PutObjectPart` is; `copy` counts the bytes written so far. -/
inductive PutPc where
  | create
  | lookup
  | copy (written : ℕ)
  | push
  | saveETag
  | updateSize
  | returned (res : Except CallError PartInfo)

/-- Where a `CompleteMultipartUpload` is. -/
inductive CompletePc where
  | lookup
  | setDone
  | waitError
  | construct
  | cleanup (eTag : GoString)
  | returned (res : Except CallError ObjectInfo)

/-- Where an `AbortMultipartUpload` is. -/
inductive AbortPc where
  | lookup
  | closeCancel
  | cleanup
  | returned (res : Except CallError Unit)

/-- A call with its arguments and position. -/
inductive Call where
  | put (partID : ℤ) (content : List UInt8) (pc : PutPc)
  | complete (parts : List CompletePart) (pc : CompletePc)
  | abort (pc : AbortPc)

/-- A call that arrives. -/
inductive Request where
  | put (partID : ℤ) (content : List UInt8)
  | complete (parts : List CompletePart)
  | abort

/-- The call a request starts. -/
def Request.start : Request → Call
  | .put partID content => .put partID content .create
  | .complete parts => .complete parts .lookup
  | .abort => .abort .lookup

/-! ### The upload -/

/-- Where the goroutine is that reads the parts.  `fetch` holds the content of the opened file;
`sendCancel` is a pending send on `cancelC`, with the opened part whose file is removed
afterwards. -/
inductive ReaderPc where
  | idle
  | select
  | popup
  | openFile (partNumber : ℤ)
  | fetch (partNumber : ℤ) (opened : List UInt8)
  | sendData (partNumber : ℤ) (data : List UInt8)
  | remove (partNumber : ℤ)
  | sendCancel (opened : Option ℤ)
  | closeData
  | sendErr
  | cleanup
  | done
  deriving DecidableEq

/-- Where the SDK's `DoMultiOperation` and the goroutine around it are. -/
inductive SdkPc where
  | idle
  | running
  | cleanup (err : GoError)
  | deliver (res : Option GoError)
  | done
  deriving DecidableEq

/-- One upload ID: its entry in `FileMap`, its directory, the fields of its `MultiPartFile`, the two
goroutines, the SDK and the calls so far.  `cancelC` has room for one token and may be closed;
`fetched` logs the parts the reader has read; `panicked` records that a goroutine or call has
panicked, which ends the server. -/
structure Upload (W : Type) where
  inFileMap : Bool
  dir : PartDir
  seqPQ : SeqPriorityQueue
  cancelToken : Bool
  cancelClosed : Bool
  errorC : List (Option GoError)
  size : FileSize
  reader : ReaderPc
  fetched : List (ℤ × List UInt8)
  pipe : Pipe W
  sdk : SdkPc
  calls : List Call
  panicked : Bool

variable {W : Type}

/-- An upload ID that has not been handed out. -/
def Upload.absent (cfg : PipeConfig W) : Upload W where
  inFileMap := false
  dir := PartDir.none
  seqPQ := newSeqPriorityQueue
  cancelToken := false
  cancelClosed := false
  errorC := []
  size := ⟨0, 0, 0, false⟩
  reader := .idle
  fetched := []
  pipe := Pipe.new cfg
  sdk := .idle
  calls := []
  panicked := false

/-- The state after `newMultiPartUpload` has entered the upload into `FileMap`, made the directory
and started its goroutines. -/
def Upload.started (s : Upload W) : Upload W :=
  { s with
    inFileMap := true
    dir := { s.dir with present := true }
    reader := .select
    pipe := { s.pipe with chunker := .select }
    sdk := .running }

/-- A panic: a send on the closed `cancelC`, or a second close of it. -/
def Upload.panic (s : Upload W) : Upload W := { s with panicked := true }

/-! ### The steps of the calls -/

/-- How a stage of a call goes: well, with a failure of the file system or of the request body, or,
while a part is copied, with a write of up to `k` bytes. -/
inductive CallEvent where
  | step
  | fault
  | copy (k : ℕ)
  deriving DecidableEq

/-- `PutObjectPart`.  `md5Hex` is the ETag of a content. -/
def putStep (md5Hex : List UInt8 → GoString) (s : Upload W) (partID : ℤ) (content : List UInt8) :
    PutPc → CallEvent → Option (Upload W × PutPc)
  | .create, .step =>
    match s.dir.create partID with
    | some dir => some ({ s with dir := dir }, .lookup)
    | none => some (s, .returned (.error .createPartFile))
  | .create, .fault => some (s, .returned (.error .createPartFile))
  | .lookup, .step =>
    if s.inFileMap then some (s, .copy 0) else some (s, .returned (.error .notFound))
  | .copy written, .copy k =>
    if written < content.length ∧ 0 < k then
      some ({ s with dir := s.dir.write partID written ((content.drop written).take k) },
        .copy (min (written + k) content.length))
    else none
  | .copy written, .step => if written = content.length then some (s, .push) else none
  | .copy _, .fault => some (s, .returned (.error .writePartData))
  | .push, .step => some ({ s with seqPQ := s.seqPQ.push partID }, .saveETag)
  | .saveETag, .step =>
    match s.dir.saveETag partID (md5Hex content) with
    | some dir => some ({ s with dir := dir }, .updateSize)
    | none => some (s, .returned (.error .saveETag))
  | .saveETag, .fault => some (s, .returned (.error .saveETag))
  | .updateSize, .step =>
    some ({ s with size := s.size.update partID content.length },
      .returned (.ok ⟨partID, md5Hex content, content.length, content.length⟩))
  | _, _ => none

/-- `CompleteMultipartUpload`: the list of parts it is called with is not used. -/
def completeStep (s : Upload W) : CompletePc → CallEvent → Option (Upload W × CompletePc)
  | .lookup, .step =>
    if s.inFileMap then some (s, .setDone) else some (s, .returned (.error .notFound))
  | .setDone, .step => some ({ s with seqPQ := s.seqPQ.setDone }, .waitError)
  | .waitError, .step =>
    match s.errorC with
    | [] => none
    | none :: rest => some ({ s with errorC := rest }, .construct)
    | some err :: rest =>
      some ({ s with errorC := rest },
        if isSameRootError err then .construct else .returned (.error (.upload err)))
  | .construct, .step => some (s, .cleanup (constructCompleteObject s.dir))
  | .construct, .fault => some (s, .returned (.error .constructObject))
  | .cleanup eTag, .step =>
    some ({ s with dir := PartDir.none }, .returned (.ok ⟨eTag, s.size.fileSize⟩))
  | .cleanup _, .fault => some (s, .returned (.error .cleanup))
  | _, _ => none

/-- `AbortMultipartUpload`. -/
def abortStep (s : Upload W) : AbortPc → CallEvent → Option (Upload W × AbortPc)
  | .lookup, .step =>
    if s.inFileMap then some (s, .closeCancel) else some (s, .returned (.error .abortNotFound))
  | .closeCancel, .step =>
    if s.cancelClosed then some (s.panic, .closeCancel)
    else some ({ s with cancelClosed := true }, .cleanup)
  | .cleanup, .step => some ({ s with dir := PartDir.none }, .returned (.ok ()))
  | .cleanup, .fault => some (s, .returned (.error .abortCleanup))
  | _, _ => none

/-- A stage of call `i`. -/
def callStep (md5Hex : List UInt8 → GoString) (s : Upload W) (i : ℕ) (ev : CallEvent) :
    Option (Upload W) :=
  match s.calls[i]? with
  | some (.put partID content pc) =>
    (putStep md5Hex s partID content pc ev).map fun r =>
      { r.1 with calls := s.calls.set i (.put partID content r.2) }
  | some (.complete parts pc) =>
    (completeStep s pc ev).map fun r => { r.1 with calls := s.calls.set i (.complete parts r.2) }
  | some (.abort pc) =>
    (abortStep s pc ev).map fun r => { r.1 with calls := s.calls.set i (.abort r.2) }
  | none => none

/-! ### The steps of the goroutines -/

/-- How a step of the part reader goes: well, or with a failure of the file system. -/
inductive ReaderEvent where
  | step
  | fault
  deriving DecidableEq

/-- Where the part reader goes after its send on `cancelC`: an opened file is still removed. -/
def ReaderPc.afterCancel : Option ℤ → ReaderPc
  | some partNumber => .remove partNumber
  | none => .select

/-- The goroutine that reads the parts.  `Stat` and `ReadFull` are one step, as their errors take the
same branch; a file removed under it can still be read. -/
def readerStep (s : Upload W) (ev : ReaderEvent) : Option (Upload W) :=
  match s.reader, ev with
  | .select, .step =>
    if s.cancelToken then some { s with cancelToken := false, reader := .sendErr }
    else if s.cancelClosed then some { s with reader := .sendErr }
    else some { s with reader := .popup }
  | .popup, .step =>
    match s.seqPQ.popup with
    | some (partNumber, pq) =>
      if partNumber = -1 then some { s with seqPQ := pq, reader := .closeData }
      else some { s with seqPQ := pq, reader := .openFile partNumber }
    | none => none
  | .closeData, .step =>
    some { s with pipe := { s.pipe with dataClosed := true }, reader := .done }
  | .openFile partNumber, .step =>
    match s.dir.files partNumber with
    | some content => some { s with reader := .fetch partNumber content }
    | none => some { s with reader := .sendCancel none }
  | .openFile _, .fault => some { s with reader := .sendCancel none }
  | .fetch partNumber opened, .step =>
    some { s with
      fetched := s.fetched ++ [(partNumber, (s.dir.files partNumber).getD opened)]
      reader := .sendData partNumber ((s.dir.files partNumber).getD opened) }
  | .fetch partNumber _, .fault => some { s with reader := .sendCancel (some partNumber) }
  | .sendData partNumber data, .step =>
    if s.pipe.dataC.length < dataCap then
      some { s with
        pipe := { s.pipe with dataC := s.pipe.dataC ++ [data] }
        reader := .remove partNumber }
    else none
  | .remove partNumber, .step =>
    some { s with dir := s.dir.remove partNumber, reader := .select }
  | .sendCancel opened, .step =>
    if s.cancelClosed then some s.panic
    else if s.cancelToken then none
    else
      some { s with cancelToken := true, reader := ReaderPc.afterCancel opened }
  | .cleanup, .step => some { s with dir := PartDir.none, reader := .done }
  | _, _ => none

/-- Which case of its `select` the chunking goroutine takes, or its next step outside of it. -/
inductive ChunkerEvent where
  | cancel
  | timeout
  | receive
  | step
  deriving DecidableEq

/-- The chunking goroutine. -/
def chunkerStep (cfg : PipeConfig W) (s : Upload W) : ChunkerEvent → Option (Upload W)
  | .cancel =>
    if s.pipe.chunker = .select then
      if s.cancelToken then
        some { s with
          cancelToken := false
          pipe := { s.pipe with chunker := .sendErr (lit "upload is canceled") } }
      else if s.cancelClosed then
        some { s with pipe := { s.pipe with chunker := .sendErr (lit "upload is canceled") } }
      else none
    else none
  | .timeout =>
    if s.pipe.chunker = .select then
      some { s with pipe := { s.pipe with chunker := .sendErr (lit "upload is timed out") } }
    else none
  | .receive => (s.pipe.receive cfg).map fun pipe => { s with pipe := pipe }
  | .step =>
    match s.pipe.chunker with
    | .sendCancel =>
      if s.cancelClosed then some s.panic
      else if s.cancelToken then none
      else some { s with cancelToken := true, pipe := { s.pipe with chunker := .select } }
    | .cleanup => some { s with dir := PartDir.none, pipe := { s.pipe with chunker := .done } }
    | .flushing [] =>
      s.pipe.sendChunk.map fun pipe => { s with
        pipe := pipe
        size := if cfg.toCompress then { s.size with fileSize := wrap64 pipe.total } else s.size }
    | _ => s.pipe.sendChunk.map fun pipe => { s with pipe := pipe }

/-- The goroutines that send on `errChan`. -/
inductive Sender where
  | reader
  | chunker
  deriving DecidableEq

/-- A `memFile.Read` with a buffer of `len` bytes, one that receives an error from a goroutine, the
end of `DoMultiOperation`, or a step after it. -/
inductive SdkEvent where
  | read (len : ℕ)
  | readErr (sender : Sender)
  | finish (res : Option GoError)
  | step
  deriving DecidableEq

/-- The stream has been read to `io.EOF`, without another error. -/
def readToEof (reads : List MemFileData) : Bool :=
  reads.any (fun r => r.err = some .eof) &&
    reads.all (fun r => r.err = none || r.err = some .eof)

/-- The SDK's `DoMultiOperation` on the upload's stream, and the goroutine that reports its
result. -/
def sdkStep (s : Upload W) : SdkEvent → Option (Upload W)
  | .read len =>
    if s.sdk = .running then (s.pipe.read len).map fun pipe => { s with pipe := pipe } else none
  | .readErr .reader =>
    if s.sdk = .running ∧ s.reader = .sendErr then
      some { s with
        reader := .cleanup
        pipe := { s.pipe with
          reads := s.pipe.reads ++ [⟨[], some (.other (lit "upload is canceled"))⟩] } }
    else none
  | .readErr .chunker =>
    match s.sdk, s.pipe.chunker with
    | .running, .sendErr text =>
      some { s with
        pipe := { s.pipe with
          chunker := .cleanup
          reads := s.pipe.reads ++ [⟨[], some (.other text)⟩] } }
    | _, _ => none
  | .finish res =>
    if s.sdk = .running ∧ (res.all isSameRootError = true → readToEof s.pipe.reads = true) then
      match res with
      | some err => some { s with sdk := .cleanup err }
      | none => some { s with sdk := .deliver none }
    else none
  | .step =>
    match s.sdk with
    | .cleanup err => some { s with dir := PartDir.none, sdk := .deliver (some err) }
    | .deliver res =>
      if s.errorC.length < 1 then some { s with errorC := s.errorC ++ [res], sdk := .done } else none
    | _ => none

/-! ### The whole upload -/

/-- The actions: `NewMultipartUpload` (which may fail to make the directory, after the entry in
`FileMap`), the arrival of a call, and the steps of the calls, the goroutines and the SDK. -/
inductive UploadAct where
  | new (mkdir : Bool)
  | begin (request : Request)
  | call (i : ℕ) (ev : CallEvent)
  | reader (ev : ReaderEvent)
  | chunker (ev : ChunkerEvent)
  | sdk (ev : SdkEvent)

/-- One step; after a panic there is none. -/
def uploadStep (md5Hex : List UInt8 → GoString) (cfg : PipeConfig W) (s : Upload W) (a : UploadAct) :
    Option (Upload W) :=
  if s.panicked then none
  else
    match a with
    | .new mkdir =>
      if s.inFileMap then none
      else if mkdir then some s.started
      else some { s with inFileMap := true }
    | .begin request => some { s with calls := s.calls ++ [request.start] }
    | .call i ev => callStep md5Hex s i ev
    | .reader ev => readerStep s ev
    | .chunker ev => chunkerStep cfg s ev
    | .sdk ev => sdkStep s ev

end Zs3Server.Gateway.Multipart
