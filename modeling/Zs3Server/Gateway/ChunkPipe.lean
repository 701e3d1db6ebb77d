import Zs3Server.Lib.ByteString
import Zs3Server.Lib.Chunks

/-!
# The chunking goroutine and `memFile`

Between the part reader and the SDK's upload stands a pipe: part contents arrive on `dataC`, the
chunking goroutine writes them to a buffer (through an lz4 writer if the upload is compressed), cuts
whole chunks off the buffer and sends them on `memFileDataChan`, and `memFile.Read` hands one chunk to
each call.  While more data may come the goroutine keeps the last whole chunk back, so that the final
flush can mark the last chunk with `io.EOF`.

Here are the operations of the pipe and its invariant; who takes which step when is the matter of the
upload machine.

* `PipeConfig.encode`, `PipeConfig.output` — the bytes the goroutine writes for a list of blocks;
* `PipeFacts` — the bytes read, in flight and buffered are always that output, cut into full chunks;
* `PipeFacts.receive`, `PipeFacts.sendChunk`, `PipeFacts.read` — kept by the operations;
* `PipeFacts.eof_output` — once a read has returned `io.EOF`, the reads are the whole output;
* `PipeFacts.reads_full` — every read before the last data-bearing one has a whole chunk.
-/

namespace Zs3Server.Gateway.ChunkPipe

open Lib.ByteString Lib.Chunks

/-! ### `memFile` -/

/-- The errors a `Read` can return. -/
inductive ReadError where
  | eof
  | shortBuffer
  | other (text : GoString)
  deriving DecidableEq

/-- `memFileData`: some bytes and an error.  The same pair is the result of a `Read`. -/
structure MemFileData where
  buf : List UInt8
  err : Option ReadError
  deriving DecidableEq

/-- `memFile.Read` into a buffer of `len` bytes, when it has received `data` from `memFileDataChan`
(`none`: the channel is closed). -/
def memFileRead (data : Option MemFileData) (len : ℕ) : MemFileData :=
  match data with
  | none => ⟨[], some .eof⟩
  | some data =>
    if data.err ≠ none ∧ data.err ≠ some .eof then ⟨[], data.err⟩
    else if len < data.buf.length then ⟨[], some .shortBuffer⟩
    else data

/-! ### The lz4 writer -/

/-- An lz4 writer over a buffer: `write` and `close` return the writer, the bytes they append to the
buffer, and whether they succeeded. -/
structure Lz4 (W : Type) where
  new : W
  write : W → List UInt8 → W × List UInt8 × Bool
  close : W → W × List UInt8 × Bool

/-- What the chunking goroutine is started with.  The SDK's chunk size is positive. -/
structure PipeConfig (W : Type) where
  chunkWriteSize : ℕ
  toCompress : Bool
  lz4 : Lz4 W
  chunk_pos : 0 < chunkWriteSize

variable {W : Type}

/-- `zw.Write` or `buf.Write`; the latter never fails. -/
def PipeConfig.write (cfg : PipeConfig W) (zw : W) (data : List UInt8) : W × List UInt8 × Bool :=
  if cfg.toCompress then cfg.lz4.write zw data else (zw, data, true)

/-- `zw.Close`, if the upload is compressed. -/
def PipeConfig.close (cfg : PipeConfig W) (zw : W) : W × List UInt8 × Bool :=
  if cfg.toCompress then cfg.lz4.close zw else (zw, [], true)

/-- The writer and the bytes in the buffer after the blocks have been written. -/
def PipeConfig.encode (cfg : PipeConfig W) (blocks : List (List UInt8)) : W × List UInt8 :=
  blocks.foldl (fun st data =>
    ((cfg.write st.1 data).1, st.2 ++ (cfg.write st.1 data).2.1)) (cfg.lz4.new, [])

/-- Everything the goroutine writes for the blocks, the final `Close` included. -/
def PipeConfig.output (cfg : PipeConfig W) (blocks : List (List UInt8)) : List UInt8 :=
  (cfg.encode blocks).2 ++ (cfg.close (cfg.encode blocks).1).2.1

/-- The writer never fails. -/
structure PipeConfig.Works (cfg : PipeConfig W) : Prop where
  write_ok : ∀ blocks data, (cfg.write (cfg.encode blocks).1 data).2.2 = true
  close_ok : ∀ blocks, (cfg.close (cfg.encode blocks).1).2.2 = true

theorem encode_snoc (cfg : PipeConfig W) (blocks : List (List UInt8)) (data : List UInt8) :
    cfg.encode (blocks ++ [data]) =
      ((cfg.write (cfg.encode blocks).1 data).1,
        (cfg.encode blocks).2 ++ (cfg.write (cfg.encode blocks).1 data).2.1) := by
  simp [PipeConfig.encode]

/-- An upload without compression, with chunks of four bytes; its lz4 writer is never used. -/
def plainConfig : PipeConfig Unit where
  chunkWriteSize := 4
  toCompress := false
  lz4 := ⟨(), fun _ data => ((), data, true), fun _ => ((), [], true)⟩
  chunk_pos := by decide

/-- Without compression the buffer never fails. -/
theorem PipeConfig.works_of_plain {cfg : PipeConfig W} (h : cfg.toCompress = false) : cfg.Works :=
  ⟨fun _ _ => by simp [PipeConfig.write, h], fun _ => by simp [PipeConfig.close, h]⟩

/-- Without compression the output is the data. -/
theorem PipeConfig.output_of_plain {cfg : PipeConfig W} (h : cfg.toCompress = false)
    (blocks : List (List UInt8)) : cfg.output blocks = blocks.flatten := by
  have henc : (cfg.encode blocks).2 = blocks.flatten := by
    induction blocks using List.reverseRecOn with
    | nil => rfl
    | append_singleton blocks data ih =>
      rw [encode_snoc, ih]
      simp [PipeConfig.write, h]
  rw [PipeConfig.output, henc]
  simp [PipeConfig.close, h]

/-! ### The pipe -/

/-- Where the chunking goroutine is.  `sending` and `flushing` carry the chunks still to be sent;
`sendCancel` is a pending send on `cancelC`, `sendErr` one on `errChan`. -/
inductive ChunkerPc where
  | idle
  | select
  | sendCancel
  | sending (chunks : List MemFileData)
  | flushing (chunks : List MemFileData)
  | sendErr (text : GoString)
  | cleanup
  | done
  deriving DecidableEq

/-- The pipe: `dataC`, the goroutine with its buffer and lz4 writer, `memFileDataChan`, and the log
of the blocks taken from `dataC` and of the results of `memFile.Read`. -/
structure Pipe (W : Type) where
  dataC : List (List UInt8)
  dataClosed : Bool
  taken : List (List UInt8)
  chunker : ChunkerPc
  buf : List UInt8
  zw : W
  total : ℕ
  memC : List MemFileData
  memClosed : Bool
  reads : List MemFileData

/-- The capacities of `dataC` and `memFileDataChan`. -/
def dataCap : ℕ := 20

@[inherit_doc dataCap]
def memFileCap : ℕ := 240

/-- A new pipe, its goroutine not started. -/
def Pipe.new (cfg : PipeConfig W) : Pipe W where
  dataC := []
  dataClosed := false
  taken := []
  chunker := .idle
  buf := []
  zw := cfg.lz4.new
  total := 0
  memC := []
  memClosed := false
  reads := []

/-- How many chunks are cut off a buffer of `len` bytes: all whole chunks, but one less if they are
the whole buffer and more than one. -/
def emitCount (chunkWriteSize len : ℕ) : ℕ :=
  if len % chunkWriteSize = 0 ∧ 1 < len / chunkWriteSize then len / chunkWriteSize - 1
  else len / chunkWriteSize

/-- The chunks of the final flush: the last one carries `io.EOF`. -/
def markEof : List (List UInt8) → List MemFileData
  | [] => []
  | [c] => [⟨c, some .eof⟩]
  | c :: cs => ⟨c, none⟩ :: markEof cs

/-- The goroutine writes a block it has received. -/
def Pipe.write (cfg : PipeConfig W) (p : Pipe W) (data : List UInt8) : Pipe W :=
  let r := cfg.write p.zw data
  let buf := p.buf ++ r.2.1
  let n := emitCount cfg.chunkWriteSize buf.length
  if r.2.2 = false then { p with zw := r.1, buf := buf, chunker := .sendCancel }
  else if n = 0 then { p with zw := r.1, buf := buf }
  else
    { p with
      zw := r.1
      buf := buf.drop (n * cfg.chunkWriteSize)
      total := p.total + n * cfg.chunkWriteSize
      chunker := .sending
        ((cut cfg.chunkWriteSize (buf.take (n * cfg.chunkWriteSize))).map fun c => ⟨c, none⟩) }

/-- The goroutine has found `dataC` closed. -/
def Pipe.flush (cfg : PipeConfig W) (p : Pipe W) : Pipe W :=
  let r := cfg.close p.zw
  if r.2.2 = false then { p with zw := r.1, buf := p.buf ++ r.2.1, chunker := .sendCancel }
  else
    { p with
      zw := r.1
      buf := []
      total := p.total + (p.buf ++ r.2.1).length
      chunker := .flushing (markEof (cut cfg.chunkWriteSize (p.buf ++ r.2.1))) }

/-- The goroutine receives from `dataC` in its `select`. -/
def Pipe.receive (cfg : PipeConfig W) (p : Pipe W) : Option (Pipe W) :=
  match p.chunker, p.dataC with
  | .select, data :: rest =>
    some ({ p with dataC := rest, taken := p.taken ++ [data] }.write cfg data)
  | .select, [] => if p.dataClosed then some (p.flush cfg) else none
  | _, _ => none

/-- The goroutine sends its next chunk on `memFileDataChan`, or ends its loop. -/
def Pipe.sendChunk (p : Pipe W) : Option (Pipe W) :=
  match p.chunker with
  | .sending [] => some { p with chunker := .select }
  | .sending (c :: cs) =>
    if p.memC.length < memFileCap then
      some { p with memC := p.memC ++ [c], chunker := .sending cs }
    else none
  | .flushing [] => some { p with memClosed := true, chunker := .done }
  | .flushing (c :: cs) =>
    if p.memC.length < memFileCap then
      some { p with memC := p.memC ++ [c], chunker := .flushing cs }
    else none
  | _ => none

/-- `memFile.Read` takes the branch of `memFileDataChan`. -/
def Pipe.read (p : Pipe W) (len : ℕ) : Option (Pipe W) :=
  match p.memC with
  | d :: rest => some { p with memC := rest, reads := p.reads ++ [memFileRead (some d) len] }
  | [] => if p.memClosed then some { p with reads := p.reads ++ [memFileRead none len] } else none

/-! ### What the operations do -/

inductive ReceiveTrans (cfg : PipeConfig W) (p : Pipe W) : Pipe W → Prop where
  | write (data : List UInt8) (rest : List (List UInt8)) (hpc : p.chunker = .select)
      (hdata : p.dataC = data :: rest) :
      ReceiveTrans cfg p ({ p with dataC := rest, taken := p.taken ++ [data] }.write cfg data)
  | flush (hpc : p.chunker = .select) (hdata : p.dataC = []) (hclosed : p.dataClosed = true) :
      ReceiveTrans cfg p (p.flush cfg)

theorem receive_trans {cfg : PipeConfig W} {p p' : Pipe W} (h : p.receive cfg = some p') :
    ReceiveTrans cfg p p' := by
  unfold Pipe.receive at h
  split at h
  · next data rest hpc hdata =>
    obtain rfl := Option.some.inj h
    exact .write data rest hpc hdata
  · next hpc hdata =>
    split at h
    · next hclosed =>
      obtain rfl := Option.some.inj h
      exact .flush hpc hdata hclosed
    · cases h
  · cases h

inductive SendTrans (p : Pipe W) : Pipe W → Prop where
  | sent (hpc : p.chunker = .sending []) : SendTrans p { p with chunker := .select }
  | send (c : MemFileData) (cs : List MemFileData) (hpc : p.chunker = .sending (c :: cs)) :
      SendTrans p { p with memC := p.memC ++ [c], chunker := .sending cs }
  | flushed (hpc : p.chunker = .flushing []) :
      SendTrans p { p with memClosed := true, chunker := .done }
  | flush (c : MemFileData) (cs : List MemFileData) (hpc : p.chunker = .flushing (c :: cs)) :
      SendTrans p { p with memC := p.memC ++ [c], chunker := .flushing cs }

theorem sendChunk_trans {p p' : Pipe W} (h : p.sendChunk = some p') : SendTrans p p' := by
  unfold Pipe.sendChunk at h
  split at h
  · next hpc =>
    obtain rfl := Option.some.inj h
    exact .sent hpc
  · next c cs hpc =>
    split at h
    · obtain rfl := Option.some.inj h
      exact .send c cs hpc
    · cases h
  · next hpc =>
    obtain rfl := Option.some.inj h
    exact .flushed hpc
  · next c cs hpc =>
    split at h
    · obtain rfl := Option.some.inj h
      exact .flush c cs hpc
    · cases h
  · cases h

/-! ### What the operations leave alone -/

/-- Receiving moves a block from `dataC` to the taken ones. -/
theorem receive_frame {cfg : PipeConfig W} {p p' : Pipe W} (h : p.receive cfg = some p') :
    p'.taken ++ p'.dataC = p.taken ++ p.dataC ∧ p'.dataClosed = p.dataClosed ∧
      p'.memC = p.memC ∧ p'.memClosed = p.memClosed ∧ p'.reads = p.reads ∧
      p.chunker = .select := by
  cases receive_trans h with
  | write data rest hpc hdata =>
    unfold Pipe.write
    refine ⟨?_, ?_, ?_, ?_, ?_, hpc⟩ <;> (dsimp only; split_ifs <;> simp [hdata])
  | flush hpc hdata hclosed =>
    unfold Pipe.flush
    refine ⟨?_, ?_, ?_, ?_, ?_, hpc⟩ <;> (dsimp only; split_ifs <;> simp [hdata])

/-- Sending concerns only the chunks and `memFileDataChan`. -/
theorem sendChunk_frame {p p' : Pipe W} (h : p.sendChunk = some p') :
    p'.taken = p.taken ∧ p'.dataC = p.dataC ∧ p'.dataClosed = p.dataClosed ∧
      p'.reads = p.reads ∧ p'.total = p.total ∧ p'.chunker ≠ .sendCancel := by
  cases sendChunk_trans h <;> simp

/-- What is closed by a send was closed before, or the goroutine has ended with it. -/
theorem sendChunk_memClosed {p p' : Pipe W} (h : p.sendChunk = some p') :
    p.chunker ≠ .done ∧ (p'.memClosed = true → p.memClosed = true ∨ p'.chunker = .done) := by
  cases sendChunk_trans h with
  | flushed hpc => exact ⟨by simp [hpc], fun _ => Or.inr rfl⟩
  | sent hpc | send c cs hpc | flush c cs hpc => exact ⟨by simp [hpc], Or.inl⟩

/-- Reading concerns only `memFileDataChan` and the reads. -/
theorem read_frame {p p' : Pipe W} {len : ℕ} (h : p.read len = some p') :
    p'.taken = p.taken ∧ p'.dataC = p.dataC ∧ p'.dataClosed = p.dataClosed ∧
      p'.chunker = p.chunker ∧ p'.memClosed = p.memClosed ∧ ∃ r, p'.reads = p.reads ++ [r] := by
  unfold Pipe.read at h
  split at h
  · obtain rfl := Option.some.inj h
    exact ⟨rfl, rfl, rfl, rfl, rfl, _, rfl⟩
  · split at h
    · obtain rfl := Option.some.inj h
      exact ⟨rfl, rfl, rfl, rfl, rfl, _, rfl⟩
    · exact absurd h (by simp)

/-- The goroutine is in its loop or has ended. -/
def ChunkerPc.healthy : ChunkerPc → Bool
  | .select | .sending _ | .flushing _ | .done => true
  | _ => false

/-- Unless the lz4 writer fails, the goroutine stays in its loop when it receives. -/
theorem receive_healthy {cfg : PipeConfig W} {p p' : Pipe W} (h : p.receive cfg = some p')
    (hcancel : p'.chunker ≠ .sendCancel) : p'.chunker.healthy = true ∧ p'.chunker ≠ .done := by
  cases receive_trans h with
  | write data rest hpc hdata =>
    unfold Pipe.write at hcancel ⊢
    dsimp only at hcancel ⊢
    split_ifs at hcancel ⊢ <;> simp_all [ChunkerPc.healthy]
  | flush hpc hdata hclosed =>
    unfold Pipe.flush at hcancel ⊢
    dsimp only at hcancel ⊢
    split_ifs at hcancel ⊢ <;> simp_all [ChunkerPc.healthy]

/-- The goroutine stays in its loop when it sends, or ends with the channel closed. -/
theorem sendChunk_healthy {p p' : Pipe W} (h : p.sendChunk = some p') :
    p'.chunker.healthy = true ∧ (p'.chunker = .done → p'.memClosed = true) := by
  cases sendChunk_trans h with
  | flushed hpc => exact ⟨rfl, fun _ => rfl⟩
  | sent hpc | send c cs hpc | flush c cs hpc => exact ⟨rfl, by simp⟩

/-! ### What has been emitted -/

/-- The chunks cut off the buffer and not yet sent. -/
def Pipe.pending (p : Pipe W) : List MemFileData :=
  match p.chunker with
  | .sending chunks | .flushing chunks => chunks
  | _ => []

/-- Every chunk cut off the buffer, in order: read, in the channel, still to be sent. -/
def Pipe.emitted (p : Pipe W) : List MemFileData := p.reads ++ p.memC ++ p.pending

/-- The bytes that have been written to the buffer, wherever they are now. -/
def Pipe.stream (p : Pipe W) : List UInt8 := (p.emitted.map MemFileData.buf).flatten ++ p.buf

/-- The goroutine has found `dataC` closed and cut the rest of the buffer. -/
def Pipe.finished (p : Pipe W) : Bool :=
  p.memClosed || match p.chunker with
    | .flushing _ => true
    | _ => false

/-- No `Read` has returned an error other than `io.EOF`. -/
def Pipe.ReadsClean (p : Pipe W) : Prop := ∀ r ∈ p.reads, r.err = none ∨ r.err = some .eof

/-- A whole chunk without error. -/
def FullChunk (k : ℕ) (x : MemFileData) : Prop := x.err = none ∧ x.buf.length = k

/-- A finished sequence of chunks: whole chunks, then the flushed rest of the buffer with its
`io.EOF`, then the empty results of reads from the closed channel. -/
def FinishedChunks (k : ℕ) (l : List MemFileData) (closedReads : ℕ) : Prop :=
  ∃ full rest, (∀ x ∈ full, FullChunk k x) ∧
    l = full ++ markEof (cut k rest) ++ List.replicate closedReads ⟨[], some .eof⟩

/-- **The pipe invariant.** -/
structure PipeFacts (cfg : PipeConfig W) (p : Pipe W) : Prop where
  zw_eq : p.finished = false → p.zw = (cfg.encode p.taken).1
  stream_eq : p.stream = if p.finished then cfg.output p.taken else (cfg.encode p.taken).2
  full : p.finished = false → ∀ x ∈ p.emitted, FullChunk cfg.chunkWriteSize x
  tail : p.finished = true → ∃ j, FinishedChunks cfg.chunkWriteSize p.emitted j ∧
    (0 < j → p.memC = [] ∧ p.pending = [])
  ended : p.finished = true → p.buf = [] ∧ p.dataC = [] ∧ p.dataClosed = true
  closed : p.memClosed = true → p.chunker = .done
  not_sendCancel : p.chunker ≠ .sendCancel

theorem markEof_flatten (l : List (List UInt8)) :
    ((markEof l).map MemFileData.buf).flatten = l.flatten := by
  induction l with
  | nil => rfl
  | cons c cs ih =>
    cases cs with
    | nil => rfl
    | cons d ds => simpa [markEof] using ih

theorem mem_markEof {l : List (List UInt8)} {x : MemFileData} (h : x ∈ markEof l) :
    (x.err = none ∨ x.err = some .eof) ∧ x.buf ∈ l := by
  induction l with
  | nil => exact absurd h (by simp [markEof])
  | cons c cs ih =>
    cases cs with
    | nil =>
      obtain rfl := List.mem_singleton.mp h
      exact ⟨Or.inr rfl, List.mem_singleton_self c⟩
    | cons d ds =>
      rcases List.mem_cons.mp h with rfl | h
      · exact ⟨Or.inl rfl, List.mem_cons_self⟩
      · exact ⟨(ih h).1, List.mem_cons_of_mem _ (ih h).2⟩

/-- Only the last chunk of a flush has an error, and the chunks before it are pieces before the
last. -/
theorem markEof_split {l : List (List UInt8)} {pre post : List MemFileData} {x : MemFileData}
    (h : markEof l = pre ++ x :: post) :
    (post = [] ∧ x.err = some .eof) ∨ (post ≠ [] ∧ x.err = none ∧
      ∃ lpre lpost, l = lpre ++ x.buf :: lpost ∧ lpost ≠ []) := by
  induction l generalizing pre with
  | nil => exact absurd h (by simp [markEof])
  | cons c cs ih =>
    cases cs with
    | nil =>
      cases pre with
      | nil =>
        obtain ⟨rfl, rfl⟩ := List.cons.inj h
        exact Or.inl ⟨rfl, rfl⟩
      | cons y pre => exact absurd (List.cons.inj h).2 (by simp)
    | cons d ds =>
      cases pre with
      | nil =>
        obtain ⟨rfl, rfl⟩ := List.cons.inj h
        refine Or.inr ⟨?_, rfl, [], d :: ds, rfl, by simp⟩
        cases ds <;> simp [markEof]
      | cons y pre =>
        rcases ih (List.cons.inj h).2 with hl | ⟨hpost, herr, lpre, lpost, hl, hne⟩
        · exact Or.inl hl
        · exact Or.inr ⟨hpost, herr, c :: lpre, lpost, by rw [hl]; rfl, hne⟩

/-! ### The operations keep the invariant -/

section Steps

variable {cfg : PipeConfig W} {p p' : Pipe W}

theorem pipeFacts_new (cfg : PipeConfig W) : PipeFacts cfg (Pipe.new cfg) := by
  refine ⟨fun _ => rfl, rfl, ?_, ?_, ?_, ?_, ?_⟩ <;>
    simp [Pipe.new, Pipe.finished, Pipe.emitted, Pipe.pending]

/-- An operation that moves no chunk out of sight keeps the invariant. -/
theorem PipeFacts.congr (h : PipeFacts cfg p) (hemitted : p'.emitted = p.emitted)
    (hfinished : p'.finished = p.finished) (hbuf : p'.buf = p.buf) (hzw : p'.zw = p.zw)
    (htaken : p'.taken = p.taken)
    (htail : p.finished = true → p.memC = [] ∧ p.pending = [] → p'.memC = [] ∧ p'.pending = [])
    (hended : p.finished = true → p'.dataC = p.dataC ∧ p'.dataClosed = p.dataClosed)
    (hclosed : p'.memClosed = true → p'.chunker = .done) (hcancel : p'.chunker ≠ .sendCancel) :
    PipeFacts cfg p' where
  zw_eq hf := by
    rw [hzw, htaken]
    exact h.zw_eq (hfinished ▸ hf)
  stream_eq := by
    have hs : p'.stream = p.stream := by rw [Pipe.stream, hemitted, hbuf, Pipe.stream]
    rw [hs, hfinished, htaken]
    exact h.stream_eq
  full hf := by
    rw [hemitted]
    exact h.full (hfinished ▸ hf)
  tail hf := by
    rw [hfinished] at hf
    obtain ⟨j, hj, hdone⟩ := h.tail hf
    rw [hemitted]
    exact ⟨j, hj, fun h0 => htail hf (hdone h0)⟩
  ended hf := by
    rw [hfinished] at hf
    obtain ⟨hb, hd, hc⟩ := h.ended hf
    rw [hbuf, (hended hf).1, (hended hf).2]
    exact ⟨hb, hd, hc⟩
  closed := hclosed
  not_sendCancel := hcancel

/-- The part reader sends a block on `dataC`, which it has not closed. -/
theorem PipeFacts.put (h : PipeFacts cfg p) (hopen : p.dataClosed = false) (data : List UInt8) :
    PipeFacts cfg { p with dataC := p.dataC ++ [data] } := by
  refine h.congr rfl rfl rfl rfl rfl (fun _ h => h) ?_ h.closed h.not_sendCancel
  intro hf
  rw [(h.ended hf).2.2] at hopen
  exact absurd hopen (by simp)

/-- The part reader closes `dataC`. -/
theorem PipeFacts.closeData (h : PipeFacts cfg p) : PipeFacts cfg { p with dataClosed := true } := by
  refine h.congr rfl rfl rfl rfl rfl (fun _ h => h) ?_ h.closed h.not_sendCancel
  intro hf
  exact ⟨rfl, (h.ended hf).2.2.symm⟩

/-- The goroutine moves while it has no chunks: it starts, or takes its way out. -/
theorem PipeFacts.goto (h : PipeFacts cfg p) {x : ChunkerPc}
    (hfrom : ∀ chunks, p.chunker ≠ .sending chunks ∧ p.chunker ≠ .flushing chunks)
    (hto : ∀ chunks, x ≠ .sending chunks ∧ x ≠ .flushing chunks) (hmem : p.memClosed = false)
    (hx : x ≠ .sendCancel) : PipeFacts cfg { p with chunker := x } := by
  have hpend : ({ p with chunker := x } : Pipe W).pending = p.pending := by
    unfold Pipe.pending
    cases hp : p.chunker <;> cases x <;> simp_all
  refine h.congr ?_ ?_ rfl rfl rfl ?_ (fun _ => ⟨rfl, rfl⟩) ?_ hx
  · unfold Pipe.emitted
    rw [hpend]
  · unfold Pipe.finished
    cases hp : p.chunker <;> cases x <;> simp_all
  · rintro _ ⟨hm, hpd⟩
    exact ⟨hm, hpend.trans hpd⟩
  · intro hc
    exact absurd (hmem.symm.trans hc) (by simp)

theorem PipeFacts.not_finished_of_select (h : PipeFacts cfg p) (hpc : p.chunker = .select) :
    p.memClosed = false ∧ p.finished = false ∧ p.pending = [] := by
  have hmem : p.memClosed = false := by
    rw [Bool.eq_false_iff]
    intro hc
    rw [h.closed hc] at hpc
    exact absurd hpc (by simp)
  exact ⟨hmem, by simp [Pipe.finished, hmem, hpc], by simp [Pipe.pending, hpc]⟩

theorem emitCount_mul_le (k len : ℕ) : emitCount k len * k ≤ len := by
  unfold emitCount
  split
  · calc (len / k - 1) * k ≤ len / k * k := Nat.mul_le_mul_right k (Nat.sub_le _ _)
      _ ≤ len := Nat.div_mul_le_self len k
  · exact Nat.div_mul_le_self len k

theorem PipeFacts.emitted_of_select (h : PipeFacts cfg p) (hpc : p.chunker = .select) :
    p.emitted = p.reads ++ p.memC := by
  rw [Pipe.emitted, (h.not_finished_of_select hpc).2.2, List.append_nil]

/-- The goroutine takes a block and cuts the whole chunks off the buffer. -/
theorem PipeFacts.write (h : PipeFacts cfg p) (hw : cfg.Works) (hpc : p.chunker = .select)
    {data : List UInt8} {rest : List (List UInt8)} :
    PipeFacts cfg ({ p with dataC := rest, taken := p.taken ++ [data] }.write cfg data) := by
  obtain ⟨hmem, hfin, hpend⟩ := h.not_finished_of_select hpc
  have hemit := h.emitted_of_select hpc
  have hstream := h.stream_eq
  rw [hfin, if_neg (by simp), Pipe.stream] at hstream
  have hzw := h.zw_eq hfin
  have hok : (cfg.write p.zw data).2.2 = true := by
    rw [hzw]
    exact hw.write_ok p.taken data
  have hencode : cfg.encode (p.taken ++ [data]) = ((cfg.write p.zw data).1,
      (p.emitted.map MemFileData.buf).flatten ++ p.buf ++ (cfg.write p.zw data).2.1) := by
    rw [encode_snoc, ← hzw, ← hstream]
  unfold Pipe.write
  simp only [hok]
  rw [if_neg (by simp)]
  generalize hbuf : p.buf ++ (cfg.write p.zw data).2.1 = buf
  rw [List.append_assoc, hbuf] at hencode
  generalize hn : emitCount cfg.chunkWriteSize buf.length = n
  have hle : n * cfg.chunkWriteSize ≤ buf.length := hn ▸ emitCount_mul_le _ _
  by_cases hn0 : n = 0
  · rw [if_pos hn0]
    have hfin' : Pipe.finished { p with
        dataC := rest, taken := p.taken ++ [data], zw := (cfg.write p.zw data).1, buf := buf } =
        false := hfin
    refine ⟨fun _ => by rw [hencode], ?_, fun _ => h.full hfin, ?_, ?_, h.closed, h.not_sendCancel⟩
    · rw [hfin', if_neg (by simp), hencode]
      rfl
    · intro hf
      exact absurd (hfin'.symm.trans hf) (by simp)
    · intro hf
      exact absurd (hfin'.symm.trans hf) (by simp)
  · rw [if_neg hn0]
    -- the chunks cut off the front of the buffer are whole
    have hfull : ∀ x ∈ (cut cfg.chunkWriteSize (buf.take (n * cfg.chunkWriteSize))).map
        fun c => (⟨c, none⟩ : MemFileData), FullChunk cfg.chunkWriteSize x := by
      intro x hx
      obtain ⟨c, hc, rfl⟩ := List.mem_map.mp hx
      refine ⟨rfl, length_eq_of_dvd cfg.chunk_pos _ ?_ c hc⟩
      rw [List.length_take, min_eq_left hle]
      exact Nat.dvd_mul_left _ _
    refine ⟨fun _ => by rw [hencode], ?_, ?_, ?_, ?_, ?_, by simp⟩
    · rw [if_neg (by simp [Pipe.finished, hmem]), hencode]
      rw [hemit]
      simp only [Pipe.stream, Pipe.emitted, Pipe.pending, List.map_append, List.map_map,
        List.flatten_append]
      rw [show (MemFileData.buf ∘ fun c => (⟨c, none⟩ : MemFileData)) = id from rfl, List.map_id,
        flatten_cut cfg.chunk_pos]
      simp [List.append_assoc]
    · intro _ x hx
      simp only [Pipe.emitted, Pipe.pending] at hx
      rcases List.mem_append.mp hx with hx | hx
      · exact h.full hfin x (hemit ▸ hx)
      · exact hfull x hx
    · intro hf
      exact absurd hf (by simp [Pipe.finished, hmem])
    · intro hf
      exact absurd hf (by simp [Pipe.finished, hmem])
    · intro hc
      exact absurd (hmem.symm.trans hc) (by simp)

/-- The goroutine finds `dataC` closed and cuts the rest of the buffer. -/
theorem PipeFacts.flush (h : PipeFacts cfg p) (hw : cfg.Works) (hpc : p.chunker = .select)
    (hdata : p.dataC = []) (hclosed : p.dataClosed = true) : PipeFacts cfg (p.flush cfg) := by
  obtain ⟨hmem, hfin, hpend⟩ := h.not_finished_of_select hpc
  have hstream := h.stream_eq
  rw [hfin, if_neg (by simp), Pipe.stream, h.emitted_of_select hpc] at hstream
  have hok : (cfg.close p.zw).2.2 = true := by
    rw [h.zw_eq hfin]
    exact hw.close_ok p.taken
  unfold Pipe.flush
  simp only [hok]
  rw [if_neg (by simp)]
  refine ⟨?_, ?_, ?_, ?_, fun _ => ⟨rfl, hdata, hclosed⟩, ?_, by simp⟩
  · intro hf
    exact absurd hf (by simp [Pipe.finished])
  · rw [if_pos (by simp [Pipe.finished]), PipeConfig.output, ← h.zw_eq hfin, ← hstream]
    simp only [Pipe.stream, Pipe.emitted, Pipe.pending, List.map_append, List.flatten_append,
      markEof_flatten, flatten_cut cfg.chunk_pos, List.append_nil]
    simp [List.append_assoc]
  · intro hf
    exact absurd hf (by simp [Pipe.finished])
  · intro _
    refine ⟨0, ⟨p.emitted, p.buf ++ (cfg.close p.zw).2.1, h.full hfin, ?_⟩,
      fun h0 => absurd h0 (by omega)⟩
    rw [h.emitted_of_select hpc]
    simp [Pipe.emitted, Pipe.pending]
  · intro hc
    exact absurd (hmem.symm.trans hc) (by simp)

theorem PipeFacts.receive (h : PipeFacts cfg p) (hw : cfg.Works)
    (hst : p.receive cfg = some p') : PipeFacts cfg p' := by
  cases receive_trans hst with
  | write data rest hpc hdata => exact h.write hw hpc
  | flush hpc hdata hclosed => exact h.flush hw hpc hdata hclosed

/-- Sending a chunk moves it from the goroutine to the channel. -/
theorem PipeFacts.sendChunk (h : PipeFacts cfg p) (hst : p.sendChunk = some p') :
    PipeFacts cfg p' := by
  have hmem : ∀ chunks, p.chunker = .sending chunks ∨ p.chunker = .flushing chunks →
      p.memClosed = false := by
    intro chunks hpc
    rw [Bool.eq_false_iff]
    intro hc
    rw [h.closed hc] at hpc
    simp at hpc
  cases sendChunk_trans hst with
  | sent hpc =>
    have hm := hmem [] (Or.inl hpc)
    refine h.congr ?_ ?_ rfl rfl rfl ?_ (fun _ => ⟨rfl, rfl⟩) ?_ (by simp)
    · simp [Pipe.emitted, Pipe.pending, hpc]
    · simp [Pipe.finished, hm, hpc]
    · exact fun _ hd => ⟨hd.1, rfl⟩
    · exact fun hc => absurd (hm.symm.trans hc) (by simp)
  | flushed hpc =>
    refine h.congr ?_ ?_ rfl rfl rfl ?_ (fun _ => ⟨rfl, rfl⟩) (fun _ => rfl) (by simp)
    · simp [Pipe.emitted, Pipe.pending, hpc]
    · simp [Pipe.finished, hpc]
    · exact fun _ hd => ⟨hd.1, rfl⟩
  | send c cs hpc | flush c cs hpc =>
    have hm : p.memClosed = false := hmem (c :: cs) (by simp [hpc])
    refine h.congr ?_ ?_ rfl rfl rfl ?_ (fun _ => ⟨rfl, rfl⟩) ?_ (by simp)
    · simp [Pipe.emitted, Pipe.pending, hpc]
    · simp [Pipe.finished, hm, hpc]
    · intro _ ⟨_, hd⟩
      exact absurd hd (by simp [Pipe.pending, hpc])
    · exact fun hc => absurd (hm.symm.trans hc) (by simp)

theorem memFileRead_some (d : MemFileData) (len : ℕ) :
    memFileRead (some d) len =
      if d.err ≠ none ∧ d.err ≠ some .eof then ⟨[], d.err⟩
      else if len < d.buf.length then ⟨[], some .shortBuffer⟩ else d := rfl

/-- A `Read` without error returns the chunk as it is. -/
theorem memFileRead_of_clean {d : MemFileData} {len : ℕ}
    (h : (memFileRead (some d) len).err = none ∨ (memFileRead (some d) len).err = some .eof) :
    memFileRead (some d) len = d := by
  rw [memFileRead_some] at h ⊢
  by_cases herr : d.err ≠ none ∧ d.err ≠ some .eof
  · rw [if_pos herr] at h
    exact absurd h (by simp only [not_or]; exact herr)
  · rw [if_neg herr] at h ⊢
    by_cases hlen : len < d.buf.length
    · rw [if_pos hlen] at h
      simp at h
    · rw [if_neg hlen]

/-- A `Read` into a large enough buffer returns a chunk of the pipe as it is. -/
theorem memFileRead_of_le {d : MemFileData} {len : ℕ} (herr : d.err = none ∨ d.err = some .eof)
    (hlen : d.buf.length ≤ len) : memFileRead (some d) len = d := by
  rw [memFileRead_some, if_neg (by tauto), if_neg (by omega)]

/-- A `Read` moves a chunk from the channel to the reads. -/
theorem PipeFacts.read (h : PipeFacts cfg p) {len : ℕ} (hst : p.read len = some p')
    (hclean : p'.ReadsClean) : PipeFacts cfg p' := by
  unfold Pipe.read at hst
  split at hst
  · next d rest hmemC =>
    obtain rfl := Option.some.inj hst
    have hd : memFileRead (some d) len = d :=
      memFileRead_of_clean (hclean _ (List.mem_append_right _ (List.mem_singleton_self _)))
    rw [hd]
    refine h.congr ?_ rfl rfl rfl rfl ?_ (fun _ => ⟨rfl, rfl⟩) h.closed h.not_sendCancel
    · simp [Pipe.emitted, Pipe.pending, hmemC]
    · rintro _ ⟨hm, -⟩
      rw [hmemC] at hm
      exact absurd hm (by simp)
  · next hmemC =>
    split at hst
    · next hclosed =>
      obtain rfl := Option.some.inj hst
      have hpc := h.closed hclosed
      have hpend : p.pending = [] := by simp [Pipe.pending, hpc]
      have hfin : p.finished = true := by simp [Pipe.finished, hclosed]
      have hemit : ({ p with reads := p.reads ++ [memFileRead none len] } : Pipe W).emitted =
          p.emitted ++ [⟨[], some .eof⟩] := by
        simp [Pipe.emitted, Pipe.pending, hmemC, hpc, memFileRead]
      refine ⟨?_, ?_, ?_, ?_, h.ended, h.closed, h.not_sendCancel⟩
      · intro hf
        exact absurd (hfin.symm.trans hf) (by simp)
      · have hs := h.stream_eq
        have hfin' : ({ p with reads := p.reads ++ [memFileRead none len] } : Pipe W).finished =
            true := hfin
        rw [hfin, if_pos rfl, Pipe.stream] at hs
        rw [hfin', if_pos rfl, Pipe.stream, hemit]
        simpa using hs
      · intro hf
        exact absurd (hfin.symm.trans hf) (by simp)
      · intro _
        obtain ⟨j, ⟨full, rest, hfull, hl⟩, -⟩ := h.tail hfin
        refine ⟨j + 1, ⟨full, rest, hfull, ?_⟩, fun _ => ⟨hmemC, hpend⟩⟩
        rw [hemit, hl, List.replicate_succ', List.append_assoc]
    · exact absurd hst (by simp)

/-! ### What the reads return -/

/-- Every chunk fits a buffer of `chunkWriteSize` bytes and has no error but `io.EOF`. -/
theorem PipeFacts.mem_emitted (h : PipeFacts cfg p) {x : MemFileData} (hx : x ∈ p.emitted) :
    (x.err = none ∨ x.err = some .eof) ∧ x.buf.length ≤ cfg.chunkWriteSize := by
  cases hfin : p.finished with
  | false =>
    obtain ⟨herr, hlen⟩ := h.full hfin x hx
    exact ⟨Or.inl herr, hlen.le⟩
  | true =>
    obtain ⟨j, ⟨full, rest, hfull, hl⟩, -⟩ := h.tail hfin
    rw [hl, List.mem_append, List.mem_append] at hx
    rcases hx with (hx | hx) | hx
    · obtain ⟨herr, hlen⟩ := hfull x hx
      exact ⟨Or.inl herr, hlen.le⟩
    · have hmem := mem_markEof hx
      exact ⟨hmem.1, (mem_cut cfg.chunk_pos rest _ hmem.2).2⟩
    · rw [List.eq_of_mem_replicate hx]
      exact ⟨Or.inr rfl, Nat.zero_le _⟩

/-- A `Read` into a buffer of `chunkWriteSize` bytes does not fail. -/
theorem PipeFacts.readsClean (h : PipeFacts cfg p) {len : ℕ} (hst : p.read len = some p')
    (hlen : cfg.chunkWriteSize ≤ len) (hclean : p.ReadsClean) : p'.ReadsClean := by
  unfold Pipe.read at hst
  split at hst
  · next d rest hmemC =>
    obtain rfl := Option.some.inj hst
    obtain ⟨herr, hd⟩ := h.mem_emitted (x := d) (by simp [Pipe.emitted, hmemC])
    intro r hr
    rcases List.mem_append.mp hr with hr | hr
    · exact hclean r hr
    · rw [List.mem_singleton.mp hr, memFileRead_of_le herr (hd.trans hlen)]
      exact herr
  · split at hst
    · obtain rfl := Option.some.inj hst
      intro r hr
      rcases List.mem_append.mp hr with hr | hr
      · exact hclean r hr
      · rw [List.mem_singleton.mp hr]
        exact Or.inr rfl
    · exact absurd hst (by simp)

/-- **Once a `Read` has returned `io.EOF`, the reads are the whole output** and nothing is left in
the pipe. -/
theorem PipeFacts.eof_output (h : PipeFacts cfg p) {r : MemFileData} (hr : r ∈ p.reads)
    (heof : r.err = some .eof) :
    p.finished = true ∧ (p.reads.map MemFileData.buf).flatten = cfg.output p.taken := by
  have hmem : r ∈ p.emitted := by
    simp only [Pipe.emitted, List.mem_append]
    exact Or.inl (Or.inl hr)
  have hfin : p.finished = true := by
    by_contra hf
    have := (h.full (by simpa using hf) r hmem).1
    rw [heof] at this
    exact absurd this (by simp)
  have hnil : p.memC = [] ∧ p.pending = [] := by
    obtain ⟨j, ⟨full, rest, hfull, hl⟩, hdone⟩ := h.tail hfin
    by_cases hj : 0 < j
    · exact hdone hj
    · -- the chunk with the `io.EOF` is the last one emitted
      obtain rfl : j = 0 := by omega
      obtain ⟨pre, post, hreads⟩ := List.append_of_mem hr
      have hsplit : full ++ markEof (cut cfg.chunkWriteSize rest) =
          pre ++ r :: (post ++ (p.memC ++ p.pending)) := by
        rw [List.replicate_zero, List.append_nil] at hl
        rw [← hl, Pipe.emitted, hreads]
        simp [List.append_assoc]
      have hpost : post ++ (p.memC ++ p.pending) = [] := by
        rcases List.append_eq_append_iff.mp hsplit with ⟨as, rfl, has⟩ | ⟨bs, hbs, has⟩
        · rcases markEof_split has with ⟨hp, -⟩ | ⟨-, herr, -⟩
          · exact hp
          · rw [heof] at herr
            exact absurd herr (by simp)
        · cases bs with
          | nil =>
            have hm : markEof (cut cfg.chunkWriteSize rest) =
                [] ++ r :: (post ++ (p.memC ++ p.pending)) := has.symm
            rcases markEof_split hm with ⟨hp, -⟩ | ⟨-, herr, -⟩
            · exact hp
            · rw [heof] at herr
              exact absurd herr (by simp)
          | cons b bs =>
            obtain ⟨rfl, -⟩ := List.cons.inj has
            have := (hfull r (by rw [hbs]; simp)).1
            rw [heof] at this
            exact absurd this (by simp)
      simp only [List.append_eq_nil_iff] at hpost
      exact hpost.2
  refine ⟨hfin, ?_⟩
  have hs := h.stream_eq
  rw [hfin, if_pos rfl, Pipe.stream, (h.ended hfin).1, Pipe.emitted, hnil.1, hnil.2] at hs
  simpa using hs

/-- **Every `Read` before the last data-bearing one returns a whole chunk.** -/
theorem PipeFacts.reads_full (h : PipeFacts cfg p) {pre post : List MemFileData} {d : MemFileData}
    (hreads : p.reads = pre ++ d :: post) (hlater : ∃ x ∈ post, x.buf ≠ []) :
    d.buf.length = cfg.chunkWriteSize := by
  cases hfin : p.finished with
  | false =>
    refine (h.full hfin d ?_).2
    rw [Pipe.emitted, hreads]
    simp
  | true =>
    obtain ⟨j, ⟨full, rest, hfull, hl⟩, -⟩ := h.tail hfin
    obtain ⟨x, hx, hxne⟩ := hlater
    rw [Pipe.emitted, hreads] at hl
    have hsplit : full ++ (markEof (cut cfg.chunkWriteSize rest) ++
        List.replicate j ⟨[], some .eof⟩) = pre ++ d :: (post ++ (p.memC ++ p.pending)) := by
      rw [← List.append_assoc, ← hl]
      simp [List.append_assoc]
    -- a chunk among the flushed ones is followed by another flushed one, which holds the data
    have hflush : ∀ mpre, markEof (cut cfg.chunkWriteSize rest) ++
        List.replicate j ⟨[], some .eof⟩ = mpre ++ d :: (post ++ (p.memC ++ p.pending)) →
        d.buf.length = cfg.chunkWriteSize := by
      intro mpre hm
      have hempty : ∀ y ∈ List.replicate j (⟨[], some .eof⟩ : MemFileData), y.buf = [] := by
        intro y hy
        rw [List.eq_of_mem_replicate hy]
      have hxmem : x ∈ post ++ (p.memC ++ p.pending) := List.mem_append_left _ hx
      rcases List.append_eq_append_iff.mp hm with ⟨as, -, has⟩ | ⟨bs, hbs, has⟩
      · exact absurd (hempty x (by rw [has]; simp [hx])) hxne
      · cases bs with
        | nil =>
          have hb : d :: (post ++ (p.memC ++ p.pending)) = List.replicate j ⟨[], some .eof⟩ := has
          exact absurd (hempty x (hb ▸ List.mem_cons_of_mem d hxmem)) hxne
        | cons b bs =>
          obtain ⟨rfl, hb⟩ := List.cons.inj has
          rcases markEof_split hbs with ⟨rfl, -⟩ | ⟨-, -, lpre, lpost, hc, hne⟩
          · have hb' : post ++ (p.memC ++ p.pending) = List.replicate j ⟨[], some .eof⟩ := hb
            exact absurd (hempty x (hb' ▸ hxmem)) hxne
          · exact length_eq_of_not_last cfg.chunk_pos rest lpre _ lpost hc hne
    rcases List.append_eq_append_iff.mp hsplit with ⟨as, -, has⟩ | ⟨bs, hbs, has⟩
    · exact hflush as has
    · cases bs with
      | nil => exact hflush [] has.symm
      | cons b bs =>
        obtain ⟨rfl, -⟩ := List.cons.inj has
        exact (hfull d (by rw [hbs]; simp)).2

/-! ### What is left to do -/

/-- The blocks to be taken from `dataC`, and the end of them. -/
def Pipe.intake (p : Pipe W) : ℕ := p.dataC.length + if p.finished then 0 else 1

/-- The steps the goroutine has before it until it receives again. -/
def ChunkerPc.rank : ChunkerPc → ℕ
  | .sending chunks | .flushing chunks => chunks.length + 1
  | _ => 0

/-- The chunks to be read, and the `io.EOF`. -/
def Pipe.unread (p : Pipe W) : ℕ :=
  p.memC.length + if p.reads.any (fun r => r.err = some .eof) then 0 else 1

theorem PipeFacts.receive_lt (h : PipeFacts cfg p) (hw : cfg.Works)
    (hst : p.receive cfg = some p') : p'.intake < p.intake := by
  cases receive_trans hst with
  | write data rest hpc hdata =>
    obtain ⟨hmem, hfin, -⟩ := h.not_finished_of_select hpc
    have hfin' : (({ p with dataC := rest, taken := p.taken ++ [data] } : Pipe W).write cfg data).finished
        = false := by
      unfold Pipe.write Pipe.finished
      dsimp only
      split_ifs <;> simp [hmem, hpc]
    have hdata' : (({ p with dataC := rest, taken := p.taken ++ [data] } : Pipe W).write cfg data).dataC
        = rest := by
      unfold Pipe.write
      dsimp only
      split_ifs <;> rfl
    rw [Pipe.intake, Pipe.intake, hfin, hfin', hdata, hdata']
    simp
  | flush hpc hdata hclosed =>
    obtain ⟨hmem, hfin, -⟩ := h.not_finished_of_select hpc
    have hok : (cfg.close p.zw).2.2 = true := by
      rw [h.zw_eq hfin]
      exact hw.close_ok p.taken
    rw [Pipe.intake, Pipe.intake, hfin, hdata]
    unfold Pipe.flush
    simp [hok, Pipe.finished, hdata]

theorem sendChunk_lt (hst : p.sendChunk = some p') :
    p'.intake = p.intake ∧ p'.chunker.rank < p.chunker.rank := by
  cases sendChunk_trans hst with
  | sent hpc | send c cs hpc | flushed hpc | flush c cs hpc =>
    simp [Pipe.intake, Pipe.finished, ChunkerPc.rank, hpc]

/-- A `Read` before `io.EOF` takes a chunk or gets the `io.EOF`. -/
theorem read_lt {len : ℕ} (hst : p.read len = some p')
    (heof : ¬ ∃ r ∈ p.reads, r.err = some .eof) :
    p'.intake = p.intake ∧ p'.chunker = p.chunker ∧ p'.unread < p.unread := by
  have hany : p.reads.any (fun r => r.err = some .eof) = false := by
    rw [List.any_eq_false]
    intro r hr
    simpa using fun he => heof ⟨r, hr, he⟩
  unfold Pipe.read at hst
  split at hst
  · next d rest hmemC =>
    obtain rfl := Option.some.inj hst
    refine ⟨rfl, rfl, ?_⟩
    rw [Pipe.unread, Pipe.unread, hany, hmemC, if_neg Bool.false_ne_true, List.length_cons]
    dsimp only
    split_ifs <;> omega
  · next hmemC =>
    split at hst
    · obtain rfl := Option.some.inj hst
      refine ⟨rfl, rfl, ?_⟩
      rw [Pipe.unread, Pipe.unread, hany, hmemC]
      simp [memFileRead]
    · exact absurd hst (by simp)

end Steps

end Zs3Server.Gateway.ChunkPipe
