import Zs3Server.Lib.StepSystem
import Zs3Server.Lib.GoContext
import Zs3Server.Lib.Slots

/-!
# Batched uploads

`putFile` hands a sized upload to the batching goroutine over `batchUploadChan` and waits for its
operation context; the batching goroutine collects operations into `opRequest` and sends batches to
the workers over `workerChan`; a worker runs `DoMultiOperation` on its batch and cancels the context
of every operation in it with the outcome.  A success is reported by cancelling with nil, which is
seen as `context.Canceled` — and so is the cancellation of the request's own context.

The model interleaves any number of `putFile` calls, the batching goroutine and the workers; the
outcomes of `DoMultiOperation` and the cancellations of request contexts are arbitrary.

* `BatchTrans` / `batchStep_trans` — the transitions, one for each branch of the code;
* `CommitInv` / `commitInv_step` — as long as no live operation context takes `context.Canceled` from
  its request, that cause and a nil result both mean a committed batch;
* `putFile_nil_committed` — so a nil result means committed in every run of this kind, and one
  such cancellation of a waiting upload is enough for a nil result without a commit.
-/

namespace Zs3Server.Gateway.BatchUpload

open Lib.StepSystem Lib.ByteString Lib.GoContext
open Lib.Slots (update_cases)

/-! ### The model -/

/-- `isSameRootError`, of a non-nil error. -/
def isSameRootError (err : GoError) : Bool :=
  contains err.text (lit "previous allocation root are same")

/-- The error a worker reports for an outcome of `DoMultiOperation`. -/
def workerError : Option GoError → Option GoError
  | none => none
  | some err =>
    if isSameRootError err then none
    else if err = .canceled then some (.other (lit "operation canceled"))
    else some err

/-- Where a `putFile` call is. -/
inductive PutFilePc where
  | start
  | streaming
  | enqueuing
  | waiting
  | returned (err : Option GoError)
  deriving DecidableEq

/-- Where the batching goroutine is. -/
inductive LoopPc where
  | select
  | checkEmpty
  | sleeping
  | send
  | stopped
  deriving DecidableEq

/-- Where a worker is: waiting for a batch, inside `DoMultiOperation`, or cancelling the contexts of
the rest of its batch with an error. -/
inductive WorkerPc (R : Type) where
  | select
  | running (ops : List R)
  | cancelling (err : Option GoError) (ops : List R)
  | stopped

/-- The arguments of `IntiBatchUploadWorkers` that the goroutines use. -/
structure BatchConfig where
  maxOperations : ℕ
  maxWorkers : ℕ

/-- The upload machinery.  `requestCtx` and `opCtx` are the causes of the contexts of a `putFile`
call; `received`, `sent` and `executed` record what the batching goroutine took from
`batchUploadChan`, what it sent on `workerChan`, and the finished calls of `DoMultiOperation`. -/
structure BatchState (R : Type) where
  pc : R → PutFilePc
  requestCtx : R → Option GoError
  opCtx : R → Option GoError
  batchUploadChan : List R
  opRequest : List R
  iterations : ℕ
  loop : LoopPc
  workerChan : List (List R)
  worker : ℕ → WorkerPc R
  shutdown : Bool
  received : List R
  sent : List (List R)
  executed : List (List R × Option GoError)

/-- The steps: of the request contexts, of a `putFile` call, of the batching goroutine, of a worker,
and the end of the server context. -/
inductive BatchAct (R : Type) where
  | cancelRequest (r : R) (cause : GoError)
  | propagate (r : R)
  | call (r : R) (size : ℤ)
  | streamResult (r : R) (res : Option GoError)
  | enqueue (r : R)
  | finish (r : R)
  | receive
  | handOver (r : R)
  | checkEmpty
  | wake
  | sendBatch
  | loopStop
  | workerReceive (w : ℕ)
  | workerResult (w : ℕ) (res : Option GoError)
  | workerCancel (w : ℕ)
  | workerStop (w : ℕ)
  | shutdown

variable {R : Type}

/-- Before any call. -/
def batchInit : BatchState R where
  pc := fun _ => .start
  requestCtx := fun _ => none
  opCtx := fun _ => none
  batchUploadChan := []
  opRequest := []
  iterations := 0
  loop := .select
  workerChan := []
  worker := fun _ => .select
  shutdown := false
  received := []
  sent := []
  executed := []

/-- The batching goroutine has received `op`: it sends the batch when it is full or after three
waits, else it looks whether more operations are there. -/
def BatchState.append (cfg : BatchConfig) (s : BatchState R) (op : R) : BatchState R :=
  { s with
    opRequest := s.opRequest ++ [op]
    loop := if (s.opRequest ++ [op]).length = cfg.maxOperations ∨ 2 < s.iterations then .send
      else .checkEmpty
    received := s.received ++ [op] }

/-- One step of the upload machinery. -/
def batchStep [DecidableEq R] (cfg : BatchConfig) (s : BatchState R) :
    BatchAct R → Option (BatchState R)
  | .cancelRequest r cause =>
    some { s with
      requestCtx := Function.update s.requestCtx r (cancelCause (s.requestCtx r) (some cause)) }
  | .propagate r =>
    -- the operation context exists once the call has created it
    match s.pc r, s.requestCtx r with
    | .enqueuing, some cause | .waiting, some cause | .returned _, some cause =>
      some { s with opCtx := Function.update s.opCtx r (cancelCause (s.opCtx r) (some cause)) }
    | _, _ => none
  | .call r size =>
    if s.pc r = .start then
      if size = -1 then some { s with pc := Function.update s.pc r .streaming }
      else
        some { s with
          opCtx := Function.update s.opCtx r (s.requestCtx r)
          pc := Function.update s.pc r .enqueuing }
    else none
  | .streamResult r res =>
    if s.pc r = .streaming then
      some { s with
        executed := s.executed ++ [([r], res)]
        pc := Function.update s.pc r (.returned (res.filter fun err => !isSameRootError err)) }
    else none
  | .enqueue r =>
    if s.pc r = .enqueuing ∧ s.batchUploadChan.length < cfg.maxOperations * cfg.maxWorkers then
      some { s with
        batchUploadChan := s.batchUploadChan ++ [r]
        pc := Function.update s.pc r .waiting }
    else none
  | .finish r =>
    match s.pc r, s.opCtx r with
    | .waiting, some cause =>
      some { s with
        pc := Function.update s.pc r (.returned (if cause = .canceled then none else some cause)) }
    | _, _ => none
  | .receive =>
    match s.loop, s.batchUploadChan with
    | .select, op :: rest => some ({ s with batchUploadChan := rest }.append cfg op)
    | _, _ => none
  | .handOver r =>
    -- the channel has no buffer: sender and receiver meet
    if s.pc r = .enqueuing ∧ cfg.maxOperations * cfg.maxWorkers = 0 ∧ s.loop = .select then
      some ({ s with pc := Function.update s.pc r .waiting }.append cfg r)
    else none
  | .checkEmpty =>
    if s.loop = .checkEmpty then
      if s.batchUploadChan.length = 0 then
        some { s with iterations := s.iterations + 1, loop := .sleeping }
      else some { s with loop := .select }
    else none
  | .wake =>
    if s.loop = .sleeping then
      some { s with loop := if s.batchUploadChan.length = 0 then .send else .select }
    else none
  | .sendBatch =>
    if s.loop = .send ∧ s.workerChan.length < cfg.maxWorkers then
      some { s with
        workerChan := s.workerChan ++ [s.opRequest]
        sent := s.sent ++ [s.opRequest]
        opRequest := []
        iterations := 0
        loop := .select }
    else none
  | .loopStop => if s.loop = .select ∧ s.shutdown then some { s with loop := .stopped } else none
  | .workerReceive w =>
    match s.worker w, s.workerChan with
    | .select, ops :: rest =>
      if w < cfg.maxWorkers then
        some { s with workerChan := rest, worker := Function.update s.worker w (.running ops) }
      else none
    | _, _ => none
  | .workerResult w res =>
    match s.worker w with
    | .running ops =>
      some { s with
        executed := s.executed ++ [(ops, res)]
        worker := Function.update s.worker w (.cancelling (workerError res) ops) }
    | _ => none
  | .workerCancel w =>
    match s.worker w with
    | .cancelling _ [] => some { s with worker := Function.update s.worker w .select }
    | .cancelling err (r :: ops) =>
      some { s with
        opCtx := Function.update s.opCtx r (cancelCause (s.opCtx r) err)
        worker := Function.update s.worker w (.cancelling err ops) }
    | _ => none
  | .workerStop w =>
    match s.worker w with
    | .select =>
      if s.shutdown then some { s with worker := Function.update s.worker w .stopped } else none
    | _ => none
  | .shutdown => some { s with shutdown := true }

/-! ### What a nil result should mean -/

/-- `DoMultiOperation` returned nil or a same-root error. -/
def Commits (res : Option GoError) : Prop := ∀ err, res = some err → isSameRootError err = true

/-- A batch with operation `r` was executed by `DoMultiOperation` with a nil or same-root result. -/
def Committed (s : BatchState R) (r : R) : Prop :=
  ∃ ops res, (ops, res) ∈ s.executed ∧ r ∈ ops ∧ Commits res

/-- **A success means the data was committed.** -/
def NilMeansCommitted (s : BatchState R) : Prop :=
  ∀ r, s.pc r = .returned none → Committed s r

/-- No live operation context takes the cause `context.Canceled` from its request before its batch
is committed. -/
def NoStrayCancel (s : BatchState R) (a : BatchAct R) : Prop :=
  (∀ r, a = .propagate r → s.requestCtx r = some .canceled → s.opCtx r = none → Committed s r) ∧
    ∀ r size, a = .call r size → size ≠ -1 → s.requestCtx r ≠ some .canceled

/-! ### What a step can do -/

section Runs

variable [DecidableEq R] {cfg : BatchConfig} {s s' : BatchState R} {a : BatchAct R}

/-- **The transitions**, one for each branch of `batchStep`. -/
inductive BatchTrans (cfg : BatchConfig) (s : BatchState R) : BatchAct R → BatchState R → Prop
  | cancelRequest (r : R) (cause : GoError) :
      BatchTrans cfg s (.cancelRequest r cause) { s with
        requestCtx := Function.update s.requestCtx r (cancelCause (s.requestCtx r) (some cause)) }
  | propagate (r : R) (cause : GoError) (hpc : s.pc r ≠ .start ∧ s.pc r ≠ .streaming)
      (hctx : s.requestCtx r = some cause) :
      BatchTrans cfg s (.propagate r) { s with
        opCtx := Function.update s.opCtx r (cancelCause (s.opCtx r) (some cause)) }
  | callStream (r : R) (hpc : s.pc r = .start) :
      BatchTrans cfg s (.call r (-1)) { s with pc := Function.update s.pc r .streaming }
  | call (r : R) (size : ℤ) (hpc : s.pc r = .start) (hsize : size ≠ -1) :
      BatchTrans cfg s (.call r size) { s with
        opCtx := Function.update s.opCtx r (s.requestCtx r)
        pc := Function.update s.pc r .enqueuing }
  | streamResult (r : R) (res : Option GoError) (hpc : s.pc r = .streaming) :
      BatchTrans cfg s (.streamResult r res) { s with
        executed := s.executed ++ [([r], res)]
        pc := Function.update s.pc r (.returned (res.filter fun err => !isSameRootError err)) }
  | enqueue (r : R) (hpc : s.pc r = .enqueuing)
      (hroom : s.batchUploadChan.length < cfg.maxOperations * cfg.maxWorkers) :
      BatchTrans cfg s (.enqueue r) { s with
        batchUploadChan := s.batchUploadChan ++ [r]
        pc := Function.update s.pc r .waiting }
  | finish (r : R) (cause : GoError) (hpc : s.pc r = .waiting) (hctx : s.opCtx r = some cause) :
      BatchTrans cfg s (.finish r) { s with
        pc := Function.update s.pc r (.returned (if cause = .canceled then none else some cause)) }
  | receive (op : R) (rest : List R) (hloop : s.loop = .select)
      (hchan : s.batchUploadChan = op :: rest) :
      BatchTrans cfg s .receive ({ s with batchUploadChan := rest }.append cfg op)
  | handOver (r : R) (hpc : s.pc r = .enqueuing) (hcap : cfg.maxOperations * cfg.maxWorkers = 0)
      (hloop : s.loop = .select) :
      BatchTrans cfg s (.handOver r)
        ({ s with pc := Function.update s.pc r .waiting }.append cfg r)
  | checkEmptyWait (hloop : s.loop = .checkEmpty) (hchan : s.batchUploadChan.length = 0) :
      BatchTrans cfg s .checkEmpty { s with iterations := s.iterations + 1, loop := .sleeping }
  | checkEmptyMore (hloop : s.loop = .checkEmpty) (hchan : s.batchUploadChan.length ≠ 0) :
      BatchTrans cfg s .checkEmpty { s with loop := .select }
  | wake (hloop : s.loop = .sleeping) :
      BatchTrans cfg s .wake
        { s with loop := if s.batchUploadChan.length = 0 then .send else .select }
  | sendBatch (hloop : s.loop = .send) (hroom : s.workerChan.length < cfg.maxWorkers) :
      BatchTrans cfg s .sendBatch { s with
        workerChan := s.workerChan ++ [s.opRequest]
        sent := s.sent ++ [s.opRequest]
        opRequest := []
        iterations := 0
        loop := .select }
  | loopStop (hloop : s.loop = .select) (hdown : s.shutdown = true) :
      BatchTrans cfg s .loopStop { s with loop := .stopped }
  | workerReceive (w : ℕ) (ops : List R) (rest : List (List R)) (hw : s.worker w = .select)
      (hchan : s.workerChan = ops :: rest) (hlt : w < cfg.maxWorkers) :
      BatchTrans cfg s (.workerReceive w) { s with
        workerChan := rest
        worker := Function.update s.worker w (.running ops) }
  | workerResult (w : ℕ) (res : Option GoError) (ops : List R) (hw : s.worker w = .running ops) :
      BatchTrans cfg s (.workerResult w res) { s with
        executed := s.executed ++ [(ops, res)]
        worker := Function.update s.worker w (.cancelling (workerError res) ops) }
  | workerCancelEnd (w : ℕ) (err : Option GoError) (hw : s.worker w = .cancelling err []) :
      BatchTrans cfg s (.workerCancel w) { s with worker := Function.update s.worker w .select }
  | workerCancel (w : ℕ) (err : Option GoError) (r : R) (ops : List R)
      (hw : s.worker w = .cancelling err (r :: ops)) :
      BatchTrans cfg s (.workerCancel w) { s with
        opCtx := Function.update s.opCtx r (cancelCause (s.opCtx r) err)
        worker := Function.update s.worker w (.cancelling err ops) }
  | workerStop (w : ℕ) (hw : s.worker w = .select) (hdown : s.shutdown = true) :
      BatchTrans cfg s (.workerStop w) { s with worker := Function.update s.worker w .stopped }
  | shutdown : BatchTrans cfg s .shutdown { s with shutdown := true }

theorem batchStep_trans (h : batchStep cfg s a = some s') : BatchTrans cfg s a s' := by
  cases a with
  | cancelRequest r cause =>
    obtain rfl := Option.some.inj h
    exact .cancelRequest r cause
  | propagate r =>
    simp only [batchStep] at h
    split at h
    · next cause hpc hctx =>
      obtain rfl := Option.some.inj h
      exact .propagate r cause (by simp [hpc]) hctx
    · next cause hpc hctx =>
      obtain rfl := Option.some.inj h
      exact .propagate r cause (by simp [hpc]) hctx
    · next cause hpc hctx =>
      obtain rfl := Option.some.inj h
      exact .propagate r cause (by simp [hpc]) hctx
    · exact absurd h (by simp)
  | call r size =>
    simp only [batchStep] at h
    split at h
    · next hpc =>
      split at h
      · next hsize =>
        obtain rfl := Option.some.inj h
        subst hsize
        exact .callStream r hpc
      · next hsize =>
        obtain rfl := Option.some.inj h
        exact .call r size hpc hsize
    · exact absurd h (by simp)
  | streamResult r res =>
    simp only [batchStep] at h
    split at h
    · next hpc =>
      obtain rfl := Option.some.inj h
      exact .streamResult r res hpc
    · exact absurd h (by simp)
  | enqueue r =>
    simp only [batchStep] at h
    split at h
    · next hc =>
      obtain rfl := Option.some.inj h
      exact .enqueue r hc.1 hc.2
    · exact absurd h (by simp)
  | finish r =>
    simp only [batchStep] at h
    split at h
    · next cause hpc hctx =>
      obtain rfl := Option.some.inj h
      exact .finish r cause hpc hctx
    · exact absurd h (by simp)
  | receive =>
    simp only [batchStep] at h
    split at h
    · next op rest hloop hchan =>
      obtain rfl := Option.some.inj h
      exact .receive op rest hloop hchan
    · exact absurd h (by simp)
  | handOver r =>
    simp only [batchStep] at h
    split at h
    · next hc =>
      obtain rfl := Option.some.inj h
      exact .handOver r hc.1 hc.2.1 hc.2.2
    · exact absurd h (by simp)
  | checkEmpty =>
    simp only [batchStep] at h
    split at h
    · next hloop =>
      split at h
      · next hchan =>
        obtain rfl := Option.some.inj h
        exact .checkEmptyWait hloop hchan
      · next hchan =>
        obtain rfl := Option.some.inj h
        exact .checkEmptyMore hloop hchan
    · exact absurd h (by simp)
  | wake =>
    simp only [batchStep] at h
    split at h
    · next hloop =>
      obtain rfl := Option.some.inj h
      exact .wake hloop
    · exact absurd h (by simp)
  | sendBatch =>
    simp only [batchStep] at h
    split at h
    · next hc =>
      obtain rfl := Option.some.inj h
      exact .sendBatch hc.1 hc.2
    · exact absurd h (by simp)
  | loopStop =>
    simp only [batchStep] at h
    split at h
    · next hc =>
      obtain rfl := Option.some.inj h
      exact .loopStop hc.1 hc.2
    · exact absurd h (by simp)
  | workerReceive w =>
    simp only [batchStep] at h
    split at h
    · next ops rest hw hchan =>
      split at h
      · next hlt =>
        obtain rfl := Option.some.inj h
        exact .workerReceive w ops rest hw hchan hlt
      · exact absurd h (by simp)
    · exact absurd h (by simp)
  | workerResult w res =>
    simp only [batchStep] at h
    split at h
    · next ops hw =>
      obtain rfl := Option.some.inj h
      exact .workerResult w res ops hw
    · exact absurd h (by simp)
  | workerCancel w =>
    simp only [batchStep] at h
    split at h
    · next err hw =>
      obtain rfl := Option.some.inj h
      exact .workerCancelEnd w err hw
    · next err r ops hw =>
      obtain rfl := Option.some.inj h
      exact .workerCancel w err r ops hw
    · exact absurd h (by simp)
  | workerStop w =>
    simp only [batchStep] at h
    split at h
    · next hw =>
      split at h
      · next hdown =>
        obtain rfl := Option.some.inj h
        exact .workerStop w hw hdown
      · exact absurd h (by simp)
    · exact absurd h (by simp)
  | shutdown =>
    obtain rfl := Option.some.inj h
    exact .shutdown

/-! ### Commits along a run -/

omit [DecidableEq R] in
theorem Committed.mono {r : R} (h : Committed s r) (hsub : s.executed ⊆ s'.executed) :
    Committed s' r := by
  obtain ⟨ops, res, hmem, hr, hc⟩ := h
  exact ⟨ops, res, hsub hmem, hr, hc⟩

/-- A worker that reports nil, or would be taken for it, has a committed outcome. -/
theorem commits_of_workerError {res : Option GoError}
    (h : workerError res = none ∨ workerError res = some .canceled) : Commits res := by
  intro err herr
  subst herr
  by_contra hroot
  simp only [workerError, hroot] at h
  by_cases hc : err = .canceled
  · subst hc
    simp at h
  · simp [hc] at h

/-- **The commit invariant.**  A context cancelled with `context.Canceled` and a nil result both mean
a committed batch, and a worker cancels the operations of a batch it executed. -/
structure CommitInv (s : BatchState R) : Prop where
  ctx : ∀ r, s.opCtx r = some .canceled → Committed s r
  ret : ∀ r, s.pc r = .returned none → Committed s r
  worker : ∀ w err ops, s.worker w = .cancelling err ops →
    ∃ full res, (full, res) ∈ s.executed ∧ ops ⊆ full ∧ err = workerError res

omit [DecidableEq R] in
/-- A step keeps the invariant if what is new in it is accounted for. -/
theorem CommitInv.of_new (h : CommitInv s) (hsub : s.executed ⊆ s'.executed)
    (hctx : ∀ r, s'.opCtx r = some .canceled → s.opCtx r = some .canceled ∨ Committed s' r)
    (hret : ∀ r, s'.pc r = .returned none → s.pc r = .returned none ∨ Committed s' r)
    (hworker : ∀ w err ops, s'.worker w = .cancelling err ops →
      (∃ ops₀, s.worker w = .cancelling err ops₀ ∧ ops ⊆ ops₀) ∨
        ∃ full res, (full, res) ∈ s'.executed ∧ ops ⊆ full ∧ err = workerError res) :
    CommitInv s' where
  ctx r hr := (hctx r hr).elim (fun h' => (h.ctx r h').mono hsub) id
  ret r hr := (hret r hr).elim (fun h' => (h.ret r h').mono hsub) id
  worker w err ops hw := by
    rcases hworker w err ops hw with ⟨ops₀, h₀, hle⟩ | hnew
    · obtain ⟨full, res, hmem, hle', herr⟩ := h.worker w err ops₀ h₀
      exact ⟨full, res, hsub hmem, List.Subset.trans hle hle', herr⟩
    · exact hnew

/-- A call that moves on without returning nil. -/
theorem CommitInv.move_call {r : R} {x : PutFilePc} (h : CommitInv s) (hx : x ≠ .returned none)
    (hpc : s'.pc = Function.update s.pc r x) (hctx : s'.opCtx = s.opCtx)
    (hworker : s'.worker = s.worker) (hexec : s'.executed = s.executed) : CommitInv s' := by
  refine h.of_new (by rw [hexec]; exact fun _ h => h) (fun q hq => Or.inl (hctx ▸ hq)) ?_
    (fun w err ops hw => Or.inl ⟨ops, hworker ▸ hw, fun _ h => h⟩)
  intro q hq
  rw [hpc] at hq
  rcases update_cases hq with ⟨-, hv⟩ | ⟨-, hq'⟩
  · exact absurd hv hx
  · exact Or.inl hq'

omit [DecidableEq R] in
/-- A worker that moves on without starting to cancel. -/
theorem CommitInv.move_worker {w : ℕ} {x : WorkerPc R} (h : CommitInv s)
    (hx : ∀ err ops, x ≠ .cancelling err ops) (hworker : s'.worker = Function.update s.worker w x)
    (hpc : s'.pc = s.pc) (hctx : s'.opCtx = s.opCtx) (hexec : s'.executed = s.executed) :
    CommitInv s' := by
  refine h.of_new (by rw [hexec]; exact fun _ h => h) (fun q hq => Or.inl (hctx ▸ hq))
    (fun q hq => Or.inl (hpc ▸ hq)) ?_
  intro v err ops hv
  rw [hworker] at hv
  rcases update_cases hv with ⟨-, hc⟩ | ⟨-, hv'⟩
  · exact absurd hc (hx err ops)
  · exact Or.inl ⟨ops, hv', fun _ h => h⟩

/-- **One step**: a step without a stray cancellation keeps the invariant. -/
theorem commitInv_step (h : CommitInv s) (hok : NoStrayCancel s a)
    (hst : batchStep cfg s a = some s') : CommitInv s' := by
  have same : ∀ {w : ℕ} {err : Option GoError} {ops : List R}, s.worker w = .cancelling err ops →
      ∃ ops₀, s.worker w = .cancelling err ops₀ ∧ ops ⊆ ops₀ := fun hw => ⟨_, hw, fun _ h => h⟩
  cases batchStep_trans hst with
  | cancelRequest r cause => exact ⟨h.ctx, h.ret, h.worker⟩
  | propagate r cause hpc hctx =>
    refine h.of_new (fun _ h => h) ?_ (fun _ h => Or.inl h) (fun _ _ _ hw => Or.inl (same hw))
    intro q hq
    rcases update_cases hq with ⟨rfl, hv⟩ | ⟨-, hq'⟩
    · rcases (cancelCause_eq_canceled_iff _ _).mp hv with hold | ⟨hlive, hc | hc⟩
      · exact Or.inl hold
      · exact absurd hc (by simp)
      · rw [hc] at hctx
        exact Or.inr (hok.1 q rfl hctx hlive)
    · exact Or.inl hq'
  | callStream r hpc => exact h.move_call (by simp) rfl rfl rfl rfl
  | call r size hpc hsize =>
    refine h.of_new (fun _ h => h) ?_ ?_ (fun _ _ _ hw => Or.inl (same hw))
    · intro q hq
      rcases update_cases hq with ⟨rfl, hv⟩ | ⟨-, hq'⟩
      · exact absurd hv (hok.2 q size rfl hsize)
      · exact Or.inl hq'
    · intro q hq
      rcases update_cases hq with ⟨-, hv⟩ | ⟨-, hq'⟩
      · exact absurd hv (by simp)
      · exact Or.inl hq'
  | streamResult r res hpc =>
    have hsub : s.executed ⊆ s.executed ++ [([r], res)] := List.subset_append_left _ _
    refine h.of_new hsub (fun _ h => Or.inl h) ?_ (fun _ _ _ hw => Or.inl (same hw))
    intro q hq
    rcases update_cases hq with ⟨rfl, hv⟩ | ⟨-, hq'⟩
    · refine Or.inr ⟨[q], res, by simp, by simp, ?_⟩
      intro err herr
      subst herr
      simpa using hv
    · exact Or.inl hq'
  | enqueue r hpc hroom => exact h.move_call (by simp) rfl rfl rfl rfl
  | finish r cause hpc hctx =>
    refine h.of_new (fun _ h => h) (fun _ h => Or.inl h) ?_ (fun _ _ _ hw => Or.inl (same hw))
    intro q hq
    rcases update_cases hq with ⟨rfl, hv⟩ | ⟨-, hq'⟩
    · have hc : cause = .canceled := by simpa using hv
      subst hc
      exact Or.inr (h.ctx q hctx)
    · exact Or.inl hq'
  | receive op rest hloop hchan => exact ⟨h.ctx, h.ret, h.worker⟩
  | handOver r hpc hcap hloop => exact h.move_call (by simp) rfl rfl rfl rfl
  | checkEmptyWait hloop hchan => exact ⟨h.ctx, h.ret, h.worker⟩
  | checkEmptyMore hloop hchan => exact ⟨h.ctx, h.ret, h.worker⟩
  | wake hloop => exact ⟨h.ctx, h.ret, h.worker⟩
  | sendBatch hloop hroom => exact ⟨h.ctx, h.ret, h.worker⟩
  | loopStop hloop hdown => exact ⟨h.ctx, h.ret, h.worker⟩
  | workerReceive w ops rest hw hchan hlt =>
    exact h.move_worker (by simp) rfl rfl rfl rfl
  | workerResult w res ops hw =>
    have hsub : s.executed ⊆ s.executed ++ [(ops, res)] := List.subset_append_left _ _
    refine h.of_new hsub (fun _ h => Or.inl h) (fun _ h => Or.inl h) ?_
    intro v err ops' hv
    rcases update_cases hv with ⟨-, hc⟩ | ⟨-, hv'⟩
    · obtain ⟨rfl, rfl⟩ := WorkerPc.cancelling.inj hc
      exact Or.inr ⟨ops, res, by simp, fun _ h => h, rfl⟩
    · exact Or.inl (same hv')
  | workerCancelEnd w err hw =>
    exact h.move_worker (by simp) rfl rfl rfl rfl
  | workerCancel w err r ops hw =>
    obtain ⟨full, res, hmem, hsub, herr⟩ := h.worker w err (r :: ops) hw
    refine h.of_new (fun _ h => h) ?_ (fun _ h => Or.inl h) ?_
    · intro q hq
      rcases update_cases hq with ⟨rfl, hv⟩ | ⟨-, hq'⟩
      · rcases (cancelCause_eq_canceled_iff _ _).mp hv with hold | ⟨-, hc⟩
        · exact Or.inl hold
        · rw [herr] at hc
          exact Or.inr ⟨full, res, hmem, hsub (by simp), commits_of_workerError hc⟩
      · exact Or.inl hq'
    · intro v err' ops' hv
      rcases update_cases hv with ⟨rfl, hc⟩ | ⟨-, hv'⟩
      · obtain ⟨rfl, rfl⟩ := WorkerPc.cancelling.inj hc
        exact Or.inl ⟨_, hw, List.subset_cons_self _ _⟩
      · exact Or.inl (same hv')
  | workerStop w hw hdown =>
    exact h.move_worker (by simp) rfl rfl rfl rfl
  | shutdown => exact ⟨h.ctx, h.ret, h.worker⟩

omit [DecidableEq R] in
theorem batchInit_commitInv : CommitInv (batchInit : BatchState R) where
  ctx r h := absurd h (by simp [batchInit])
  ret r h := absurd h (by simp [batchInit])
  worker w err ops h := absurd h (by simp [batchInit])

/-- A waiting upload whose request is cancelled returns nil, whatever became of its batch. -/
theorem nil_of_stray_cancel {r : R} (hpc : s.pc r = .waiting) (hctx : s.opCtx r = none)
    (hreq : s.requestCtx r = some .canceled) (hnot : ¬ Committed s r) :
    ∃ s', Reaches (batchStep cfg) (fun _ _ => True) s s' ∧ ¬ NilMeansCommitted s' := by
  have h₁ : batchStep cfg s (.propagate r) =
      some { s with opCtx := Function.update s.opCtx r (some .canceled) } := by
    simp [batchStep, hpc, hctx, hreq, cancelCause]
  have h₂ : batchStep cfg { s with opCtx := Function.update s.opCtx r (some .canceled) }
      (.finish r) = some { s with
        opCtx := Function.update s.opCtx r (some .canceled)
        pc := Function.update s.pc r (.returned none) } := by
    simp [batchStep, hpc]
  refine ⟨_, (Reaches.single trivial h₁).snoc trivial h₂, ?_⟩
  intro hnil
  have hc := hnil r (Function.update_self r (.returned none) s.pc)
  exact hnot (hc.mono fun _ h => h)

/-- **A nil result of `putFile` means committed exactly as long as no request cancellation is taken
for a success.**  In every run without such a cancellation every nil result has its committed batch;
and in every reachable state a waiting, uncommitted upload whose request is cancelled can return
nil without it. -/
theorem putFile_nil_committed (cfg : BatchConfig) :
    (∀ s : BatchState R, Reaches (batchStep cfg) NoStrayCancel batchInit s → NilMeansCommitted s) ∧
    (∀ s : BatchState R, Reaches (batchStep cfg) (fun _ _ => True) batchInit s →
      ∀ r, s.pc r = .waiting → s.opCtx r = none → s.requestCtx r = some .canceled →
        ¬ Committed s r →
        ∃ s', Reaches (batchStep cfg) (fun _ _ => True) s s' ∧ ¬ NilMeansCommitted s') := by
  constructor
  · intro s h
    have hinv : CommitInv s :=
      h.invariant batchInit_commitInv fun _ _ _ hi hok hst => commitInv_step hi hok hst
    exact hinv.ret
  · intro s _ r hpc hctx hreq hnot
    exact nil_of_stray_cancel hpc hctx hreq hnot

end Runs

/-- The configuration of the witnesses: batches of two operations, one worker. -/
def twoByOne : BatchConfig := ⟨2, 1⟩

/-- A run in which an upload is batched and committed, and its request is cancelled afterwards. -/
theorem putFile_nil_committed_run :
    ∃ s : BatchState Unit, Reaches (batchStep twoByOne) NoStrayCancel batchInit s ∧
      s.pc () = .returned none ∧ Committed s () := by
  have hrun : ∃ s : BatchState Unit, runActs (batchStep twoByOne) batchInit
      [.call () 5, .enqueue (), .receive, .checkEmpty, .wake, .sendBatch, .workerReceive 0,
        .workerResult 0 none, .workerCancel 0, .cancelRequest () .canceled, .propagate (),
        .finish ()] = some s ∧ s.pc () = .returned none := ⟨_, rfl, rfl⟩
  obtain ⟨s, hacts, hret⟩ := hrun
  have hreach : Reaches (batchStep twoByOne) NoStrayCancel batchInit s := by
    refine reaches_of_runOk _ hacts ?_
    simp [RunOk, NoStrayCancel, batchStep, batchInit, BatchState.append, twoByOne, cancelCause]
  exact ⟨s, hreach, hret, (putFile_nil_committed twoByOne).1 s hreach () hret⟩

/-- **A client that disconnects is told its upload succeeded**: the operation is still in
`batchUploadChan`, nothing was executed, and `putFile` returns nil. -/
theorem putFile_nil_uncommitted :
    ∃ s : BatchState Unit, Reaches (batchStep twoByOne) (fun _ _ => True) batchInit s ∧
      s.pc () = .returned none ∧ s.executed = [] ∧ ¬ Committed s () := by
  have hrun : ∃ s : BatchState Unit, runActs (batchStep twoByOne) batchInit
      [.call () 5, .enqueue (), .cancelRequest () .canceled, .propagate (), .finish ()] = some s ∧
      s.pc () = .returned none ∧ s.executed = [] := ⟨_, rfl, rfl, rfl⟩
  obtain ⟨s, hacts, hret, hexec⟩ := hrun
  refine ⟨s, reaches_of_runActs _ hacts, hret, hexec, ?_⟩
  rintro ⟨ops, res, hmem, -⟩
  rw [hexec] at hmem
  exact absurd hmem (by simp)

end Zs3Server.Gateway.BatchUpload
