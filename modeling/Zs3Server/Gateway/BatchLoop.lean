import Zs3Server.Gateway.BatchUpload

/-!
# The batching loop

The batching goroutine of `IntiBatchUploadWorkers` collects operations in `opRequest` and sends them
on when the batch is full, when it has waited three times, or when no further operation is there after
a wait.  Its counter and its slice are reset wherever a batch is sent.

* `LoopInv` / `loopInv_step` — what is sent followed by what is pending is what was received; a batch
  is sent with at least one and at most `maxOperations` operations; the loop only waits with
  operations in hand while more of them are in `batchUploadChan`;
* `batchLoop_conserves` — so nothing is lost, duplicated, reordered or stranded in any run.
-/

namespace Zs3Server.Gateway.BatchLoop

open Lib.StepSystem Gateway.BatchUpload

variable {R : Type}

/-! ### The invariant of the loop -/

/-- What `opRequest` holds at each point of the loop.  Only the loop receives from
`batchUploadChan`, so an operation seen there stays until the loop is back at its `select`. -/
def PendingOk (cfg : BatchConfig) (s : BatchState R) : Prop :=
  match s.loop with
  | .select =>
    s.opRequest.length < cfg.maxOperations ∧ (s.opRequest ≠ [] → s.batchUploadChan ≠ [])
  | .checkEmpty | .sleeping => s.opRequest ≠ [] ∧ s.opRequest.length < cfg.maxOperations
  | .send => s.opRequest ≠ [] ∧ s.opRequest.length ≤ cfg.maxOperations
  | .stopped => True

/-- **The loop invariant.** -/
structure LoopInv (cfg : BatchConfig) (s : BatchState R) : Prop where
  order : s.sent.flatten ++ s.opRequest = s.received
  sizes : ∀ ops ∈ s.sent, 1 ≤ ops.length ∧ ops.length ≤ cfg.maxOperations
  pending : PendingOk cfg s

variable {cfg : BatchConfig} {s s' : BatchState R}

theorem batchInit_loopInv (hmax : 1 ≤ cfg.maxOperations) :
    LoopInv cfg (batchInit : BatchState R) where
  order := rfl
  sizes ops h := absurd h (by simp [batchInit])
  pending := ⟨hmax, fun h => absurd rfl h⟩

/-- A step of another goroutine: the loop is where it was, and operations may have arrived. -/
theorem LoopInv.of_frame (h : LoopInv cfg s) (hloop : s'.loop = s.loop)
    (hops : s'.opRequest = s.opRequest) (hsent : s'.sent = s.sent)
    (hrec : s'.received = s.received)
    (hchan : s.batchUploadChan ≠ [] → s'.batchUploadChan ≠ []) : LoopInv cfg s' where
  order := by rw [hsent, hops, hrec]; exact h.order
  sizes := by rw [hsent]; exact h.sizes
  pending := by
    have hp := h.pending
    unfold PendingOk at hp ⊢
    rw [hloop, hops]
    cases hl : s.loop with
    | select =>
      rw [hl] at hp
      exact ⟨hp.1, fun hne => hchan (hp.2 hne)⟩
    | checkEmpty => rw [hl] at hp; exact hp
    | sleeping => rw [hl] at hp; exact hp
    | send => rw [hl] at hp; exact hp
    | stopped => trivial

/-- A received operation goes to the end of `opRequest`, whose length decides what comes next. -/
theorem LoopInv.append (h : LoopInv cfg s) (hloop : s.loop = .select) (t : BatchState R)
    (hops : t.opRequest = s.opRequest) (hsent : t.sent = s.sent) (hrec : t.received = s.received)
    (op : R) : LoopInv cfg (t.append cfg op) where
  order := by
    show t.sent.flatten ++ (t.opRequest ++ [op]) = t.received ++ [op]
    rw [hsent, hops, hrec, ← List.append_assoc, h.order]
  sizes := by
    show ∀ ops ∈ t.sent, _
    rw [hsent]
    exact h.sizes
  pending := by
    have hp := h.pending
    simp only [PendingOk, hloop] at hp
    have hlen : (t.opRequest ++ [op]).length = s.opRequest.length + 1 := by simp [hops]
    unfold PendingOk BatchState.append
    by_cases hc : (t.opRequest ++ [op]).length = cfg.maxOperations ∨ 2 < t.iterations
    · simp only [if_pos hc]
      exact ⟨by simp, by omega⟩
    · simp only [if_neg hc]
      exact ⟨by simp, by omega⟩

/-- **One step** of any goroutine keeps the loop invariant. -/
theorem loopInv_step [DecidableEq R] (hmax : 1 ≤ cfg.maxOperations) (h : LoopInv cfg s)
    {a : BatchAct R} (hst : batchStep cfg s a = some s') : LoopInv cfg s' := by
  have hp := h.pending
  cases batchStep_trans hst with
  | cancelRequest r cause => exact h.of_frame rfl rfl rfl rfl id
  | propagate r cause hpc hctx => exact h.of_frame rfl rfl rfl rfl id
  | callStream r hpc => exact h.of_frame rfl rfl rfl rfl id
  | call r size hpc hsize => exact h.of_frame rfl rfl rfl rfl id
  | streamResult r res hpc => exact h.of_frame rfl rfl rfl rfl id
  | enqueue r hpc hroom => exact h.of_frame rfl rfl rfl rfl (by simp)
  | finish r cause hpc hctx => exact h.of_frame rfl rfl rfl rfl id
  | receive op rest hloop hchan =>
    exact h.append hloop { s with batchUploadChan := rest } rfl rfl rfl op
  | handOver r hpc hcap hloop =>
    exact h.append hloop { s with pc := Function.update s.pc r .waiting } rfl rfl rfl r
  | checkEmptyWait hloop hchan =>
    simp only [PendingOk, hloop] at hp
    exact ⟨h.order, h.sizes, hp⟩
  | checkEmptyMore hloop hchan =>
    simp only [PendingOk, hloop] at hp
    have hne : s.batchUploadChan ≠ [] := fun h0 => hchan (by rw [h0]; rfl)
    exact ⟨h.order, h.sizes, hp.2, fun _ => hne⟩
  | wake hloop =>
    simp only [PendingOk, hloop] at hp
    refine ⟨h.order, h.sizes, ?_⟩
    unfold PendingOk
    by_cases hchan : s.batchUploadChan.length = 0
    · simp only [if_pos hchan]
      exact ⟨hp.1, hp.2.le⟩
    · simp only [if_neg hchan]
      exact ⟨hp.2, fun _ h0 => hchan (by rw [h0]; rfl)⟩
  | sendBatch hloop hroom =>
    simp only [PendingOk, hloop] at hp
    have hpos : 1 ≤ s.opRequest.length := List.length_pos_of_ne_nil hp.1
    refine ⟨?_, ?_, hmax, fun h0 => absurd rfl h0⟩
    · show (s.sent ++ [s.opRequest]).flatten ++ [] = s.received
      rw [List.flatten_append, List.flatten_singleton, List.append_nil, h.order]
    · intro ops hops
      rcases List.mem_append.mp hops with hold | hnew
      · exact h.sizes ops hold
      · obtain rfl := List.mem_singleton.mp hnew
        exact ⟨hpos, hp.2⟩
  | loopStop hloop hdown => exact ⟨h.order, h.sizes, trivial⟩
  | workerReceive w ops rest hw hchan hlt => exact h.of_frame rfl rfl rfl rfl id
  | workerResult w res ops hw => exact h.of_frame rfl rfl rfl rfl id
  | workerCancelEnd w err hw => exact h.of_frame rfl rfl rfl rfl id
  | workerCancel w err r ops hw => exact h.of_frame rfl rfl rfl rfl id
  | workerStop w hw hdown => exact h.of_frame rfl rfl rfl rfl id
  | shutdown => exact h.of_frame rfl rfl rfl rfl id

/-! ### Every run -/

/-- **The batching loop neither loses, duplicates, reorders nor strands uploads.**  In every state
of every run the batches sent, followed by the pending operations, are what was received, in that
order; every batch has between one and `maxOperations` operations; and while the loop is waiting
at its `select` with nothing in `batchUploadChan`, nothing is pending. -/
theorem batchLoop_conserves [DecidableEq R] (cfg : BatchConfig) (hmax : 1 ≤ cfg.maxOperations)
    (s : BatchState R) (hs : Reaches (batchStep cfg) (fun _ _ => True) batchInit s) :
    s.sent.flatten ++ s.opRequest = s.received ∧
      (∀ ops ∈ s.sent, 1 ≤ ops.length ∧ ops.length ≤ cfg.maxOperations) ∧
      (s.loop = .select → s.batchUploadChan = [] → s.opRequest = []) := by
  have hinv : LoopInv cfg s :=
    hs.invariant (batchInit_loopInv hmax) fun _ _ _ hi _ hst => loopInv_step hmax hi hst
  refine ⟨hinv.order, hinv.sizes, fun hloop hchan => ?_⟩
  have hp := hinv.pending
  simp only [PendingOk, hloop] at hp
  by_contra hne
  exact hp.2 hne hchan

/-- Three uploads through batches of two: the first two fill a batch, the third one is sent after the
wait that finds no further operation. -/
theorem batchLoop_conserves_three :
    ∃ s : BatchState (Fin 3), Reaches (batchStep twoByOne) (fun _ _ => True) batchInit s ∧
      s.received = [0, 1, 2] ∧ s.sent.flatten ++ s.opRequest = [0, 1, 2] ∧
      s.sent = [[0, 1], [2]] ∧ s.opRequest = [] := by
  have hrun : ∃ s : BatchState (Fin 3), runActs (batchStep twoByOne) batchInit
      [.call 0 5, .enqueue 0, .call 1 5, .enqueue 1, .receive, .checkEmpty, .receive, .sendBatch,
        .call 2 5, .enqueue 2, .workerReceive 0, .receive, .checkEmpty, .wake, .sendBatch] = some s ∧
      s.received = [0, 1, 2] ∧ s.sent = [[0, 1], [2]] ∧ s.loop = .select ∧
      s.batchUploadChan = [] := ⟨_, rfl, rfl, rfl, rfl, rfl⟩
  obtain ⟨s, hacts, hrec, hsent, hloop, hchan⟩ := hrun
  have hs := reaches_of_runActs _ hacts
  obtain ⟨horder, -, hempty⟩ := batchLoop_conserves twoByOne (by decide) s hs
  exact ⟨s, hs, hrec, hrec ▸ horder, hsent, hempty hloop hchan⟩

end Zs3Server.Gateway.BatchLoop
