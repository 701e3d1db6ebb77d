import Zs3Server.Lib.StepSystem
import Zs3Server.Lib.GoContext
import Zs3Server.Lib.Slots
import Zs3Server.Gateway.ListObjects

/-!
# Putting several objects at once

`PutMultipleObjects` starts one goroutine for each object.  A goroutine looks its remote path up and
fills its entry of `operationRequests`; a lookup error other than not-exist is sent on the unbuffered
`errCh` instead.  The spawning loop polls `errCh` once after each start, without waiting, and then
waits for the goroutines.

The model interleaves the loop and the goroutines in every way; the lookups have arbitrary outcomes.

* `MultiTrans` / `multiStep_trans` — the transitions;
* `MultiInv` / `multiInv_step` — which goroutines exist, what a finished one has written, and what
  `DoMultiOperation` was called with;
* `putMultiple_requests` — it is only ever called with the request of every object, in their order;
* `putMultiple_finishes_iff` — the call finishes, all or nothing, in every interleaving exactly when
  no lookup fails: after the last poll nobody receives from `errCh`.
-/

namespace Zs3Server.Gateway.PutMultiple

open Lib.StepSystem Lib.ByteString Lib.GoContext
open Lib.GoPath
open Lib.Slots (update_cases)
open Gateway.ListObjects (remotePath)

/-! ### The model -/

/-- The outcomes of `getSingleRegularRef` that `PutMultipleObjects` tells apart. -/
inductive Lookup where
  | found
  | notExist
  | failed (err : GoError)
  deriving DecidableEq

/-- The arguments: the bucket, the objects, the sizes of the readers, and how many options there
are (the options themselves are not read). -/
structure PutMultipleArgs where
  bucket : GoString
  objects : List GoString
  sizes : List ℤ
  opts : ℕ

/-- `total`. -/
def PutMultipleArgs.total (args : PutMultipleArgs) : ℕ := args.objects.length

/-- The checks before anything is started. -/
def checkArgs (args : PutMultipleArgs) : Option GoError :=
  if args.total ≤ 0 then some (.other (lit "no files to upload"))
  else if args.total ≠ args.sizes.length ∨ args.total ≠ args.opts then
    some (.other (lit "length mismatch of objects with file readers or with options"))
  else none

/-- The file name returned by `filepath.Split`. -/
def fileName (path : GoString) : GoString := (path.reverse.takeWhile (· ≠ slash)).reverse

/-- Insert a new file or update an existing one. -/
inductive OperationType where
  | insert
  | update
  deriving DecidableEq

/-- The fields of `sdk.OperationRequest` that depend on the object. -/
structure OperationRequest where
  remotePath : GoString
  actualSize : ℤ
  remoteName : GoString
  operationType : OperationType
  deriving DecidableEq

/-- The fields of `minio.ObjectInfo` that are set, apart from the time. -/
structure ObjectInfo where
  bucket : GoString
  name : GoString
  size : ℤ
  deriving DecidableEq

/-- The request built for object `idx` after its lookup. -/
def operationRequest (args : PutMultipleArgs) (lookup : Lookup) (idx : ℕ) : OperationRequest where
  remotePath := remotePath args.bucket (args.objects.getD idx [])
  actualSize := args.sizes.getD idx 0
  remoteName := fileName (remotePath args.bucket (args.objects.getD idx []))
  operationType := if lookup = .found then .update else .insert

/-- The description of object `idx` that is returned. -/
def objectInfo (args : PutMultipleArgs) (idx : ℕ) : ObjectInfo :=
  ⟨args.bucket, args.objects.getD idx [], args.sizes.getD idx 0⟩

/-- Where the calling goroutine is: about to start goroutine `i`, about to poll after it, in
`wg.Wait`, in `DoMultiOperation`, or done. -/
inductive CallPc where
  | spawn (i : ℕ)
  | poll (i : ℕ)
  | wait
  | calling
  | returned (res : Except GoError (List (Option ObjectInfo)))

/-- Where a lookup goroutine is; `done` is after `wg.Done`. -/
inductive LookupPc where
  | absent
  | running
  | sending (err : GoError)
  | done
  deriving DecidableEq

/-- Blocked at `errCh <- err`. -/
def LookupPc.isSending : LookupPc → Bool
  | .sending _ => true
  | _ => false

/-- A call of `PutMultipleObjects`; `multiOps` is what `DoMultiOperation` was called with. -/
structure MultiState where
  call : CallPc
  goroutine : ℕ → LookupPc
  operationRequests : ℕ → Option OperationRequest
  objectInfos : ℕ → Option ObjectInfo
  multiOps : Option (List (Option OperationRequest))

/-- The steps of the loop and of the goroutines. -/
inductive MultiAct where
  | spawn
  | pollReceive (i : ℕ)
  | pollDefault
  | lookup (i : ℕ)
  | waitDone
  | multiResult (res : Option GoError)

/-- The call after its argument checks. -/
def multiInit (args : PutMultipleArgs) : MultiState where
  call := match checkArgs args with
    | some err => .returned (.error err)
    | none => .spawn 0
  goroutine := fun _ => .absent
  operationRequests := fun _ => none
  objectInfos := fun _ => none
  multiOps := none

/-- One step. -/
def multiStep (args : PutMultipleArgs) (outcome : ℕ → Lookup) (s : MultiState) :
    MultiAct → Option MultiState
  | .spawn =>
    match s.call with
    | .spawn i => some { s with
        goroutine := Function.update s.goroutine i .running
        call := .poll i }
    | _ => none
  | .pollReceive i =>
    -- the channel has no buffer: the poll succeeds only if a goroutine is sending
    match s.call, s.goroutine i with
    | .poll _, .sending err => some { s with
        goroutine := Function.update s.goroutine i .done
        call := .returned (.error err) }
    | _, _ => none
  | .pollDefault =>
    match s.call with
    | .poll i =>
      if ∀ j < args.total, (s.goroutine j).isSending = false then
        some { s with call := if i + 1 < args.total then .spawn (i + 1) else .wait }
      else none
    | _ => none
  | .lookup i =>
    match s.goroutine i with
    | .running =>
      match outcome i with
      | .failed err => some { s with goroutine := Function.update s.goroutine i (.sending err) }
      | lookup => some { s with
          goroutine := Function.update s.goroutine i .done
          operationRequests :=
            Function.update s.operationRequests i (some (operationRequest args lookup i))
          objectInfos := Function.update s.objectInfos i (some (objectInfo args i)) }
    | _ => none
  | .waitDone =>
    match s.call with
    | .wait =>
      if ∀ j < args.total, s.goroutine j = .done then
        some { s with
          call := .calling
          multiOps := some ((List.range args.total).map s.operationRequests) }
      else none
    | _ => none
  | .multiResult res =>
    match s.call with
    | .calling => some { s with
        call := .returned (match res with
          | some err => .error err
          | none => .ok ((List.range args.total).map s.objectInfos)) }
    | _ => none

/-! ### What a step can do -/

section Runs

variable {args : PutMultipleArgs} {outcome : ℕ → Lookup} {s s' : MultiState} {a : MultiAct}

/-- **The transitions.** -/
inductive MultiTrans (args : PutMultipleArgs) (outcome : ℕ → Lookup) (s : MultiState) :
    MultiAct → MultiState → Prop
  | spawn (i : ℕ) (hcall : s.call = .spawn i) :
      MultiTrans args outcome s .spawn { s with
        goroutine := Function.update s.goroutine i .running
        call := .poll i }
  | pollReceive (i k : ℕ) (err : GoError) (hcall : s.call = .poll k)
      (hsend : s.goroutine i = .sending err) :
      MultiTrans args outcome s (.pollReceive i) { s with
        goroutine := Function.update s.goroutine i .done
        call := .returned (.error err) }
  | pollMore (i : ℕ) (hcall : s.call = .poll i) (hlt : i + 1 < args.total)
      (hnone : ∀ j < args.total, (s.goroutine j).isSending = false) :
      MultiTrans args outcome s .pollDefault { s with call := .spawn (i + 1) }
  | pollLast (i : ℕ) (hcall : s.call = .poll i) (hge : ¬ i + 1 < args.total)
      (hnone : ∀ j < args.total, (s.goroutine j).isSending = false) :
      MultiTrans args outcome s .pollDefault { s with call := .wait }
  | lookupFailed (i : ℕ) (err : GoError) (hrun : s.goroutine i = .running)
      (hout : outcome i = .failed err) :
      MultiTrans args outcome s (.lookup i) { s with
        goroutine := Function.update s.goroutine i (.sending err) }
  | lookupDone (i : ℕ) (hrun : s.goroutine i = .running) (hout : ∀ err, outcome i ≠ .failed err) :
      MultiTrans args outcome s (.lookup i) { s with
        goroutine := Function.update s.goroutine i .done
        operationRequests :=
          Function.update s.operationRequests i (some (operationRequest args (outcome i) i))
        objectInfos := Function.update s.objectInfos i (some (objectInfo args i)) }
  | waitDone (hcall : s.call = .wait) (hdone : ∀ j < args.total, s.goroutine j = .done) :
      MultiTrans args outcome s .waitDone { s with
        call := .calling
        multiOps := some ((List.range args.total).map s.operationRequests) }
  | multiResult (res : Option GoError) (hcall : s.call = .calling) :
      MultiTrans args outcome s (.multiResult res) { s with
        call := .returned (match res with
          | some err => .error err
          | none => .ok ((List.range args.total).map s.objectInfos)) }

theorem multiStep_trans (h : multiStep args outcome s a = some s') :
    MultiTrans args outcome s a s' := by
  cases a with
  | spawn =>
    simp only [multiStep] at h
    split at h
    · next i hcall =>
      obtain rfl := Option.some.inj h
      exact .spawn i hcall
    · exact absurd h (by simp)
  | pollReceive i =>
    simp only [multiStep] at h
    split at h
    · next k err hcall hsend =>
      obtain rfl := Option.some.inj h
      exact .pollReceive i k err hcall hsend
    · exact absurd h (by simp)
  | pollDefault =>
    simp only [multiStep] at h
    split at h
    · next i hcall =>
      split at h
      · next hnone =>
        obtain rfl := Option.some.inj h
        by_cases hlt : i + 1 < args.total
        · simp only [if_pos hlt]
          exact .pollMore i hcall hlt hnone
        · simp only [if_neg hlt]
          exact .pollLast i hcall hlt hnone
      · exact absurd h (by simp)
    · exact absurd h (by simp)
  | lookup i =>
    simp only [multiStep] at h
    split at h
    · next hrun =>
      split at h
      · next err hout =>
        obtain rfl := Option.some.inj h
        exact .lookupFailed i err hrun hout
      · next hout =>
        obtain rfl := Option.some.inj h
        exact .lookupDone i hrun fun err he => hout err he
    · exact absurd h (by simp)
  | waitDone =>
    simp only [multiStep] at h
    split at h
    · next hcall =>
      split at h
      · next hdone =>
        obtain rfl := Option.some.inj h
        exact .waitDone hcall hdone
      · exact absurd h (by simp)
    · exact absurd h (by simp)
  | multiResult res =>
    simp only [multiStep] at h
    split at h
    · next hcall =>
      obtain rfl := Option.some.inj h
      exact .multiResult res hcall
    · exact absurd h (by simp)

/-! ### The invariant -/

/-- How many goroutines have been started; after an early return it no longer matters. -/
def CallPc.spawned (total : ℕ) : CallPc → Option ℕ
  | .spawn i => some i
  | .poll i => some (i + 1)
  | .wait => some total
  | .calling => some total
  | .returned _ => none

/-- **The invariant of a call.**  The goroutines up to the loop's index exist; before the call returns,
a finished goroutine has written its request; and `DoMultiOperation` is called with all of them. -/
structure MultiInv (args : PutMultipleArgs) (outcome : ℕ → Lookup) (s : MultiState) : Prop where
  spawned : ∀ n, s.call.spawned args.total = some n →
    n ≤ args.total ∧ ∀ j, s.goroutine j = .absent ↔ n ≤ j
  spawning : ∀ i, s.call = .spawn i → i < args.total
  bound : ∀ j, s.goroutine j ≠ .absent → j < args.total
  sending : ∀ j err, s.goroutine j = .sending err → outcome j = .failed err
  done : (∀ res, s.call ≠ .returned res) → ∀ j, s.goroutine j = .done →
    (∀ err, outcome j ≠ .failed err) ∧
      s.operationRequests j = some (operationRequest args (outcome j) j)
  ops : ∀ ops, s.multiOps = some ops → (∀ j < args.total, ∀ err, outcome j ≠ .failed err) ∧
    ops = (List.range args.total).map fun j => some (operationRequest args (outcome j) j)

theorem multiInit_inv (args : PutMultipleArgs) (outcome : ℕ → Lookup) :
    MultiInv args outcome (multiInit args) := by
  refine ⟨?_, ?_, fun j h => absurd rfl h, fun j err h => absurd h (by simp [multiInit]),
    fun _ j h => absurd h (by simp [multiInit]), fun ops h => absurd h (by simp [multiInit])⟩
  · intro n hn
    simp only [multiInit] at hn ⊢
    split at hn
    · exact absurd hn (by simp [CallPc.spawned])
    · obtain rfl : 0 = n := by simpa [CallPc.spawned] using hn
      simp
  · intro i hi
    simp only [multiInit] at hi
    split at hi
    · exact absurd hi (by simp)
    · next hnone =>
      obtain rfl : 0 = i := by simpa using hi
      simp only [checkArgs] at hnone
      split at hnone
      · exact absurd hnone (by simp)
      · omega

/-- A goroutine that exists goes on existing. -/
theorem absent_update {f : ℕ → LookupPc} {i : ℕ} {x : LookupPc} (hi : f i ≠ .absent)
    (hx : x ≠ .absent) (j : ℕ) : Function.update f i x j = .absent ↔ f j = .absent := by
  by_cases hj : j = i
  · subst hj
    rw [Function.update_self]
    exact ⟨fun h => absurd h hx, fun h => absurd h hi⟩
  · rw [Function.update_of_ne hj]

section Update

variable {i : ℕ} {x : LookupPc}

/-- The goroutines that were started are the same when one of them moves on. -/
theorem MultiInv.spawned_update (h : MultiInv args outcome s) (hi : s.goroutine i ≠ .absent)
    (hx : x ≠ .absent) (n : ℕ) (hn : s.call.spawned args.total = some n) :
    n ≤ args.total ∧ ∀ j, Function.update s.goroutine i x j = .absent ↔ n ≤ j := by
  obtain ⟨hle, habs⟩ := h.spawned n hn
  exact ⟨hle, fun j => (absent_update hi hx j).trans (habs j)⟩

theorem MultiInv.bound_update (h : MultiInv args outcome s) (hi : s.goroutine i ≠ .absent)
    (hx : x ≠ .absent) (j : ℕ) (hj : Function.update s.goroutine i x j ≠ .absent) :
    j < args.total :=
  h.bound j fun habs => hj ((absent_update hi hx j).mpr habs)

/-- No goroutine starts to send. -/
theorem MultiInv.sending_update (h : MultiInv args outcome s) (hx : ∀ err, x ≠ .sending err) (j : ℕ)
    (err : GoError) (hj : Function.update s.goroutine i x j = .sending err) :
    outcome j = .failed err := by
  rcases update_cases hj with ⟨-, hv⟩ | ⟨-, hj'⟩
  · exact absurd hv (hx err)
  · exact h.sending j err hj'

/-- No goroutine ends. -/
theorem MultiInv.done_update (h : MultiInv args outcome s) (hx : x ≠ .done)
    (hlive : ∀ res, s.call ≠ .returned res) (j : ℕ)
    (hj : Function.update s.goroutine i x j = .done) :
    (∀ err, outcome j ≠ .failed err) ∧
      s.operationRequests j = some (operationRequest args (outcome j) j) := by
  rcases update_cases hj with ⟨-, hv⟩ | ⟨-, hj'⟩
  · exact absurd hv hx
  · exact h.done hlive j hj'

end Update

/-- **One step** keeps the invariant. -/
theorem multiInv_step (h : MultiInv args outcome s) (hst : multiStep args outcome s a = some s') :
    MultiInv args outcome s' := by
  cases multiStep_trans hst with
  | spawn i hcall =>
    have hlt := h.spawning i hcall
    have habs := (h.spawned i (by rw [hcall]; rfl)).2
    have hlive : ∀ res, s.call ≠ .returned res := by rw [hcall]; exact fun _ => nofun
    refine ⟨?_, fun _ => nofun, ?_, ?_, ?_, h.ops⟩
    · intro n hn
      obtain rfl : i + 1 = n := by simpa [CallPc.spawned] using hn
      refine ⟨hlt, fun j => ?_⟩
      show Function.update s.goroutine i .running j = .absent ↔ i + 1 ≤ j
      by_cases hj : j = i
      · subst hj
        simp
      · rw [Function.update_of_ne hj, habs]
        omega
    · intro j hj
      by_cases hji : j = i
      · omega
      · exact h.bound j (by simpa [Function.update_of_ne hji] using hj)
    · exact h.sending_update (x := .running) fun _ => nofun
    · exact fun _ => h.done_update nofun hlive
  | pollReceive i k err hcall hsend =>
    have hi : s.goroutine i ≠ .absent := by rw [hsend]; nofun
    exact ⟨fun n hn => absurd hn nofun, fun _ => nofun, h.bound_update hi nofun,
      h.sending_update (x := .done) fun _ => nofun, fun hret => absurd rfl (hret _), h.ops⟩
  | pollMore i hcall hlt hnone =>
    have hsp := h.spawned (i + 1) (by rw [hcall]; rfl)
    have hlive : ∀ res, s.call ≠ .returned res := by rw [hcall]; exact fun _ => nofun
    refine ⟨?_, ?_, h.bound, h.sending, fun _ => h.done hlive, h.ops⟩
    · intro n hn
      obtain rfl : i + 1 = n := by simpa [CallPc.spawned] using hn
      exact hsp
    · intro n hn
      obtain rfl : i + 1 = n := by simpa using hn
      exact hlt
  | pollLast i hcall hge hnone =>
    have hsp := h.spawned (i + 1) (by rw [hcall]; rfl)
    have hlive : ∀ res, s.call ≠ .returned res := by rw [hcall]; exact fun _ => nofun
    refine ⟨?_, fun _ => nofun, h.bound, h.sending, fun _ => h.done hlive, h.ops⟩
    intro n hn
    have hn' : args.total = n := by simpa [CallPc.spawned] using hn
    have hi : i + 1 = n := by omega
    exact hi ▸ hsp
  | lookupFailed i err hrun hout =>
    have hi : s.goroutine i ≠ .absent := by rw [hrun]; nofun
    refine ⟨h.spawned_update hi nofun, h.spawning, h.bound_update hi nofun, ?_,
      h.done_update nofun, h.ops⟩
    intro j err' hj
    rcases update_cases hj with ⟨rfl, hv⟩ | ⟨-, hj'⟩
    · obtain rfl := LookupPc.sending.inj hv
      exact hout
    · exact h.sending j err' hj'
  | lookupDone i hrun hout =>
    have hi : s.goroutine i ≠ .absent := by rw [hrun]; nofun
    refine ⟨h.spawned_update hi nofun, h.spawning, h.bound_update hi nofun,
      h.sending_update (x := .done) fun _ => nofun, ?_, h.ops⟩
    intro hlive j hj
    rcases update_cases hj with ⟨rfl, -⟩ | ⟨hne, hj'⟩
    · exact ⟨hout, Function.update_self ..⟩
    · obtain ⟨hok, hreq⟩ := h.done hlive j hj'
      exact ⟨hok, (Function.update_of_ne hne ..).trans hreq⟩
  | waitDone hcall hdone =>
    have hsp := h.spawned args.total (by rw [hcall]; rfl)
    have hlive : ∀ res, s.call ≠ .returned res := by rw [hcall]; exact fun _ => nofun
    refine ⟨?_, fun _ => nofun, h.bound, h.sending, fun _ => h.done hlive, ?_⟩
    · intro n hn
      obtain rfl : args.total = n := by simpa [CallPc.spawned] using hn
      exact hsp
    · intro ops hops
      obtain rfl := Option.some.inj hops
      refine ⟨fun j hj => (h.done hlive j (hdone j hj)).1, ?_⟩
      refine List.map_congr_left fun j hj => ?_
      exact (h.done hlive j (hdone j (List.mem_range.mp hj))).2
  | multiResult res hcall =>
    exact ⟨fun n hn => absurd hn nofun, fun _ => nofun, h.bound, h.sending,
      fun hret => absurd rfl (hret _), h.ops⟩

theorem multiInv_of_reaches (hs : Reaches (multiStep args outcome) (fun _ _ => True)
    (multiInit args) s) : MultiInv args outcome s :=
  hs.invariant (multiInit_inv args outcome) fun _ _ _ hi _ hst => multiInv_step hi hst

/-- **`DoMultiOperation` is called with the request of every object**, in the order of the objects,
and only when no lookup failed. -/
theorem putMultiple_requests (hs : Reaches (multiStep args outcome) (fun _ _ => True)
    (multiInit args) s) {ops : List (Option OperationRequest)} (hops : s.multiOps = some ops) :
    (∀ j < args.total, ∀ err, outcome j ≠ .failed err) ∧
      ops = (List.range args.total).map fun j => some (operationRequest args (outcome j) j) :=
  (multiInv_of_reaches hs).ops ops hops

/-- Two objects, looked up the other way round. -/
theorem putMultiple_requests_two :
    let args : PutMultipleArgs := ⟨lit "b", [lit "f", lit "g"], [3, 4], 2⟩
    ∃ s : MultiState, s.multiOps =
      some [some (operationRequest args .found 0), some (operationRequest args .found 1)] := by
  intro args
  obtain ⟨s, ops, hacts, hops⟩ : ∃ s ops, runActs (multiStep args fun _ => .found) (multiInit args)
      [.spawn, .pollDefault, .spawn, .pollDefault, .lookup 1, .lookup 0, .waitDone] = some s ∧
      s.multiOps = some ops := ⟨_, _, rfl, rfl⟩
  have hreq := putMultiple_requests (reaches_of_runActs _ hacts) hops
  exact ⟨s, hops.trans (congrArg some hreq.2)⟩

/-! ### Without a failing lookup every run finishes -/

/-- The steps a goroutine has left. -/
def LookupPc.rank : LookupPc → ℕ
  | .absent => 2
  | .running => 1
  | .sending _ => 0
  | .done => 0

/-- The steps the loop has left. -/
def CallPc.rank (total : ℕ) : CallPc → ℕ
  | .spawn i => 2 * (total - i) + 3
  | .poll i => 2 * (total - i) + 2
  | .wait => 2
  | .calling => 1
  | .returned _ => 0

/-- The measure of a call. -/
def MultiState.rank (total : ℕ) (s : MultiState) : ℕ :=
  ∑ j ∈ Finset.range total, (s.goroutine j).rank + s.call.rank total

/-- A goroutine that moves on lowers the sum. -/
theorem sum_rank_update_lt {f : ℕ → LookupPc} {i n : ℕ} {x : LookupPc} (hi : i < n)
    (hx : x.rank < (f i).rank) :
    ∑ j ∈ Finset.range n, (Function.update f i x j).rank < ∑ j ∈ Finset.range n, (f j).rank := by
  have hlt : (Function.update f i x i).rank < (f i).rank := by rw [Function.update_self]; exact hx
  refine Finset.sum_lt_sum (fun j _ => ?_) ⟨i, Finset.mem_range.mpr hi, hlt⟩
  by_cases hj : j = i
  · subst hj
    exact hlt.le
  · rw [Function.update_of_ne hj]

/-- A call that has returned. -/
def MultiState.Returned (s : MultiState) : Prop := ∃ res, s.call = .returned res

theorem MultiInv.not_sending (h : MultiInv args outcome s)
    (hout : ∀ j < args.total, ∀ err, outcome j ≠ .failed err) (j : ℕ) :
    (s.goroutine j).isSending = false := by
  cases hj : s.goroutine j with
  | sending err =>
    have hlt : j < args.total := h.bound j (by rw [hj]; nofun)
    exact absurd (h.sending j err hj) (hout j hlt err)
  | absent => rfl
  | running => rfl
  | done => rfl

/-- Without a failing lookup some goroutine can always move. -/
theorem multi_enabled (h : MultiInv args outcome s)
    (hout : ∀ j < args.total, ∀ err, outcome j ≠ .failed err) (hret : ¬ s.Returned) :
    ∃ a s', multiStep args outcome s a = some s' := by
  cases hcall : s.call with
  | spawn i => exact ⟨.spawn, _, by simp only [multiStep, hcall]; rfl⟩
  | poll i =>
    have hnone : ∀ j < args.total, (s.goroutine j).isSending = false :=
      fun j _ => h.not_sending hout j
    exact ⟨.pollDefault, _, by simp only [multiStep, hcall, if_pos hnone]; rfl⟩
  | wait =>
    by_cases hdone : ∀ j < args.total, s.goroutine j = .done
    · exact ⟨.waitDone, _, by simp only [multiStep, hcall, if_pos hdone]; rfl⟩
    · push Not at hdone
      obtain ⟨j, hlt, hj⟩ := hdone
      have hex : s.goroutine j ≠ .absent := by
        rw [Ne, (h.spawned args.total (by rw [hcall]; rfl)).2 j]
        omega
      have hns := h.not_sending hout j
      have hrun : s.goroutine j = .running := by
        cases hg : s.goroutine j with
        | absent => exact absurd hg hex
        | running => rfl
        | sending err => rw [hg] at hns; exact absurd hns nofun
        | done => exact absurd hg hj
      cases ho : outcome j with
      | found => exact ⟨.lookup j, _, by simp only [multiStep, hrun, ho]; rfl⟩
      | notExist => exact ⟨.lookup j, _, by simp only [multiStep, hrun, ho]; rfl⟩
      | failed err => exact absurd ho (hout j hlt err)
  | calling => exact ⟨.multiResult none, _, by simp only [multiStep, hcall]; rfl⟩
  | returned res => exact absurd ⟨res, hcall⟩ hret

/-- Every step before the return lowers the measure. -/
theorem multi_rank_lt (h : MultiInv args outcome s) (hst : multiStep args outcome s a = some s') :
    s'.rank args.total < s.rank args.total := by
  cases multiStep_trans hst with
  | spawn i hcall =>
    have hlt := h.spawning i hcall
    have habs : s.goroutine i = .absent := ((h.spawned i (by rw [hcall]; rfl)).2 i).mpr le_rfl
    have hsum := sum_rank_update_lt (f := s.goroutine) (x := .running) hlt (by rw [habs]; decide)
    simp only [MultiState.rank, hcall, CallPc.rank]
    omega
  | pollReceive i k err hcall hsend =>
    have hle : ∑ j ∈ Finset.range args.total, (Function.update s.goroutine i .done j).rank ≤
        ∑ j ∈ Finset.range args.total, (s.goroutine j).rank := by
      refine Finset.sum_le_sum fun j _ => ?_
      by_cases hj : j = i
      · subst hj
        simp [LookupPc.rank]
      · rw [Function.update_of_ne hj]
    simp only [MultiState.rank, hcall, CallPc.rank]
    omega
  | pollMore i hcall hlt hnone =>
    simp only [MultiState.rank, hcall, CallPc.rank]
    omega
  | pollLast i hcall hge hnone =>
    have hle := (h.spawned (i + 1) (by rw [hcall]; rfl)).1
    simp only [MultiState.rank, hcall, CallPc.rank]
    omega
  | lookupFailed i err hrun hout =>
    have hlt : i < args.total := h.bound i (by rw [hrun]; nofun)
    have hsum := sum_rank_update_lt (f := s.goroutine) (x := .sending err) hlt
      (by rw [hrun]; exact Nat.one_pos)
    simp only [MultiState.rank]
    omega
  | lookupDone i hrun hout =>
    have hlt : i < args.total := h.bound i (by rw [hrun]; nofun)
    have hsum := sum_rank_update_lt (f := s.goroutine) (x := .done) hlt
      (by rw [hrun]; exact Nat.one_pos)
    simp only [MultiState.rank]
    omega
  | waitDone hcall hdone =>
    simp only [MultiState.rank, hcall, CallPc.rank]
    omega
  | multiResult res hcall =>
    simp only [MultiState.rank, hcall, CallPc.rank]
    omega

/-- Without a failing lookup every run returns. -/
theorem multi_returns (hout : ∀ j < args.total, ∀ err, outcome j ≠ .failed err) :
    Inevitable (multiStep args outcome) (fun _ _ => True) MultiState.Returned (multiInit args) := by
  refine inevitable_of_measure (I := MultiInv args outcome) Nat.lt_wfRel.wf
    (μ := MultiState.rank args.total) ?_ ?_ _ (multiInit_inv args outcome)
  · intro s h hret
    obtain ⟨a, s', hst⟩ := multi_enabled h hout hret
    exact ⟨a, s', trivial, hst⟩
  · intro s a s' h _ _ hst
    exact ⟨multiInv_step h hst, multi_rank_lt h hst⟩

/-! ### A failing lookup can block the call for ever -/

/-- `wg.Wait` waits for a goroutine that is blocked on `errCh` and stays so whatever happens. -/
def WaitsForever (args : PutMultipleArgs) (outcome : ℕ → Lookup) (s : MultiState) : Prop :=
  s.call = .wait ∧ ∃ i err, s.goroutine i = .sending err ∧
    ∀ s', Reaches (multiStep args outcome) (fun _ _ => True) s s' →
      s'.call = .wait ∧ s'.goroutine i = .sending err

/-- Nobody receives from `errCh` once the loop is in `wg.Wait`. -/
theorem waitsForever_of_sending {i : ℕ} {err : GoError} (hi : i < args.total)
    (hcall : s.call = .wait) (hsend : s.goroutine i = .sending err) :
    WaitsForever args outcome s := by
  refine ⟨hcall, i, err, hsend, fun s' hs => ?_⟩
  refine hs.invariant (I := fun t => t.call = .wait ∧ t.goroutine i = .sending err)
    ⟨hcall, hsend⟩ ?_
  rintro t a t' ⟨hc, hg⟩ - hst
  cases multiStep_trans hst with
  | spawn k hk => rw [hc] at hk; exact absurd hk nofun
  | pollReceive j k e hk hj => rw [hc] at hk; exact absurd hk nofun
  | pollMore k hk _ _ => rw [hc] at hk; exact absurd hk nofun
  | pollLast k hk _ _ => rw [hc] at hk; exact absurd hk nofun
  | lookupFailed j e hrun hout =>
    have hne : i ≠ j := by rintro rfl; rw [hg] at hrun; exact absurd hrun nofun
    exact ⟨hc, (Function.update_of_ne hne ..).trans hg⟩
  | lookupDone j hrun hout =>
    have hne : i ≠ j := by rintro rfl; rw [hg] at hrun; exact absurd hrun nofun
    exact ⟨hc, (Function.update_of_ne hne ..).trans hg⟩
  | waitDone hk hdone => rw [hdone i hi] at hg; exact absurd hg nofun
  | multiResult res hk => rw [hc] at hk; exact absurd hk nofun

/-- The goroutines below `k` have been started and none of them has run yet. -/
def StartedOnly (k : ℕ) (s : MultiState) : Prop :=
  ∀ j, s.goroutine j = if j < k then .running else .absent

/-- The loop starts the next goroutine and its poll finds nobody sending. -/
theorem spawn_poll (args : PutMultipleArgs) (outcome : ℕ → Lookup) {k : ℕ}
    (hcall : s.call = .spawn k) (hg : StartedOnly k s) :
    ∃ s', Reaches (multiStep args outcome) (fun _ _ => True) s s' ∧ StartedOnly (k + 1) s' ∧
      s'.call = if k + 1 < args.total then .spawn (k + 1) else .wait := by
  set t : MultiState := { s with
    goroutine := Function.update s.goroutine k .running
    call := .poll k } with ht
  have hspawn : multiStep args outcome s .spawn = some t := by simp only [multiStep, hcall, ht]
  have hstart : StartedOnly (k + 1) t := by
    intro j
    show Function.update s.goroutine k .running j = _
    by_cases hj : j = k
    · subst hj
      rw [Function.update_self, if_pos (by omega)]
    · rw [Function.update_of_ne hj, hg j]
      by_cases hlt : j < k
      · rw [if_pos hlt, if_pos (by omega)]
      · rw [if_neg hlt, if_neg (by omega)]
  have hnone : ∀ j < args.total, (t.goroutine j).isSending = false := by
    intro j _
    rw [hstart j]
    split <;> rfl
  have hpoll : multiStep args outcome t .pollDefault =
      some { t with call := if k + 1 < args.total then .spawn (k + 1) else .wait } := by
    show (if _ then some _ else none) = _
    rw [if_pos hnone]
  exact ⟨_, (Reaches.single trivial hspawn).snoc trivial hpoll, hstart, rfl⟩

/-- All goroutines can be started before any of them runs. -/
theorem reaches_wait (outcome : ℕ → Lookup) (hargs : checkArgs args = none) :
    ∃ s, Reaches (multiStep args outcome) (fun _ _ => True) (multiInit args) s ∧
      StartedOnly args.total s ∧ s.call = .wait := by
  have hpos : 0 < args.total := by
    simp only [checkArgs] at hargs
    split at hargs
    · exact absurd hargs nofun
    · omega
  -- induction on the goroutines started, as long as one is left
  have hspawn : ∀ k < args.total, ∃ s,
      Reaches (multiStep args outcome) (fun _ _ => True) (multiInit args) s ∧
        StartedOnly k s ∧ s.call = .spawn k := by
    intro k
    induction k with
    | zero =>
      intro _
      refine ⟨_, .refl, fun j => by simp [multiInit], ?_⟩
      simp only [multiInit, hargs]
    | succ k ih =>
      intro hk
      obtain ⟨s, hs, hg, hcall⟩ := ih (by omega)
      obtain ⟨s', hs', hg', hcall'⟩ := spawn_poll args outcome hcall hg
      exact ⟨s', hs.trans hs', hg', by rw [hcall', if_pos hk]⟩
  obtain ⟨n, hn⟩ : ∃ n, args.total = n + 1 := ⟨args.total - 1, by omega⟩
  obtain ⟨s, hs, hg, hcall⟩ := hspawn n (by omega)
  obtain ⟨s', hs', hg', hcall'⟩ := spawn_poll args outcome hcall hg
  exact ⟨s', hs.trans hs', hn ▸ hg', by rw [hcall', if_neg (by omega)]⟩

theorem reaches_waitsForever (hargs : checkArgs args = none) {i : ℕ} (hi : i < args.total)
    {err : GoError} (hout : outcome i = .failed err) :
    ∃ s, Reaches (multiStep args outcome) (fun _ _ => True) (multiInit args) s ∧
      WaitsForever args outcome s := by
  obtain ⟨s, hs, hg, hcall⟩ := reaches_wait outcome hargs
  have hrun : s.goroutine i = .running := by rw [hg i, if_pos hi]
  have hlook : multiStep args outcome s (.lookup i) =
      some { s with goroutine := Function.update s.goroutine i (.sending err) } := by
    simp only [multiStep, hrun, hout]
  exact ⟨_, hs.snoc trivial hlook, waitsForever_of_sending hi hcall (Function.update_self ..)⟩

/-! ### When the call finishes -/

/-- **The call always finishes and is all or nothing.**  In every interleaving it returns, never
waits for ever, and if a lookup fails it returns an error without calling `DoMultiOperation`. -/
structure FinishesAllOrNothing (args : PutMultipleArgs) (outcome : ℕ → Lookup) : Prop where
  returns : Inevitable (multiStep args outcome) (fun _ _ => True) MultiState.Returned
    (multiInit args)
  never_waits : ∀ s, Reaches (multiStep args outcome) (fun _ _ => True) (multiInit args) s →
    ¬ WaitsForever args outcome s
  failed : (∃ i < args.total, ∃ err, outcome i = .failed err) →
    ∀ s, Reaches (multiStep args outcome) (fun _ _ => True) (multiInit args) s →
      s.multiOps = none ∧ ∀ infos, s.call ≠ .returned (.ok infos)

/-- A call that is refused at its argument checks has returned and does not move. -/
theorem refused_of_reaches {err : GoError} (hargs : checkArgs args = some err)
    (hs : Reaches (multiStep args outcome) (fun _ _ => True) (multiInit args) s) :
    s = multiInit args := by
  refine hs.invariant (I := fun t => t = multiInit args) rfl ?_
  rintro t a t' rfl - hst
  have hcall : (multiInit args).call = .returned (.error err) := by simp only [multiInit, hargs]
  have habs : ∀ j, (multiInit args).goroutine j = .absent := fun _ => rfl
  cases a <;> simp [multiStep, hcall, habs] at hst

theorem finishes_of_refused {err : GoError} (hargs : checkArgs args = some err) :
    FinishesAllOrNothing args outcome := by
  have hcall : (multiInit args).call = .returned (.error err) := by simp only [multiInit, hargs]
  refine ⟨.now ⟨_, hcall⟩, ?_, ?_⟩
  · intro s hs hw
    have hwait := hw.1
    rw [refused_of_reaches hargs hs, hcall] at hwait
    exact absurd hwait nofun
  · intro _ s hs
    rw [refused_of_reaches hargs hs, hcall]
    exact ⟨rfl, fun _ => nofun⟩

theorem finishes_of_no_failure (hout : ∀ j < args.total, ∀ err, outcome j ≠ .failed err) :
    FinishesAllOrNothing args outcome := by
  refine ⟨multi_returns hout, ?_, ?_⟩
  · rintro s hs ⟨-, i, err, hsend, -⟩
    have hns := (multiInv_of_reaches hs).not_sending hout i
    rw [hsend] at hns
    exact absurd hns nofun
  · rintro ⟨i, hi, err, hfail⟩
    exact absurd hfail (hout i hi err)

/-- **`PutMultipleObjects` finishes, all or nothing, exactly when no lookup fails** with an error
other than not-exist (or its arguments are refused before any lookup). -/
theorem putMultiple_finishes_iff (args : PutMultipleArgs) (outcome : ℕ → Lookup) :
    FinishesAllOrNothing args outcome ↔
      checkArgs args ≠ none ∨ ∀ i < args.total, ∀ err, outcome i ≠ .failed err := by
  constructor
  · intro h
    by_contra hcon
    push Not at hcon
    obtain ⟨hargs, i, hi, err, hout⟩ := hcon
    obtain ⟨s, hs, hw⟩ := reaches_waitsForever hargs hi hout
    exact h.never_waits s hs hw
  · rintro (hargs | hout)
    · obtain ⟨err, herr⟩ := Option.ne_none_iff_exists'.mp hargs
      exact finishes_of_refused herr
    · exact finishes_of_no_failure hout

end Runs

/-- **A single object whose lookup fails blocks the call for ever**: its goroutine reaches `errCh`
after the only poll. -/
theorem putMultiple_one_blocks :
    let args : PutMultipleArgs := ⟨lit "b", [lit "f"], [3], 1⟩
    let outcome : ℕ → Lookup := fun _ => .failed (.other (lit "request failed"))
    ∃ s, Reaches (multiStep args outcome) (fun _ _ => True) (multiInit args) s ∧
      WaitsForever args outcome s ∧ s.multiOps = none := by
  intro args outcome
  have hrun : ∃ s, runActs (multiStep args outcome) (multiInit args)
      [.spawn, .pollDefault, .lookup 0] = some s ∧ s.call = .wait ∧
      s.goroutine 0 = .sending (.other (lit "request failed")) ∧ s.multiOps = none :=
    ⟨_, rfl, rfl, rfl, rfl⟩
  obtain ⟨s, hacts, hcall, hsend, hops⟩ := hrun
  exact ⟨s, reaches_of_runActs _ hacts, waitsForever_of_sending (by decide) hcall hsend, hops⟩

end Zs3Server.Gateway.PutMultiple
