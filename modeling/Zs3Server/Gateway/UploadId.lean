import Zs3Server.Gateway.MultipartSteps

/-!
# Upload IDs

The server with all its multipart uploads: `FileMap` and the part directories are keyed by upload ID,
so each ID is an upload of its own, and only a panic is felt by all of them.

An upload ID should die with its upload.  But no call removes the entry of an upload from `FileMap`,
so once a complete or an abort has found it, every later call finds it as well.

* `reaches_upload` — what happens to one ID in a run of the server is a run of its upload;
* `retired_inFileMap` — an ID whose complete or abort succeeded is in `FileMap`, and stays there;
* `retired_id_never_not_found` — so no later call with that ID ever returns the not-found error.
-/

namespace Zs3Server.Gateway.Multipart

open Lib.ByteString Lib.StepSystem Lib.Slots
open Gateway.ChunkPipe

/-! ### The server -/

/-- The uploads by their ID, and whether a panic has ended the server. -/
structure Server (U W : Type) where
  uploads : U → Upload W
  crashed : Bool

variable {U W : Type} [DecidableEq U] {md5Hex : List UInt8 → GoString} {cfg : U → PipeConfig W}

/-- No upload ID has been handed out. -/
def serverInit (cfg : U → PipeConfig W) : Server U W := ⟨fun u => Upload.absent (cfg u), false⟩

/-- A step of the upload with ID `a.1`. -/
def serverStep (md5Hex : List UInt8 → GoString) (cfg : U → PipeConfig W) (s : Server U W)
    (a : U × UploadAct) : Option (Server U W) :=
  if s.crashed then none
  else
    (uploadStep md5Hex (cfg a.1) (s.uploads a.1) a.2).map fun t =>
      ⟨Function.update s.uploads a.1 t, t.panicked⟩

/-- What happens to one ID in a run of the server is a run of its upload. -/
theorem reaches_upload {s s' : Server U W}
    (h : Reaches (serverStep md5Hex cfg) (fun _ _ => True) s s') (u : U) :
    Reaches (uploadStep md5Hex (cfg u)) (fun _ _ => True) (s.uploads u) (s'.uploads u) := by
  induction h with
  | refl => exact .refl
  | @snoc s₁ s₂ a _ _ hst ih =>
    unfold serverStep at hst
    split at hst
    · exact absurd hst (by simp)
    · obtain ⟨t, ht, rfl⟩ := Option.map_eq_some_iff.mp hst
      show Reaches _ _ _ (Function.update s₁.uploads a.1 t u)
      by_cases hu : u = a.1
      · subst hu
        rw [Function.update_self]
        exact ih.snoc trivial ht
      · rw [Function.update_of_ne hu]
        exact ih

/-! ### Retired IDs -/

/-- A complete or abort that has returned success. -/
def Call.succeeded : Call → Bool
  | .complete _ (.returned (.ok _)) | .abort (.returned (.ok _)) => true
  | _ => false

/-- A call that has returned its not-found error. -/
def Call.notFound : Call → Bool
  | .put _ _ (.returned (.error .notFound)) => true
  | .complete _ (.returned (.error .notFound)) => true
  | .abort (.returned (.error .abortNotFound)) => true
  | _ => false

/-- A complete or abort that has found its upload. -/
def Call.foundUpload : Call → Bool
  | .put _ _ _ => false
  | .complete _ .lookup | .complete _ (.returned (.error .notFound)) => false
  | .complete _ _ => true
  | .abort .lookup | .abort (.returned (.error .abortNotFound)) => false
  | .abort _ => true

/-- A `CompleteMultipartUpload` or `AbortMultipartUpload` of the upload has returned success. -/
def Retired (s : Upload W) : Prop := ∃ call ∈ s.calls, call.succeeded = true

section Upload

variable {c : PipeConfig W} {s s' : Upload W} {a : UploadAct}

theorem foundUpload_of_succeeded {call : Call} (h : call.succeeded = true) :
    call.foundUpload = true := by
  rcases call with ⟨_, _, pc⟩ | ⟨_, pc⟩ | pc
  · simp [Call.succeeded] at h
  · cases pc with
    | returned res => cases res <;> simp_all [Call.succeeded, Call.foundUpload]
    | _ => simp [Call.succeeded] at h
  · cases pc with
    | returned res => cases res <;> simp_all [Call.succeeded, Call.foundUpload]
    | _ => simp [Call.succeeded] at h

/-- What a step does to the calls: one arrives, or call `i` goes on. -/
inductive CallsChange (s s' : Upload W) : Prop
  | same (h : s'.calls = s.calls)
  | begin (request : Request) (h : s'.calls = s.calls ++ [request.start])
  | step (i : ℕ) (call call' : Call) (hcall : s.calls[i]? = some call)
      (h : s'.calls = s.calls.set i call')
      (hfound : call'.foundUpload = true → call.foundUpload = true ∨ s.inFileMap = true)
      (hnot : call'.notFound = true → s.inFileMap = false)

theorem UploadTrans.callsChange (ht : UploadTrans md5Hex c s a s') : CallsChange s s' := by
  cases ht with
  | begin request => exact .begin request rfl
  | put i ev partID content pc pc' t hcall ht =>
    refine .step i _ _ hcall rfl (fun h => absurd h (by simp [Call.foundUpload])) ?_
    cases ht <;> simp_all [Call.notFound]
  | complete i ev parts pc pc' t hcall ht =>
    refine .step i _ _ hcall rfl ?_ ?_ <;>
      cases ht <;> simp_all [Call.notFound, Call.foundUpload]
  | abort i ev pc pc' t hcall ht =>
    refine .step i _ _ hcall rfl ?_ ?_ <;>
      cases ht <;> simp_all [Call.notFound, Call.foundUpload]
  | new hmap => exact .same rfl
  | newFault hmap => exact .same rfl
  | reader ev t ht => cases ht <;> exact .same rfl
  | chunker ev t ht => cases ht <;> exact .same rfl
  | sdk ev t ht => cases ht <;> exact .same rfl

/-- No step removes the entry from `FileMap`. -/
theorem UploadTrans.inFileMap (ht : UploadTrans md5Hex c s a s') (h : s.inFileMap = true) :
    s'.inFileMap = true := by
  cases ht with
  | new hmap => rfl
  | newFault hmap => rfl
  | begin request => exact h
  | put i ev partID content pc pc' t hcall ht => cases ht <;> exact h
  | complete i ev parts pc pc' t hcall ht => cases ht <;> exact h
  | abort i ev pc pc' t hcall ht => cases ht <;> exact h
  | reader ev t ht => cases ht <;> exact h
  | chunker ev t ht => cases ht <;> exact h
  | sdk ev t ht => cases ht <;> exact h

/-- A complete or abort finds its upload in `FileMap`, and there it stays. -/
theorem retired_inFileMap
    (h : Reaches (uploadStep md5Hex c) (fun _ _ => True) (Upload.absent c) s) (hret : Retired s) :
    s.inFileMap = true := by
  have hinv : ∀ call ∈ s.calls, call.foundUpload = true → s.inFileMap = true := by
    refine h.invariant
      (I := fun s => ∀ call ∈ s.calls, call.foundUpload = true → s.inFileMap = true) ?_ ?_
    · intro call hcall
      exact absurd hcall (by simp [Upload.absent])
    · intro s₁ a s₂ hi _ hst call hmem hfound
      have ht := (uploadStep_trans hst).2
      refine ht.inFileMap ?_
      cases ht.callsChange with
      | same h => exact hi call (h ▸ hmem) hfound
      | begin request h =>
        rw [h, List.mem_append, List.mem_singleton] at hmem
        rcases hmem with hmem | rfl
        · exact hi call hmem hfound
        · cases request <;> simp [Request.start, Call.foundUpload] at hfound
      | step i old new hold h hnew _ =>
        rw [h] at hmem
        rcases List.mem_or_eq_of_mem_set hmem with hmem | rfl
        · exact hi call hmem hfound
        · rcases hnew hfound with hf | hf
          · exact hi old (List.mem_of_getElem? hold) hf
          · exact hf
  obtain ⟨call, hmem, hsucc⟩ := hret
  exact hinv call hmem (foundUpload_of_succeeded hsucc)

/-- While the entry is in `FileMap`, a call that has not returned not-found never does. -/
theorem not_notFound_of_inFileMap {n : ℕ} (h : Reaches (uploadStep md5Hex c) (fun _ _ => True) s s')
    (hmap : s.inFileMap = true) (hlen : n < s.calls.length)
    (hn : ∀ call, s.calls[n]? = some call → call.notFound = false) :
    ∀ call, s'.calls[n]? = some call → call.notFound = false := by
  have hinv := h.invariant (I := fun s => s.inFileMap = true ∧ n < s.calls.length ∧
    ∀ call, s.calls[n]? = some call → call.notFound = false) ⟨hmap, hlen, hn⟩ ?_
  · exact hinv.2.2
  · rintro s₁ a s₂ ⟨hm, hl, hc⟩ _ hst
    have ht := (uploadStep_trans hst).2
    refine ⟨ht.inFileMap hm, ?_⟩
    cases ht.callsChange with
    | same h => rw [h]; exact ⟨hl, hc⟩
    | begin request h =>
      rw [h, List.getElem?_append_left hl, List.length_append]
      exact ⟨by omega, hc⟩
    | step i old new hold h _ hnew =>
      rw [h, List.length_set]
      refine ⟨hl, ?_⟩
      intro call hcall
      rcases getElem?_set_cases hcall with ⟨-, rfl⟩ | ⟨-, hold⟩
      · rw [Bool.eq_false_iff]
        intro hnf
        exact absurd (hm.symm.trans (hnew hnf)) (by simp)
      · exact hc call hold

end Upload

/-! ### The result -/

/-- **A call on a retired upload ID never returns the not-found error.**  In every reachable state of
the server, if a complete or an abort of `u` has succeeded, then a call with the ID `u` that arrives
afterwards has not returned not-found in any state reached later. -/
theorem retired_id_never_not_found (md5Hex : List UInt8 → GoString) (cfg : U → PipeConfig W)
    (s s₁ s₂ : Server U W) (u : U) (request : Request)
    (hreach : Reaches (serverStep md5Hex cfg) (fun _ _ => True) (serverInit cfg) s)
    (hret : Retired (s.uploads u))
    (hbegin : serverStep md5Hex cfg s (u, .begin request) = some s₁)
    (hlater : Reaches (serverStep md5Hex cfg) (fun _ _ => True) s₁ s₂) :
    ∀ call, (s₂.uploads u).calls[(s.uploads u).calls.length]? = some call →
      call.notFound = false := by
  have hmap : (s.uploads u).inFileMap = true := retired_inFileMap (reaches_upload hreach u) hret
  unfold serverStep at hbegin
  split at hbegin
  · exact absurd hbegin (by simp)
  · obtain ⟨t, ht, rfl⟩ := Option.map_eq_some_iff.mp hbegin
    cases (uploadStep_trans ht).2
    have hrun := reaches_upload hlater u
    simp only [Function.update_self] at hrun
    refine not_notFound_of_inFileMap hrun hmap (by simp) ?_
    intro call hcall
    rw [List.getElem?_append_right (le_refl _), Nat.sub_self] at hcall
    obtain rfl := Option.some.inj hcall
    cases request <;> rfl

/-- An upload that is aborted, and then gets a part. -/
theorem retired_id_never_not_found_put :
    ∃ s s₁ s₂ : Server Unit Unit,
      Reaches (serverStep (fun _ => []) fun _ => plainConfig) (fun _ _ => True)
        (serverInit fun _ => plainConfig) s ∧
      Retired (s.uploads ()) ∧
      serverStep (fun _ => []) (fun _ => plainConfig) s ((), .begin (.put 1 [7])) = some s₁ ∧
      Reaches (serverStep (fun _ => []) fun _ => plainConfig) (fun _ _ => True) s₁ s₂ ∧
      ∀ call, (s₂.uploads ()).calls[(s.uploads ()).calls.length]? = some call →
        call.notFound = false := by
  have hrun : ∃ s s₁ s₂ : Server Unit Unit,
      runActs (serverStep (fun _ => []) fun _ => plainConfig) (serverInit fun _ => plainConfig)
        [((), .new true), ((), .begin .abort), ((), .call 0 .step), ((), .call 0 .step),
          ((), .call 0 .step)] = some s ∧
      (s.uploads ()).calls = [.abort (.returned (.ok ()))] ∧
      serverStep (fun _ => []) (fun _ => plainConfig) s ((), .begin (.put 1 [7])) = some s₁ ∧
      runActs (serverStep (fun _ => []) fun _ => plainConfig) s₁ [((), .call 1 .step)] = some s₂ :=
    ⟨_, _, _, rfl, rfl, rfl, rfl⟩
  obtain ⟨s, s₁, s₂, hacts, hcalls, hbegin, hlater⟩ := hrun
  have hreach := reaches_of_runActs _ hacts
  have hret : Retired (s.uploads ()) := ⟨_, hcalls ▸ List.mem_singleton_self _, rfl⟩
  exact ⟨s, s₁, s₂, hreach, hret, hbegin, reaches_of_runActs _ hlater,
    retired_id_never_not_found _ _ s s₁ s₂ () _ hreach hret hbegin (reaches_of_runActs _ hlater)⟩

/-- **A part for an aborted upload is refused for the wrong reason**: the abort has succeeded, and
the put returns the error of `os.Create` in the removed directory. -/
theorem put_after_abort_not_not_found :
    ∃ s : Server Unit Unit,
      Reaches (serverStep (fun _ => []) fun _ => plainConfig) (fun _ _ => True)
        (serverInit fun _ => plainConfig) s ∧
      (s.uploads ()).calls = [.abort (.returned (.ok ())),
        .put 1 [7] (.returned (.error .createPartFile))] := by
  have hrun : ∃ s : Server Unit Unit,
      runActs (serverStep (fun _ => []) fun _ => plainConfig) (serverInit fun _ => plainConfig)
        [((), .new true), ((), .begin .abort), ((), .call 0 .step), ((), .call 0 .step),
          ((), .call 0 .step), ((), .begin (.put 1 [7])), ((), .call 1 .step)] = some s ∧
      (s.uploads ()).calls = [.abort (.returned (.ok ())),
        .put 1 [7] (.returned (.error .createPartFile))] := ⟨_, rfl, rfl⟩
  obtain ⟨s, hacts, hcalls⟩ := hrun
  exact ⟨s, reaches_of_runActs _ hacts, hcalls⟩

end Zs3Server.Gateway.Multipart
