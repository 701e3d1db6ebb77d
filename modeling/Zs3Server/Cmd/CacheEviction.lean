import Zs3Server.Lib.ByteString
import Zs3Server.Lib.ShortestPrefix

/-!
# The files to evict from a cache drive

A purge hands every cached file to a `fileScorer`, which keeps those that are to be deleted: the ones of
the highest scores, enough of them to free `saveBytes` bytes.  A file that is turned away or trimmed is
never looked at again.

* `newFileScorer`, `addFileWithObjInfo`, `adjustSaveBytes`, `insertFile`, `trimQueue` — the code, for
  scores of any kind;
* `trimLoop_optimal` — trimming leaves the shortest prefix that is enough;
* `addFile_optimal`, `adjustSaveBytes_optimal` — one call;
* `queue_optimal` — the queue after any calls.
-/

namespace Zs3Server.Cmd.CacheEviction

open Lib.ByteString
open Lib.ShortestPrefix

/-! ### The code -/

structure QueuedFile (σ : Type*) where
  name : GoString
  versionID : GoString
  size : UInt64
  score : σ
  deriving DecidableEq

/-- The fields of `ObjectInfo` that are put in the queue. -/
structure FileInfo where
  name : GoString
  versionID : GoString
  size : Int64

/-- `fileScorer`, without what only the scores are computed from. -/
structure FileScorer (σ : Type*) where
  saveBytes : UInt64
  queue : List (QueuedFile σ)
  queuedBytes : UInt64
  seenBytes : UInt64
  deriving DecidableEq

variable {σ : Type*}

def newFileScorer (σ : Type*) (saveBytes : UInt64) (now maxHits : Int64) :
    Except GoString (FileScorer σ) :=
  if saveBytes = 0 then .error (lit "newFileScorer: saveBytes = 0")
  else if now < 0 then .error (lit "newFileScorer: now < 0")
  else if maxHits ≤ 0 then .error (lit "newFileScorer: maxHits <= 0")
  else .ok ⟨saveBytes, [], 0, 0⟩

/-- The file that is queued for an object. -/
def queuedFile (objInfo : FileInfo) (score : σ) : QueuedFile σ :=
  ⟨objInfo.name, objInfo.versionID, objInfo.size.toUInt64, score⟩

/-- The loop of `trimQueue`. -/
def trimLoop : ℕ → FileScorer σ → FileScorer σ
  | 0, f => f
  | fuel + 1, f =>
    match f.queue.getLast? with
    | none => f
    | some v =>
      if f.queuedBytes - v.size < f.saveBytes then f
      else trimLoop fuel { f with queue := f.queue.dropLast, queuedBytes := f.queuedBytes - v.size }

/-- Every round but the last one removes a file. -/
def trimQueue (f : FileScorer σ) : FileScorer σ := trimLoop f.queue.length f

def adjustSaveBytes (f : FileScorer σ) (n : Int64) : FileScorer σ × Bool :=
  if f.saveBytes.toInt64 + n ≤ 0 then (trimQueue { f with saveBytes := 0 }, false)
  else
    let f := { f with
      saveBytes := if n < 0 then f.saveBytes - ~~~ (n - 1).toUInt64 else f.saveBytes + n.toUInt64 }
    if f.saveBytes = 0 then ({ f with queue := [], saveBytes := 0 }, false)
    else if n < 0 then (trimQueue f, true)
    else (f, true)

section Order

variable [Preorder σ] [DecidableLT σ]

/-- The file goes before the first one of a lower score. -/
def insertFile (f : FileScorer σ) (file : QueuedFile σ) : FileScorer σ :=
  { f with
    queue := f.queue.orderedInsert (fun x v => v.score < x.score) file
    queuedBytes := f.queuedBytes + file.size }

def addFileWithObjInfo (f : FileScorer σ) (objInfo : FileInfo) (score : σ) : FileScorer σ :=
  let file := queuedFile objInfo score
  let f := { f with seenBytes := f.seenBytes + file.size }
  if f.queuedBytes < f.saveBytes then trimQueue (insertFile f file)
  else
    match f.queue.getLast? with
    | some worst => if file.score < worst.score then f else trimQueue (insertFile f file)
    | none => trimQueue (insertFile f file)

/-- A call on the scorer. -/
inductive Call (σ : Type*) where
  | add (objInfo : FileInfo) (score : σ)
  | adjust (n : Int64)

def call (f : FileScorer σ) : Call σ → FileScorer σ
  | .add objInfo score => addFileWithObjInfo f objInfo score
  | .adjust n => (adjustSaveBytes f n).1

def run (f : FileScorer σ) (calls : List (Call σ)) : FileScorer σ := calls.foldl call f

end Order

/-! ### What the queue should be -/

/-- The file that a call adds. -/
def Call.added : Call σ → List (QueuedFile σ)
  | .add objInfo score => [queuedFile objInfo score]
  | .adjust _ => []

def fileSize (x : QueuedFile σ) : ℕ := x.size.toNat

/-- **The queue is optimal** for the files in this order, and its bytes are counted. -/
structure Optimal (f : FileScorer σ) (files : List (QueuedFile σ)) : Prop where
  shortest : IsShortestPrefix fileSize f.saveBytes.toNat f.queue files
  bytes : f.queuedBytes.toNat = (f.queue.map fileSize).sum

section Order

variable [Preorder σ]

/-- A file is not behind another one in the order of the scores, highest first. -/
def Before (a b : QueuedFile σ) : Prop := b.score ≤ a.score

instance instDecidableBefore [DecidableLE σ] : DecidableRel (Before (σ := σ)) :=
  fun a b => inferInstanceAs (Decidable (b.score ≤ a.score))

instance instTransBefore : IsTrans (QueuedFile σ) Before := ⟨fun _ _ _ hab hbc => le_trans hbc hab⟩

instance instTotalBefore [Std.Total (α := σ) (· ≤ ·)] : Std.Total (Before (σ := σ)) :=
  ⟨fun a b => Std.Total.total b.score a.score⟩

/-- The files in the order of their scores; those of one score in the order they were added. -/
def ranked [DecidableLE σ] (files : List (QueuedFile σ)) : List (QueuedFile σ) :=
  files.insertionSort Before

/-- The bytes of the queue and of the file fit in 64 bits whenever one is added. -/
def Fits [DecidableLT σ] (f : FileScorer σ) : List (Call σ) → Prop
  | [] => True
  | c :: calls => (∀ x ∈ c.added, f.queuedBytes.toNat + x.size.toNat < 2 ^ 64) ∧ Fits (call f c) calls

end Order

/-! ### Trimming -/

theorem sum_concat (q : List (QueuedFile σ)) (v : QueuedFile σ) :
    ((q ++ [v]).map fileSize).sum = (q.map fileSize).sum + v.size.toNat := by
  simp [fileSize]

theorem optimal_of_nil {f : FileScorer σ} {rest : List (QueuedFile σ)} (hnil : f.queue = [])
    (hbytes : f.queuedBytes.toNat = (f.queue.map fileSize).sum)
    (henough : rest = [] ∨ f.saveBytes.toNat ≤ (f.queue.map fileSize).sum) :
    Optimal f (f.queue ++ rest) := by
  refine ⟨?_, hbytes⟩
  rw [hnil] at henough ⊢
  exact isShortestPrefix_nil (henough.imp_right Nat.le_zero.mp)

/-- The bytes left without the last file. -/
theorem sub_last_size {f : FileScorer σ} {q : List (QueuedFile σ)} {v : QueuedFile σ}
    (hq : f.queue = q ++ [v]) (hbytes : f.queuedBytes.toNat = (f.queue.map fileSize).sum) :
    (f.queuedBytes - v.size).toNat = (q.map fileSize).sum := by
  rw [hq, sum_concat] at hbytes
  rw [UInt64.toNat_sub_of_le _ _ (UInt64.le_iff_toNat_le.mpr (by omega))]
  omega

/-- From a prefix that is enough the loop gets to the shortest one. -/
theorem trimLoop_optimal (rest : List (QueuedFile σ)) (fuel : ℕ) (f : FileScorer σ)
    (hfuel : f.queue.length ≤ fuel) (hbytes : f.queuedBytes.toNat = (f.queue.map fileSize).sum)
    (henough : rest = [] ∨ f.saveBytes.toNat ≤ (f.queue.map fileSize).sum) :
    Optimal (trimLoop fuel f) (f.queue ++ rest) := by
  induction fuel generalizing f rest with
  | zero =>
    have hnil : f.queue = [] := List.length_eq_zero_iff.mp (Nat.le_zero.mp hfuel)
    exact optimal_of_nil hnil hbytes henough
  | succ fuel ih =>
    rw [trimLoop]
    rcases List.eq_nil_or_concat f.queue with hnil | ⟨q, v, hq⟩
    · have hnone : f.queue.getLast? = none := by rw [hnil, List.getLast?_nil]
      rw [hnone]
      exact optimal_of_nil hnil hbytes henough
    · rw [List.concat_eq_append] at hq
      have hsub := sub_last_size hq hbytes
      have hlast : f.queue.getLast? = some v := by rw [hq, List.getLast?_concat]
      have hinit : f.queue.dropLast = q := by rw [hq, List.dropLast_concat]
      simp only [hlast, hinit]
      split
      · next hstop =>
        rw [UInt64.lt_iff_toNat_lt, hsub] at hstop
        refine ⟨?_, hbytes⟩
        rw [hq] at henough ⊢
        exact isShortestPrefix_of_concat henough hstop
      · next hgo =>
        -- the last file is not needed: it is the first one of the rest from here on
        rw [UInt64.lt_iff_toNat_lt, hsub, Nat.not_lt] at hgo
        have hlen : q.length ≤ fuel := by
          rw [hq, List.length_append, List.length_singleton] at hfuel
          omega
        rw [hq, List.append_assoc]
        exact ih ([v] ++ rest) { f with queue := q, queuedBytes := f.queuedBytes - v.size } hlen hsub
          (Or.inr hgo)

/-- **Trimming** a prefix that is enough. -/
theorem trimQueue_optimal {f : FileScorer σ} (rest : List (QueuedFile σ))
    (hbytes : f.queuedBytes.toNat = (f.queue.map fileSize).sum)
    (henough : rest = [] ∨ f.saveBytes.toNat ≤ (f.queue.map fileSize).sum) :
    Optimal (trimQueue f) (f.queue ++ rest) :=
  trimLoop_optimal rest _ f le_rfl hbytes henough

/-- A file at the end that is not needed is trimmed first. -/
theorem trimQueue_concat {f : FileScorer σ} {q : List (QueuedFile σ)} {v : QueuedFile σ}
    (hq : f.queue = q ++ [v]) (hbytes : f.queuedBytes.toNat = (f.queue.map fileSize).sum)
    (henough : f.saveBytes.toNat ≤ (q.map fileSize).sum) (rest : List (QueuedFile σ)) :
    Optimal (trimQueue f) (q ++ rest) := by
  have hsub := sub_last_size hq hbytes
  have hgo : ¬ f.queuedBytes - v.size < f.saveBytes := by
    rw [UInt64.lt_iff_toNat_lt, hsub]
    omega
  have hlen : f.queue.length = q.length + 1 := by rw [hq, List.length_append, List.length_singleton]
  rw [trimQueue, hlen, trimLoop]
  simp only [hq, List.getLast?_concat, List.dropLast_concat, if_neg hgo]
  exact trimLoop_optimal rest _ { f with queue := q, queuedBytes := f.queuedBytes - v.size } le_rfl hsub
    (Or.inr henough)

/-! ### The target -/

theorem sub_not_pred (s : UInt64) (n : Int64) : s - ~~~ (n - 1).toUInt64 = s + n.toUInt64 := by
  have hpred : (n - 1).toUInt64 = n.toUInt64 - 1 := rfl
  rw [hpred, UInt64.not_eq_neg_sub, neg_sub, sub_sub_cancel_left, sub_neg_eq_add]

/-- A negative adjustment that leaves something lowers the target: the signed sum tells when the unsigned
one wraps. -/
theorem saveBytes_add_le {s : UInt64} {n : Int64} (hn : n < 0) (hpos : ¬ s.toInt64 + n ≤ 0) :
    (s + n.toUInt64).toNat ≤ s.toNat := by
  have hneg : n.toInt < 0 := by simpa using Int64.lt_iff_toInt_lt.mp hn
  have hsum : ¬ (s.toInt64 + n).toInt ≤ 0 :=
    fun h => hpos (Int64.le_iff_toInt_le.mpr (by simpa using h))
  rw [show n.toInt = n.toUInt64.toBitVec.toInt from rfl] at hneg
  rw [show (s.toInt64 + n).toInt = (s + n.toUInt64).toBitVec.toInt from rfl] at hsum
  rw [BitVec.toInt_eq_toNat_cond] at hneg hsum
  simp only [UInt64.toNat_toBitVec] at hneg hsum
  have hadd := UInt64.toNat_add s n.toUInt64
  have hs := s.toNat_lt
  have hn' := n.toUInt64.toNat_lt
  split at hneg <;> split at hsum <;> omega

/-- A lower target. -/
theorem lower_optimal {f : FileScorer σ} {files : List (QueuedFile σ)} {saveBytes : UInt64}
    (h : Optimal f files) (hle : saveBytes.toNat ≤ f.saveBytes.toNat) :
    Optimal (trimQueue { f with saveBytes := saveBytes }) files := by
  obtain ⟨rest, rfl, henough⟩ := h.shortest.exists_rest
  exact trimQueue_optimal rest h.bytes (henough.imp_right hle.trans)

/-- **The target is lowered.** -/
theorem adjustSaveBytes_optimal {f : FileScorer σ} {files : List (QueuedFile σ)} {n : Int64}
    (h : Optimal f files) (hn : n ≤ 0) : Optimal (adjustSaveBytes f n).1 files := by
  rw [adjustSaveBytes]
  split
  · exact lower_optimal h (Nat.zero_le _)
  · next hpos =>
    by_cases hneg : n < 0
    · have hle := saveBytes_add_le hneg hpos
      have hne : f.saveBytes + n.toUInt64 ≠ 0 := by
        intro h0
        have hsum : f.saveBytes.toInt64 + n = 0 := congrArg UInt64.toInt64 h0
        exact hpos (hsum ▸ Int64.le_refl _)
      simp only [if_pos hneg, sub_not_pred, if_neg hne]
      exact lower_optimal h hle
    · have hzero : n = 0 := Int64.le_antisymm hn (Int64.not_lt.mp hneg)
      subst hzero
      have hsame : f.saveBytes + Int64.toUInt64 0 = f.saveBytes := add_zero _
      have hne : f.saveBytes ≠ 0 := by
        intro h0
        rw [h0] at hpos
        exact hpos (by decide)
      simp only [if_neg hneg, hsame, if_neg hne]
      exact h

/-! ### A file -/

variable [Preorder σ]

theorem lt_iff_not_before [Std.Total (α := σ) (· ≤ ·)] (x v : QueuedFile σ) :
    v.score < x.score ↔ ¬ Before v x := by
  rw [Before, lt_iff_le_not_ge]
  exact ⟨fun h => h.2, fun h => ⟨(Std.Total.total v.score x.score).resolve_right h, h⟩⟩

variable [DecidableLT σ]

theorem insertFile_bytes {f : FileScorer σ} {file : QueuedFile σ}
    (hbytes : f.queuedBytes.toNat = (f.queue.map fileSize).sum)
    (hfits : f.queuedBytes.toNat + file.size.toNat < 2 ^ 64) :
    (insertFile f file).queuedBytes.toNat = ((insertFile f file).queue.map fileSize).sum ∧
      (f.queue.map fileSize).sum ≤ ((insertFile f file).queue.map fileSize).sum := by
  have hperm : ((insertFile f file).queue.map fileSize).sum =
      file.size.toNat + (f.queue.map fileSize).sum :=
    ((List.perm_orderedInsert _ file f.queue).map fileSize).sum_eq.trans (List.sum_cons)
  rw [hperm]
  refine ⟨?_, by omega⟩
  show (f.queuedBytes + file.size).toNat = _
  rw [UInt64.toNat_add, Nat.mod_eq_of_lt hfits]
  omega

section Total

variable [Std.Total (α := σ) (· ≤ ·)] [DecidableLE σ]

theorem ranked_concat (files : List (QueuedFile σ)) (file : QueuedFile σ) :
    ranked (files ++ [file]) =
      (ranked files).orderedInsert (fun x v => v.score < x.score) file :=
  insertionSort_concat Before _ lt_iff_not_before files file

/-- A file that is inserted. -/
theorem insert_optimal {f : FileScorer σ} {files : List (QueuedFile σ)} (file : QueuedFile σ)
    (h : Optimal f (ranked files)) (hfits : f.queuedBytes.toNat + file.size.toNat < 2 ^ 64) :
    Optimal (trimQueue (insertFile f file)) (ranked (files ++ [file])) := by
  obtain ⟨rest, hrest, henough⟩ := h.shortest.exists_rest
  obtain ⟨hbytes, hmore⟩ := insertFile_bytes h.bytes hfits
  rw [ranked_concat, hrest]
  by_cases hlower : ∃ v ∈ f.queue, v.score < file.score
  · -- its place is in the queue
    rw [orderedInsert_append _ rest hlower]
    exact trimQueue_optimal rest hbytes (henough.imp_right fun h => h.trans hmore)
  · have hnone : ∀ v ∈ f.queue, ¬ v.score < file.score := fun v hv hlt => hlower ⟨v, hv, hlt⟩
    have hqueue : (insertFile f file).queue = f.queue ++ [file] := by
      have happend := orderedInsert_append_of_forall
        (fun x v : QueuedFile σ => v.score < x.score) [] hnone
      rw [List.append_nil] at happend
      exact happend
    rcases henough with hnil | henough
    · -- all files are in the queue, and the new one is the last
      rw [hnil, List.append_nil]
      have htrim := trimQueue_optimal [] hbytes (Or.inl rfl)
      rw [List.append_nil] at htrim
      exact htrim
    · -- there may be others of its score outside the queue, but it does not stay
      rw [orderedInsert_append_of_forall _ rest hnone]
      exact trimQueue_concat hqueue hbytes henough _

/-- **A file is added.** -/
theorem addFile_optimal {f : FileScorer σ} {files : List (QueuedFile σ)} (objInfo : FileInfo) (score : σ)
    (h : Optimal f (ranked files))
    (hfits : f.queuedBytes.toNat + (queuedFile objInfo score).size.toNat < 2 ^ 64) :
    Optimal (addFileWithObjInfo f objInfo score) (ranked (files ++ [queuedFile objInfo score])) := by
  have hinsert : ∀ seen, Optimal
      (trimQueue (insertFile { f with seenBytes := seen } (queuedFile objInfo score)))
      (ranked (files ++ [queuedFile objInfo score])) :=
    fun seen => insert_optimal _ ⟨h.shortest, h.bytes⟩ hfits
  rw [addFileWithObjInfo]
  simp only
  split
  · exact hinsert _
  · next hfull =>
    rw [UInt64.lt_iff_toNat_lt, Nat.not_lt, h.bytes] at hfull
    split
    · next worst hworst =>
      split
      · next hreject =>
        -- every file of the queue is as good as the worst one
        obtain ⟨rest, hrest, -⟩ := h.shortest.exists_rest
        have hsorted : (f.queue ++ rest).Pairwise Before :=
          hrest ▸ List.pairwise_insertionSort _ files
        obtain ⟨q, hq⟩ := List.getLast?_eq_some_iff.mp hworst
        have hnone : ∀ v ∈ f.queue, ¬ v.score < (queuedFile objInfo score).score := by
          intro v hv hlt
          have hbefore : worst.score ≤ v.score := by
            rw [hq] at hv
            rcases List.mem_append.mp hv with hv | hv
            · have hpair := (List.pairwise_append.mp hsorted).1
              rw [hq] at hpair
              exact (List.pairwise_append.mp hpair).2.2 v hv worst List.mem_cons_self
            · rw [List.mem_singleton.mp hv]
          exact lt_irrefl _ (hlt.trans (hreject.trans_le hbefore))
        refine ⟨?_, h.bytes⟩
        rw [ranked_concat, hrest, orderedInsert_append_of_forall _ rest hnone]
        exact (hrest ▸ h.shortest).change_rest hfull
      · exact hinsert _
    · exact hinsert _

end Total

/-! ### The run -/

variable [Std.Total (α := σ) (· ≤ ·)] [DecidableLE σ]

theorem run_optimal (calls : List (Call σ)) (f : FileScorer σ) (files : List (QueuedFile σ))
    (h : Optimal f (ranked files)) (hadjust : ∀ n, Call.adjust n ∈ calls → n ≤ 0)
    (hfits : Fits f calls) : Optimal (run f calls) (ranked (files ++ calls.flatMap Call.added)) := by
  induction calls generalizing f files with
  | nil =>
    rw [List.flatMap_nil, List.append_nil]
    exact h
  | cons c calls ih =>
    have hrest : ∀ n, Call.adjust n ∈ calls → n ≤ 0 := fun n hn => hadjust n (List.mem_cons_of_mem _ hn)
    rw [List.flatMap_cons, ← List.append_assoc]
    refine ih (call f c) _ ?_ hrest hfits.2
    cases c with
    | add objInfo score => exact addFile_optimal objInfo score h (hfits.1 _ List.mem_cons_self)
    | adjust n =>
      rw [Call.added, List.append_nil]
      exact adjustSaveBytes_optimal h (hadjust n List.mem_cons_self)

/-- **The eviction queue is optimal.**  After any additions and any adjustments that do not raise the
target: the queue is the shortest prefix of all files, in the order of their scores, that is enough for
what is wanted now, and `queuedBytes` is its size. -/
theorem queue_optimal (saveBytes : UInt64) (now maxHits : Int64) {f : FileScorer σ}
    (hnew : newFileScorer σ saveBytes now maxHits = .ok f) (calls : List (Call σ))
    (hadjust : ∀ n, Call.adjust n ∈ calls → n ≤ 0) (hfits : Fits f calls) :
    Optimal (run f calls) (ranked (calls.flatMap Call.added)) := by
  have hempty : f = ⟨saveBytes, [], 0, 0⟩ := by
    rw [newFileScorer] at hnew
    split at hnew
    · cases hnew
    · split at hnew
      · cases hnew
      · split at hnew
        · cases hnew
        · cases hnew
          rfl
  have hstart : Optimal f (ranked []) := by
    rw [hempty]
    exact ⟨isShortestPrefix_nil (Or.inl rfl), rfl⟩
  exact run_optimal calls f [] hstart hadjust hfits

section Runs

/-- A file of the given size and score. -/
def sized (size : Int64) (score : ℕ) : Call ℕ := .add ⟨[], [], size⟩ score

/-- Files of one score, one without content, one that takes the place of others, and a lower target. -/
theorem queue_optimal_five :
    let calls := [sized 6 1, sized 5 1, sized 0 2, sized 7 3, .adjust (-4)]
    (run ⟨10, [], 0, 0⟩ calls).queue.map fileSize = [7] ∧
      Optimal (run ⟨10, [], 0, 0⟩ calls) (ranked (calls.flatMap Call.added)) := by
  refine ⟨by decide, queue_optimal 10 0 1 rfl _ ?_ ?_⟩
  · intro n hn
    simp only [sized, List.mem_cons, reduceCtorEq, Call.adjust.injEq, List.not_mem_nil, or_false,
      false_or] at hn
    subst hn
    decide
  · exact ⟨by decide, by decide, by decide, by decide, by decide, trivial⟩

/-- **Three files of the largest size**, all of which are wanted: their bytes do not fit. -/
theorem queuedBytes_wraps :
    let f : FileScorer ℕ := ⟨18446744073709551615, [], 0, 0⟩
    let g := run f [sized Int64.maxValue 1, sized Int64.maxValue 1, sized Int64.maxValue 1]
    newFileScorer ℕ 18446744073709551615 0 1 = .ok f ∧ g.queuedBytes.toNat = 2 ^ 63 - 3 ∧
      (g.queue.map fileSize).sum = 3 * (2 ^ 63 - 1) := by
  refine ⟨rfl, ?_, ?_⟩
  · decide
  · decide

end Runs

end Zs3Server.Cmd.CacheEviction
