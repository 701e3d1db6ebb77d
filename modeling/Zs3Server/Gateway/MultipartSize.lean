import Zs3Server.Gateway.MultipartSteps

/-!
# The size that a multipart upload reports

Every part but the last has the same size, and the parts arrive in any order.  `UpdateFileSize` does not add
the sizes up: it guesses which part is the last from the sizes it has seen.  A part smaller than the ones
before it is the last one and settles the size.  If the last part came first, that shows when the second part is
larger; the size is right then, but it is not settled, and the parts that follow are added to it.

* `sizeAfter` — the fields after the parts have arrived in some order;
* `fileSize_sizeAfter` — the size for each order;
* `fileSize_correct_iff` — for which parts and orders it is the size of the object;
* `fileSize_lastFirst` — three parts with the last one first.
-/

namespace Zs3Server.Gateway.Multipart

open Lib.GoInt64

/-! ### One update -/

theorem FileSize.update_of_updated {f : FileSize} (h : f.lastPartUpdated = true) (partID size : ℤ) :
    f.update partID size = f := by
  unfold FileSize.update
  rw [if_pos h]

/-- The fields while the parts seen last are whole ones: `a` is what has been counted. -/
structure FileSize.Counting (f : FileSize) (S a : ℤ) : Prop where
  open_ : f.lastPartUpdated = false
  size : f.lastPartSize = S
  counted : f.fileSize = wrap64 a

variable {f : FileSize} {S L a : ℤ}

theorem FileSize.Counting.same (h : f.Counting S a) (hS : 0 < S) (partID : ℤ) :
    (f.update partID S).Counting S (a + S) := by
  have hupdate : f.update partID S = { f with fileSize := wrap64 (f.fileSize + S) } := by
    unfold FileSize.update
    rw [h.open_, h.size, if_neg (by decide), if_neg hS.ne', if_neg (lt_irrefl S), if_pos rfl]
  rw [hupdate]
  refine ⟨h.open_, h.size, ?_⟩
  show wrap64 (f.fileSize + S) = wrap64 (a + S)
  rw [h.counted, wrap64_wrap64_add]

/-- A smaller part settles the size. -/
theorem FileSize.Counting.smaller (h : f.Counting S a) (hL : 0 < L) (hlt : L < S) (partID : ℤ) :
    (f.update partID L).lastPartUpdated = true ∧
      (f.update partID L).fileSize = wrap64 ((partID - 1) * S + L) := by
  have hupdate : f.update partID L =
      { f with fileSize := wrap64 ((partID - 1) * f.lastPartSize + L), lastPartUpdated := true } := by
    unfold FileSize.update
    rw [h.open_, h.size, if_neg (by decide), if_neg (by omega), if_neg (by omega), if_neg hlt.ne]
  rw [hupdate]
  refine ⟨rfl, ?_⟩
  show wrap64 ((partID - 1) * f.lastPartSize + L) = _
  rw [h.size]

/-! ### All parts -/

/-- The fields of a new upload. -/
def FileSize.new : FileSize := ⟨0, 0, 0, false⟩

theorem FileSize.counting_first (S partID : ℤ) : (FileSize.new.update partID S).Counting S S := by
  refine ⟨rfl, rfl, ?_⟩
  show wrap64 (0 + S) = wrap64 S
  rw [zero_add]

/-- The first part is followed by a larger one: it was the last. -/
theorem FileSize.counting_larger (hL : 0 < L) (hlt : L < S) (lastID partID : ℤ) :
    ((FileSize.new.update lastID L).update partID S).Counting S ((lastID - 1) * S + L) := by
  have hupdate : (FileSize.new.update lastID L).update partID S =
      ⟨wrap64 ((lastID - 1) * S + L), S, lastID, false⟩ := by
    show FileSize.update ⟨wrap64 (0 + L), L, lastID, false⟩ partID S = _
    unfold FileSize.update
    rw [if_neg Bool.false_ne_true, if_neg hL.ne', if_pos hlt]
  rw [hupdate]
  exact ⟨rfl, rfl, rfl⟩

/-- Part `i` of `n`. -/
def partSize (n : ℕ) (S L : ℤ) (i : ℕ) : ℤ := if i = n then L else S

/-- The calls of `UpdateFileSize` for parts in some order. -/
def updates (n : ℕ) (S L : ℤ) (f : FileSize) (order : List ℕ) : FileSize :=
  order.foldl (fun f (i : ℕ) => f.update i (partSize n S L i)) f

def sizeAfter (n : ℕ) (S L : ℤ) (order : List ℕ) : FileSize := updates n S L FileSize.new order

theorem updates_of_updated {n : ℕ} (order : List ℕ) (h : f.lastPartUpdated = true) :
    updates n S L f order = f := by
  induction order with
  | nil => rfl
  | cons i order ih =>
    show updates n S L (f.update i _) order = f
    rw [FileSize.update_of_updated h]
    exact ih

theorem FileSize.Counting.after {n : ℕ} (hS : 0 < S) (order : List ℕ) (hwhole : ∀ i ∈ order, partSize n S L i = S) :
    ∀ {f : FileSize} {a : ℤ}, f.Counting S a → (updates n S L f order).Counting S (a + order.length * S) := by
  induction order with
  | nil =>
    intro f a h
    rw [List.length_nil, Nat.cast_zero, zero_mul, add_zero]
    exact h
  | cons i order ih =>
    intro f a h
    have hstep : (f.update i (partSize n S L i)).Counting S (a + S) := by
      rw [hwhole i List.mem_cons_self]
      exact h.same hS i
    have hrest := ih (fun j hj => hwhole j (List.mem_cons_of_mem i hj)) hstep
    rw [List.length_cons, show a + ((order.length + 1 : ℕ) : ℤ) * S = a + S + order.length * S by push_cast; ring]
    exact hrest

/-- The size of the object. -/
def totalSize (n : ℕ) (S L : ℤ) : ℤ := (n - 1) * S + L

/-- What is counted twice: with the last part first, all parts after the second. -/
def overcount (n : ℕ) (S L : ℤ) (order : List ℕ) : ℤ :=
  if L < S ∧ order.head? = some n then (n - 2 : ℕ) * S else 0

/-- Parts of one size are added up. -/
theorem fileSize_of_equal {n : ℕ} (hS : 0 < S) {order : List ℕ} (hlength : order.length = n) (hn : 1 ≤ n) :
    (sizeAfter n S S order).fileSize = wrap64 (totalSize n S S) := by
  have hwhole : ∀ i, partSize n S S i = S := by
    intro i
    unfold partSize
    split_ifs <;> rfl
  cases order with
  | nil =>
    rw [List.length_nil] at hlength
    omega
  | cons i rest =>
    have hfirst : (FileSize.new.update i (partSize n S S i)).Counting S S := by
      rw [hwhole i]
      exact FileSize.counting_first S i
    have hrest := (hfirst.after hS rest (fun j _ => hwhole j)).counted
    rw [List.length_cons] at hlength
    have htotal : S + rest.length * S = totalSize n S S := by
      unfold totalSize
      rw [show (n : ℤ) - 1 = rest.length by omega]
      ring
    rw [← htotal]
    exact hrest

/-- With the last part first, the parts after the second are counted twice. -/
theorem fileSize_of_lastFirst {n : ℕ} (hL : 0 < L) (hlt : L < S) {rest : List ℕ}
    (hlength : (n :: rest).length = n) (hnot : n ∉ rest) :
    (sizeAfter n S L (n :: rest)).fileSize = wrap64 (totalSize n S L + (n - 2 : ℕ) * S) := by
  have hwhole : ∀ i ∈ rest, partSize n S L i = S := by
    intro i hi
    exact if_neg (ne_of_mem_of_not_mem hi hnot)
  have hlast : partSize n S L n = L := if_pos rfl
  rw [List.length_cons] at hlength
  cases rest with
  | nil =>
    have hn : n = 1 := by
      rw [List.length_nil] at hlength
      omega
    subst hn
    show wrap64 (0 + partSize 1 S L 1) = _
    rw [hlast]
    unfold totalSize
    norm_num
  | cons j rest =>
    have htwo : ((FileSize.new.update n (partSize n S L n)).update j (partSize n S L j)).Counting S
        (totalSize n S L) := by
      rw [hlast, hwhole j List.mem_cons_self]
      exact FileSize.counting_larger hL hlt n j
    have hrest := (htwo.after (hL.trans hlt) rest (fun i hi => hwhole i (List.mem_cons_of_mem j hi))).counted
    rw [List.length_cons] at hlength
    rw [show n - 2 = rest.length by omega]
    exact hrest

/-- After a whole part the last part settles the size. -/
theorem fileSize_of_lastLater {n i : ℕ} (hL : 0 < L) (hlt : L < S) {rest : List ℕ} (hi : i ≠ n)
    (hmem : n ∈ rest) : (sizeAfter n S L (i :: rest)).fileSize = wrap64 (totalSize n S L) := by
  have hS : 0 < S := hL.trans hlt
  have hfirst : (FileSize.new.update i (partSize n S L i)).Counting S S := by
    rw [show partSize n S L i = S from if_neg hi]
    exact FileSize.counting_first S i
  obtain ⟨pre, post, rfl, hpre⟩ := List.eq_append_cons_of_mem hmem
  have hwhole : ∀ j ∈ pre, partSize n S L j = S := by
    intro j hj
    exact if_neg (ne_of_mem_of_not_mem hj hpre)
  have hcount := hfirst.after hS pre hwhole
  obtain ⟨hupdated, hsize⟩ := hcount.smaller hL hlt n
  have hlast : partSize n S L n = L := if_pos rfl
  show (List.foldl _ (FileSize.new.update i (partSize n S L i)) (pre ++ n :: post)).fileSize = _
  rw [List.foldl_append, List.foldl_cons, hlast]
  exact (congrArg FileSize.fileSize (updates_of_updated post hupdated)).trans hsize

/-- **The size for each order.** -/
theorem fileSize_sizeAfter {n : ℕ} (hn : 1 ≤ n) (hL : 0 < L) (hle : L ≤ S) {order : List ℕ}
    (hperm : order.Perm (List.range' 1 n)) :
    (sizeAfter n S L order).fileSize = wrap64 (totalSize n S L + overcount n S L order) := by
  have hlength : order.length = n := by rw [hperm.length_eq, List.length_range']
  unfold overcount
  rcases hle.lt_or_eq with hlt | rfl
  · have hnodup : order.Nodup := hperm.nodup_iff.mpr List.nodup_range'
    have hmem : n ∈ order := hperm.mem_iff.mpr (List.mem_range'_1.mpr ⟨hn, by omega⟩)
    cases order with
    | nil => exact absurd hmem List.not_mem_nil
    | cons i rest =>
      by_cases hi : i = n
      · subst hi
        rw [if_pos ⟨hlt, rfl⟩]
        exact fileSize_of_lastFirst hL hlt hlength (List.nodup_cons.mp hnodup).1
      · rw [if_neg fun h => hi (Option.some.inj h.2), add_zero]
        exact fileSize_of_lastLater hL hlt hi (List.mem_of_ne_of_mem (Ne.symm hi) hmem)
  · rw [if_neg fun h => lt_irrefl L h.1, add_zero]
    exact fileSize_of_equal hL hlength hn

theorem overcount_eq_zero {n : ℕ} {order : List ℕ} (h : ¬ (3 ≤ n ∧ L < S ∧ order.head? = some n)) :
    overcount n S L order = 0 := by
  unfold overcount
  split_ifs with hfirst
  · have hn : n - 2 = 0 := by
      by_contra hne
      exact h ⟨by omega, hfirst⟩
    rw [hn, Nat.cast_zero, zero_mul]
  · rfl

/-- **When the size is right.**  The size of the object has to be an `int64`, and of three or more parts a shorter
last one must not arrive first. -/
theorem fileSize_correct_iff (n : ℕ) (S L : ℤ) (order : List ℕ) (hn : 1 ≤ n) (hS : 0 < S) (hL : 0 < L)
    (hle : L ≤ S) (hperm : order.Perm (List.range' 1 n)) :
    (sizeAfter n S L order).fileSize = (n - 1) * S + L ↔
      IsInt64 ((n - 1) * S + L) ∧ ¬ (3 ≤ n ∧ L < S ∧ order.head? = some n) := by
  rw [fileSize_sizeAfter hn hL hle hperm]
  show wrap64 (totalSize n S L + overcount n S L order) = totalSize n S L ↔ IsInt64 (totalSize n S L) ∧ _
  constructor
  · intro h
    have hfits : IsInt64 (totalSize n S L) := by
      rw [← h]
      exact isInt64_wrap64 _
    refine ⟨hfits, fun ⟨hthree, hfirst⟩ => ?_⟩
    -- the excess is less than the size, so it does not vanish in the wrapping
    have hover : overcount n S L order = (n - 2 : ℕ) * S := if_pos hfirst
    have hpos : 0 < ((n - 2 : ℕ) : ℤ) * S := mul_pos (by omega) hS
    have hless : ((n - 2 : ℕ) : ℤ) * S < totalSize n S L := by
      unfold totalSize
      rw [show (n : ℤ) - 1 = ((n - 2 : ℕ) : ℤ) + 1 by omega, add_mul, one_mul]
      omega
    obtain ⟨hlow, hhigh⟩ := hfits
    rw [hover] at h
    by_cases hfit : totalSize n S L + (n - 2 : ℕ) * S < 2 ^ 63
    · rw [wrap64_of_mem ⟨by omega, hfit⟩] at h
      omega
    · rw [wrap64_of_ge (not_lt.mp hfit) (by omega)] at h
      omega
  · rintro ⟨hfits, hnot⟩
    rw [overcount_eq_zero hnot, add_zero]
    exact wrap64_of_mem hfits

theorem fileSize_correct_iff_lastSecond :
    (sizeAfter 3 5242880 1 [1, 3, 2]).fileSize = ((3 : ℕ) - 1) * 5242880 + 1 :=
  (fileSize_correct_iff 3 5242880 1 [1, 3, 2] (by decide) (by decide) (by decide) (by decide) (by decide)).mpr
    (by decide)

/-- **The last part first.**  Two parts of 5 MiB and one of a byte, the byte first: 15 MiB and a byte are
reported. -/
theorem fileSize_lastFirst :
    [3, 1, 2].Perm (List.range' 1 3) ∧ (sizeAfter 3 5242880 1 [3, 1, 2]).fileSize = 15728641 ∧
      ((3 : ℕ) - 1) * 5242880 + 1 = (10485761 : ℤ) := by
  decide

end Zs3Server.Gateway.Multipart
