import Mathlib
import Zs3Server.Lib.Chunks

/-!
# Streams of sealed packages

A list is cut into payloads of `k` elements, and each is sealed under its number in the stream into a
package that is `w` elements longer.  A reader who knows the number of a package may start there.

* `Sealing` — a seal for every number, with the laws that a reader relies on;
* `sealStream`, `openStream` — writing and reading from a given number on;
* `openStream_sealStream` — what was written is read;
* `drop_sealStream`, `take_sealStream` — whole packages are cut off where their payloads are;
* `length_sealStream` — the length of a stream.

Nothing here depends on a program.
-/

namespace Zs3Server.Lib.SealedStream

open Lib.Chunks

/-- A way to seal payloads of at most `k` elements, with `w` elements more for each. -/
structure Sealing (α : Type*) (k w : ℕ) where
  pack : ℕ → List α → List α
  unpack : ℕ → List α → Option (List α)
  length_pack : ∀ n b, (pack n b).length = b.length + w
  unpack_pack : ∀ n b, b ≠ [] → b.length ≤ k → unpack n (pack n b) = some b

variable {α : Type*} {k w : ℕ} (S : Sealing α k w)

def packFrom : ℕ → List (List α) → List α
  | _, [] => []
  | n, b :: bs => S.pack n b ++ packFrom (n + 1) bs

/-- The packages of a list, the first with the number `n`. -/
def sealStream (n : ℕ) (l : List α) : List α := packFrom S n (cut k l)

/-- The payloads before the first package that does not open, and whether all did. -/
def unpackFrom : ℕ → List (List α) → List α × Bool
  | _, [] => ([], true)
  | n, c :: cs =>
    match S.unpack n c with
    | none => ([], false)
    | some b => (b ++ (unpackFrom (n + 1) cs).1, (unpackFrom (n + 1) cs).2)

/-- Reading packages from the number `n` on. -/
def openStream (n : ℕ) (l : List α) : List α × Bool := unpackFrom S n (cut (k + w) l)

/-- The length of a stream of `n` elements. -/
def sealedLength (k w n : ℕ) : ℕ := n / k * (k + w) + if n % k = 0 then 0 else n % k + w

variable {S}

@[simp] theorem sealStream_nil (n : ℕ) : sealStream S n [] = [] := rfl

theorem sealStream_of_ne_nil (hk : 0 < k) {l : List α} (hl : l ≠ []) (n : ℕ) :
    sealStream S n l = S.pack n (l.take k) ++ sealStream S (n + 1) (l.drop k) := by
  unfold sealStream
  rw [cut_of_ne_nil hk hl]
  rfl

/-- The first package is full, or it is the last. -/
theorem length_pack_take (n : ℕ) (l : List α) :
    (S.pack n (l.take k)).length = k + w ∨ (S.pack n (l.take k)).length < k + w ∧ l.drop k = [] := by
  rw [S.length_pack, List.length_take, List.drop_eq_nil_iff]
  omega

theorem drop_sealStream_one (hk : 0 < k) (n : ℕ) (l : List α) :
    (sealStream S n l).drop (k + w) = sealStream S (n + 1) (l.drop k) := by
  by_cases hl : l = []
  · rw [hl]
    simp
  · rw [sealStream_of_ne_nil hk hl]
    rcases length_pack_take (S := S) n l with hfull | ⟨hshort, hlast⟩
    · rw [← hfull, List.drop_left]
    · rw [hlast, sealStream_nil, List.append_nil, List.drop_eq_nil_of_le hshort.le]

/-- **Dropping whole packages drops their payloads.** -/
theorem drop_sealStream (hk : 0 < k) (s : ℕ) : ∀ (n : ℕ) (l : List α),
    (sealStream S n l).drop (s * (k + w)) = sealStream S (n + s) (l.drop (s * k)) := by
  induction s with
  | zero =>
    intro n l
    simp
  | succ s ih =>
    intro n l
    rw [Nat.succ_mul, Nat.add_comm, ← List.drop_drop, drop_sealStream_one hk, ih, List.drop_drop,
      Nat.succ_mul, Nat.add_comm k, Nat.add_right_comm n 1 s]
    rfl

/-- **Keeping whole packages keeps their payloads.** -/
theorem take_sealStream (hk : 0 < k) (s : ℕ) : ∀ (n : ℕ) (l : List α),
    (sealStream S n l).take (s * (k + w)) = sealStream S n (l.take (s * k)) := by
  induction s with
  | zero =>
    intro n l
    simp
  | succ s ih =>
    intro n l
    by_cases hl : l = []
    · rw [hl]
      simp
    · have hpos := List.length_pos_iff.mpr hl
      have hne : l.take ((s + 1) * k) ≠ [] := by
        rw [← List.length_pos_iff, List.length_take, Nat.succ_mul]
        omega
      have hhead : (l.take ((s + 1) * k)).take k = l.take k := by
        rw [List.take_take, Nat.min_eq_left (by rw [Nat.succ_mul]; omega)]
      have htail : (l.take ((s + 1) * k)).drop k = (l.drop k).take (s * k) := by
        rw [List.drop_take, Nat.succ_mul, Nat.add_sub_cancel]
      rw [sealStream_of_ne_nil hk hl, sealStream_of_ne_nil hk hne, hhead, htail, ← ih, Nat.succ_mul]
      rcases length_pack_take (S := S) n l with hfull | ⟨hshort, hlast⟩
      · have hpackage : (S.pack n (l.take k)).length ≤ s * (k + w) + (k + w) := by omega
        rw [List.take_append, List.take_of_length_le hpackage, hfull, Nat.add_sub_cancel]
      · rw [hlast, sealStream_nil, List.append_nil, List.take_nil, List.append_nil,
          List.take_of_length_le (by omega)]

/-- **Reading gives what was written.** -/
theorem openStream_sealStream (hk : 0 < k) (l : List α) :
    ∀ n, openStream S n (sealStream S n l) = (l, true) := by
  induction l using cut_induction hk with
  | h0 =>
    intro n
    rfl
  | hstep l hl ih =>
    intro n
    have hpos := List.length_pos_iff.mpr hl
    have hpayload : l.take k ≠ [] := by
      rw [← List.length_pos_iff, List.length_take]
      omega
    have hne : sealStream S n l ≠ [] := by
      rw [← List.length_pos_iff, sealStream_of_ne_nil hk hl, List.length_append, S.length_pack]
      have := List.length_pos_iff.mpr hpayload
      omega
    have hfirst : (sealStream S n l).take (k + w) = S.pack n (l.take k) := by
      have hone := take_sealStream (S := S) hk 1 n l
      rw [Nat.one_mul, Nat.one_mul, sealStream_of_ne_nil hk hpayload, List.take_take, Nat.min_self,
        List.drop_eq_nil_of_le (List.length_take_le k l), sealStream_nil, List.append_nil] at hone
      exact hone
    have hrest := ih (n + 1)
    unfold openStream at hrest ⊢
    rw [cut_of_ne_nil (by omega) hne, hfirst, drop_sealStream_one hk]
    simp only [unpackFrom, S.unpack_pack n _ hpayload (List.length_take_le k l), hrest,
      List.take_append_drop]

theorem sealedLength_of_le (hk : 0 < k) {n : ℕ} (hn : k ≤ n) :
    sealedLength k w n = k + w + sealedLength k w (n - k) := by
  unfold sealedLength
  rw [Nat.mod_eq_sub_mod hn, Nat.div_eq_sub_div hk hn, Nat.succ_mul]
  omega

theorem length_sealStream (hk : 0 < k) (l : List α) :
    ∀ n, (sealStream S n l).length = sealedLength k w l.length := by
  induction l using cut_induction hk with
  | h0 =>
    intro n
    simp [sealedLength]
  | hstep l hl ih =>
    intro n
    have hpos := List.length_pos_iff.mpr hl
    rw [sealStream_of_ne_nil hk hl, List.length_append, ih, S.length_pack, List.length_take,
      List.length_drop]
    by_cases hle : k ≤ l.length
    · rw [sealedLength_of_le hk hle, Nat.min_eq_left hle]
    · have hlt : l.length < k := Nat.lt_of_not_le hle
      have hzero : sealedLength k w 0 = 0 := by simp [sealedLength]
      rw [Nat.min_eq_right hlt.le, Nat.sub_eq_zero_of_le hlt.le, hzero]
      unfold sealedLength
      rw [Nat.div_eq_of_lt hlt, Nat.mod_eq_of_lt hlt, if_neg hpos.ne']
      omega

end Zs3Server.Lib.SealedStream
