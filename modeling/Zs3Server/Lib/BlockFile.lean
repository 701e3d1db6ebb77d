import Mathlib
import Zs3Server.Lib.Chunks

/-!
# Files of checksummed blocks

A list stored as a file of blocks, each after its checksum: the list is cut into pieces of `k` elements,
and each piece is written after the hash of it.  An empty list is stored as one hash.

* `blockWrites`, `blockFile` — the writes, and the file they make;
* `flatten_blockWrites` — the writes one after the other are the file;
* `read_hash`, `read_block` — the hash and the block number `n` stand where a reader looks for them;
* `take_append_block` — reading a window block by block.

Nothing here depends on a program.
-/

namespace Zs3Server.Lib.BlockFile

open Lib.Chunks

variable {α : Type*}

section Layout

variable (hash : List α → List α) (k : ℕ)

/-- The blocks of a list, each after its hash. -/
def blocks (l : List α) : List α := ((cut k l).map fun b => hash b ++ b).flatten

/-- The file of a list. -/
def blockFile [DecidableEq α] (l : List α) : List α := if l = [] then hash [] else blocks hash k l

/-- The writes that make the file. -/
def blockWrites [DecidableEq α] (l : List α) : List (List α) :=
  if l = [] then [hash [], []] else (cut k l).flatMap fun b => [hash b, b]

variable {hash k} {l : List α}

theorem flatten_blockWrites [DecidableEq α] (l : List α) :
    (blockWrites hash k l).flatten = blockFile hash k l := by
  unfold blockWrites blockFile blocks
  split
  · simp
  · induction cut k l with
    | nil => rfl
    | cons b bs ih =>
      rw [List.flatMap_cons, List.flatten_append, ih]
      simp

theorem blocks_of_ne_nil (hk : 0 < k) (hl : l ≠ []) :
    blocks hash k l = hash (l.take k) ++ (l.take k ++ blocks hash k (l.drop k)) := by
  unfold blocks
  rw [cut_of_ne_nil hk hl, List.map_cons, List.flatten_cons, List.append_assoc]

theorem blockFile_of_ne_nil [DecidableEq α] (hl : l ≠ []) :
    blockFile hash k l = blocks hash k l ++ [] := by
  rw [blockFile, if_neg hl, List.append_nil]

/-- After `n` full blocks the blocks of the rest follow. -/
theorem drop_blocks {w : ℕ} (hk : 0 < k) (hw : ∀ b, (hash b).length = w) (tail : List α) (n : ℕ) :
    ∀ l : List α, k * n ≤ l.length →
      (blocks hash k l ++ tail).drop ((w + k) * n) = blocks hash k (l.drop (k * n)) ++ tail := by
  induction n with
  | zero =>
    intro l _
    simp
  | succ n ih =>
    intro l hlen
    have hsucc : k * (n + 1) = k * n + k := Nat.mul_succ k n
    have hpos : (l.take k).length = k := by
      rw [List.length_take]
      omega
    have hne : l ≠ [] := by
      rintro rfl
      simp at hlen
      omega
    -- the first block is full
    have hfirst : (hash (l.take k) ++ l.take k).length = w + k := by
      rw [List.length_append, hw, hpos]
    have hrest : (blocks hash k l ++ tail).drop (w + k) = blocks hash k (l.drop k) ++ tail := by
      rw [blocks_of_ne_nil hk hne, ← List.append_assoc, List.append_assoc, ← hfirst, List.drop_left]
    have hih := ih (l.drop k) (by rw [List.length_drop]; omega)
    rw [Nat.mul_succ, Nat.add_comm, ← List.drop_drop, hrest, hih, List.drop_drop, hsucc,
      Nat.add_comm k]

/-- The hash of block `n`. -/
theorem read_hash {w n : ℕ} (hk : 0 < k) (hw : ∀ b, (hash b).length = w) (tail : List α)
    (hn : k * n < l.length) :
    ((blocks hash k l ++ tail).drop ((w + k) * n)).take w = hash ((l.drop (k * n)).take k) := by
  have hne : l.drop (k * n) ≠ [] := by
    rw [ne_eq, List.drop_eq_nil_iff]
    omega
  rw [drop_blocks hk hw tail n l hn.le, blocks_of_ne_nil hk hne, List.append_assoc]
  exact List.take_left' (hw _)

/-- Block `n` itself, in a file that ends with it or goes on behind a full block. -/
theorem read_block {w n : ℕ} (hk : 0 < k) (hw : ∀ b, (hash b).length = w) {tail : List α}
    (htail : tail = [] ∨ k ∣ l.length) (hn : k * n < l.length) :
    ((blocks hash k l ++ tail).drop ((w + k) * n + w)).take k = (l.drop (k * n)).take k := by
  have hne : l.drop (k * n) ≠ [] := by
    rw [ne_eq, List.drop_eq_nil_iff]
    omega
  have hskip : ((blocks hash k l ++ tail).drop ((w + k) * n)).drop w =
      (l.drop (k * n)).take k ++ (blocks hash k ((l.drop (k * n)).drop k) ++ tail) := by
    rw [drop_blocks hk hw tail n l hn.le, blocks_of_ne_nil hk hne, List.append_assoc,
      List.append_assoc]
    exact List.drop_left' (hw _)
  rw [← List.drop_drop, hskip]
  by_cases hfull : k ≤ (l.drop (k * n)).length
  · have hlen : ((l.drop (k * n)).take k).length = k := by
      rw [List.length_take]
      omega
    exact List.take_left' hlen
  · -- the last block, which nothing follows
    rw [List.length_drop] at hfull
    have hend : (l.drop (k * n)).drop k = [] := by
      rw [List.drop_eq_nil_iff, List.length_drop]
      omega
    have hnil : blocks hash k ([] : List α) = [] := rfl
    have htail' : tail = [] := by
      refine htail.resolve_right fun ⟨m, hm⟩ => ?_
      rw [hm, ← Nat.mul_sub] at hfull
      have hpos : 0 < m - n := by
        rw [hm] at hn
        exact Nat.sub_pos_of_lt (Nat.lt_of_mul_lt_mul_left hn)
      exact hfull (Nat.le_mul_of_pos_right k hpos)
    rw [hend, hnil, htail', List.append_nil, List.append_nil, List.take_take, Nat.min_self]

end Layout

/-! ### Windows -/

/-- The window `[off, off + len)` of a list, read as far as `start`, continued with the part of the block
`[start, start + k)` that lies in the window. -/
theorem take_append_block {k : ℕ} (l : List α) {off len start : ℕ} (hstart : off < start + k)
    (hend : start ≤ off + len) :
    (l.drop off).take (min len (start - off)) ++
        (((l.drop start).take k).drop (max off start - start)).take
          (min (off + len) (start + k) - max off start) =
      (l.drop off).take (min len (start + k - off)) := by
  have hslice : (((l.drop start).take k).drop (max off start - start)).take
        (min (off + len) (start + k) - max off start) =
      (l.drop (off + min len (start - off))).take
        (min (off + len) (start + k) - max off start) := by
    rw [List.drop_take, List.drop_drop, List.take_take]
    congr 1
    · omega
    · congr 1
      omega
  have hsum : min len (start + k - off) =
      min len (start - off) + (min (off + len) (start + k) - max off start) := by omega
  rw [hslice, hsum, List.take_add, List.drop_drop]

end Zs3Server.Lib.BlockFile
