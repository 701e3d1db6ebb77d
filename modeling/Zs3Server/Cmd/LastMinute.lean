import Zs3Server.Lib.GoInt64

/-!
# Latencies of the last minute

`LastMinuteLatencies` has a slot for each of the last sixty seconds, in a ring that is cleared only when
time has gone on.  Records are added to, read and merged.

* `forwardTo`, `add`, `getAvg`, `merge` — the operations, which panic at a second before 1970;
* `Run` — a record built by them, with what was added to it;
* `forwardTo_slots` — going on to a second drops what is a minute old;
* `Run.tracked` — what the slots of a record hold, after any run;
* `getAvg_exact` — reading gives what was added in the last minute.
-/

namespace Zs3Server.Cmd.LastMinute

open Lib.GoInt64

/-! ## Records -/

inductive SizeTag where
  | lessThan1KiB
  | lessThan1MiB
  | lessThan10MiB
  | lessThan100MiB
  | lessThan1GiB
  | greaterThan1GiB
  deriving DecidableEq

def sizeToTag (size : ℤ) : SizeTag :=
  if size < 1024 then .lessThan1KiB
  else if size < 1024 * 1024 then .lessThan1MiB
  else if size < 10 * 1024 * 1024 then .lessThan10MiB
  else if size < 100 * 1024 * 1024 then .lessThan100MiB
  else if size < 1024 * 1024 * 1024 then .lessThan1GiB
  else .greaterThan1GiB

@[ext] structure AccElem where
  total : ℤ
  n : ℤ
  deriving DecidableEq

def AccElem.zero : AccElem := ⟨0, 0⟩

/-- A duration, as a single element. -/
def AccElem.add (a : AccElem) (dur : ℤ) : AccElem := ⟨wrap64 (a.total + dur), wrap64 (a.n + 1)⟩

def AccElem.merge (a b : AccElem) : AccElem := ⟨wrap64 (a.total + b.total), wrap64 (a.n + b.n)⟩

abbrev Totals := Fin 60 → SizeTag → AccElem

structure LastMinuteLatencies where
  totals : Totals
  lastSec : ℤ

def LastMinuteLatencies.zero : LastMinuteLatencies := ⟨fun _ _ => .zero, 0⟩

/-- The index `sec % 60`; a negative one is a panic. -/
def slotIndex (sec : ℤ) : Option (Fin 60) :=
  if h : 0 ≤ sec.tmod 60 then some ⟨(sec.tmod 60).toNat, by have := Int.tmod_lt_of_pos sec (b := 60); omega⟩
  else none

/-- The loop that clears the next element until the last second is `n` seconds on. -/
def clearNext : ℕ → LastMinuteLatencies → Option LastMinuteLatencies
  | 0, l => some l
  | n + 1, l => (slotIndex (l.lastSec + 1)).bind fun idx =>
      clearNext n ⟨Function.update l.totals idx fun _ => .zero, l.lastSec + 1⟩

/-- Forward to time `t`, clearing any entries in between. -/
def LastMinuteLatencies.forwardTo (l : LastMinuteLatencies) (t : ℤ) : Option LastMinuteLatencies :=
  if l.lastSec ≥ t then some l
  -- the last second stays behind
  else if wrap64 (t - l.lastSec) ≥ 60 then some { l with totals := fun _ _ => .zero }
  else clearNext (t - l.lastSec).toNat l

/-- `Add`, at a second. -/
def LastMinuteLatencies.add (l : LastMinuteLatencies) (sec size dur : ℤ) : Option LastMinuteLatencies :=
  (l.forwardTo sec).bind fun l => (slotIndex sec).map fun winIdx =>
    ⟨Function.update l.totals winIdx (Function.update (l.totals winIdx) (sizeToTag size)
      ((l.totals winIdx (sizeToTag size)).add dur)), sec⟩

/-- `GetAvg`, at a second: the result, and the record that has gone on. -/
def LastMinuteLatencies.getAvg (l : LastMinuteLatencies) (sec : ℤ) :
    Option ((SizeTag → AccElem) × LastMinuteLatencies) :=
  (l.forwardTo sec).map fun l =>
    (fun j => (List.finRange 60).foldl (fun res i => res.merge (l.totals i j)) .zero, l)

/-- `Merge`. -/
def LastMinuteLatencies.merge (l o : LastMinuteLatencies) : Option LastMinuteLatencies :=
  if l.lastSec > o.lastSec then (o.forwardTo l.lastSec).map fun o =>
    ⟨fun i j => (l.totals i j).merge (o.totals i j), l.lastSec⟩
  else (l.forwardTo o.lastSec).map fun l => ⟨fun i j => (l.totals i j).merge (o.totals i j), o.lastSec⟩

/-! ## Runs -/

structure Addition where
  sec : ℤ
  size : ℤ
  dur : ℤ

/-- A record built by additions, readings and merges. -/
inductive Run where
  | new
  | add (r : Run) (a : Addition)
  | getAvg (r : Run) (sec : ℤ)
  | merge (l o : Run)

/-- The record; `none` is a panic. -/
def Run.record : Run → Option LastMinuteLatencies
  | .new => some .zero
  | .add r a => r.record.bind fun l => l.add a.sec a.size a.dur
  | .getAvg r sec => r.record.bind fun l => (l.getAvg sec).map Prod.snd
  | .merge l o => l.record.bind fun l => o.record.bind fun o => l.merge o

/-- All additions, over all merged records. -/
def Run.additions : Run → List Addition
  | .new => []
  | .add r a => a :: r.additions
  | .getAvg r _ => r.additions
  | .merge l o => l.additions ++ o.additions

/-- The seconds of all calls. -/
def Run.seconds : Run → List ℤ
  | .new => []
  | .add r a => a.sec :: r.seconds
  | .getAvg r sec => sec :: r.seconds
  | .merge l o => l.seconds ++ o.seconds

/-- Additions to a record are made at seconds that do not decrease. -/
def Run.Ordered : Run → Prop
  | .new => True
  | .add r a => r.Ordered ∧ ∀ b ∈ r.additions, b.sec ≤ a.sec
  | .getAvg r _ => r.Ordered
  | .merge l o => l.Ordered ∧ o.Ordered

/-! ## What the slots hold -/

/-- The number and the total duration of additions, as 64-bit numbers. -/
def accOf (as : List Addition) : AccElem := ⟨wrap64 (as.map Addition.dur).sum, wrap64 as.length⟩

theorem accOf_nil : accOf [] = .zero := rfl

theorem accOf_cons (a : Addition) (as : List Addition) : accOf (a :: as) = (accOf as).add a.dur := by
  unfold accOf AccElem.add
  rw [wrap64_wrap64_add, wrap64_wrap64_add, List.map_cons, List.sum_cons, List.length_cons, add_comm a.dur]
  push_cast
  rfl

theorem accOf_append (as bs : List Addition) : accOf (as ++ bs) = (accOf as).merge (accOf bs) := by
  unfold accOf AccElem.merge
  dsimp only
  rw [wrap64_wrap64_add, wrap64_wrap64_add, add_comm _ (wrap64 _), add_comm _ (wrap64 _), wrap64_wrap64_add,
    wrap64_wrap64_add, List.map_append, List.sum_append, List.length_append, add_comm (List.sum _)]
  push_cast
  rw [add_comm (as.length : ℤ)]

/-- The slot of a second. -/
def slotOf (sec : ℤ) : Fin 60 := ⟨(sec % 60).toNat, by omega⟩

theorem slotIndex_eq {sec : ℤ} (h : 0 ≤ sec) : slotIndex sec = some (slotOf sec) := by
  have hmod : sec.tmod 60 = sec % 60 := Int.tmod_eq_emod_of_nonneg h
  have hpos : 0 ≤ sec.tmod 60 := by omega
  rw [slotIndex, dif_pos hpos]
  simp only [hmod, slotOf]

theorem slotOf_eq_iff {s s' : ℤ} : slotOf s = slotOf s' ↔ s % 60 = s' % 60 := by
  rw [slotOf, slotOf, Fin.mk.injEq]
  omega

/-- The additions of a slot and a tag. -/
def slotted (kept : List Addition) (i : Fin 60) (j : SizeTag) : List Addition :=
  kept.filter fun a => slotOf a.sec = i ∧ sizeToTag a.size = j

/-- The slots hold these additions. -/
def Slots (totals : Totals) (kept : List Addition) : Prop := ∀ i j, totals i j = accOf (slotted kept i j)

theorem slots_nil : Slots (fun _ _ => .zero) [] := by
  intro i j
  rw [slotted, List.filter_nil, accOf_nil]

/-- The additions are of the minute up to `last`. -/
def Within (last : ℤ) (kept : List Addition) : Prop := ∀ a ∈ kept, last - 60 < a.sec ∧ a.sec ≤ last

/-- The additions less than a minute before `t`. -/
def recent (t : ℤ) (as : List Addition) : List Addition := as.filter fun a => t - 60 < a.sec

theorem mem_recent {t : ℤ} {as : List Addition} {a : Addition} :
    a ∈ recent t as ↔ a ∈ as ∧ t - 60 < a.sec := by simp [recent]

theorem recent_recent {t t' : ℤ} (h : t ≤ t') (as : List Addition) : recent t' (recent t as) = recent t' as := by
  rw [recent, recent, List.filter_filter]
  refine List.filter_congr fun a _ => ?_
  by_cases ha : t' - 60 < a.sec
  · simp only [ha, decide_true, Bool.true_and, decide_eq_true_eq]
    omega
  · simp [ha]

theorem recent_eq_self {t : ℤ} {as : List Addition} (h : ∀ a ∈ as, t - 60 < a.sec) : recent t as = as :=
  List.filter_eq_self.mpr fun a ha => decide_eq_true (h a ha)

theorem recent_eq_nil {t : ℤ} {as : List Addition} (h : ∀ a ∈ as, a.sec ≤ t - 60) : recent t as = [] :=
  List.filter_eq_nil_iff.mpr fun a ha => by
    have := h a ha
    simp only [decide_eq_true_eq]
    omega

/-- Clearing the next slot drops what was added a minute before it. -/
theorem slots_clear {totals : Totals} {kept : List Addition} {last : ℤ} (hslots : Slots totals kept)
    (hwithin : Within last kept) :
    Slots (Function.update totals (slotOf (last + 1)) fun _ => .zero) (recent (last + 1) kept) := by
  intro i j
  by_cases hi : i = slotOf (last + 1)
  · subst hi
    have hnone : slotted (recent (last + 1) kept) (slotOf (last + 1)) j = [] := by
      refine List.filter_eq_nil_iff.mpr fun a ha hslot => ?_
      obtain ⟨hmem, hrecent⟩ := mem_recent.mp ha
      have hle := (hwithin a hmem).2
      have hmod := slotOf_eq_iff.mp (of_decide_eq_true hslot).1
      omega
    rw [Function.update_self, hnone, accOf_nil]
  · have hsame : slotted (recent (last + 1) kept) i j = slotted kept i j := by
      unfold slotted recent
      rw [List.filter_filter]
      refine List.filter_congr fun a ha => ?_
      by_cases hslot : slotOf a.sec = i
      · -- the addition that is dropped is of the slot that is cleared
        have hlow := (hwithin a ha).1
        have hne : a.sec ≠ last + 1 - 60 := by
          intro heq
          refine hi (hslot.symm.trans (slotOf_eq_iff.mpr ?_))
          omega
        have hkeep : last + 1 - 60 < a.sec := by omega
        simp [hkeep]
      · simp [hslot]
    rw [Function.update_of_ne hi, hslots, hsame]

theorem Within.recent {last t : ℤ} {kept : List Addition} (h : Within last kept) (hle : last ≤ t) :
    Within t (LastMinute.recent t kept) := by
  intro a ha
  obtain ⟨hmem, hrecent⟩ := mem_recent.mp ha
  exact ⟨hrecent, (h a hmem).2.trans hle⟩

theorem clearNext_slots (n : ℕ) {l : LastMinuteLatencies} {kept : List Addition} (hslots : Slots l.totals kept)
    (hwithin : Within l.lastSec kept) (hpos : 0 ≤ l.lastSec) :
    ∃ l', clearNext n l = some l' ∧ Slots l'.totals (recent (l.lastSec + n) kept) ∧ l'.lastSec = l.lastSec + n := by
  induction n generalizing l kept with
  | zero =>
    refine ⟨l, rfl, ?_, by simp⟩
    rw [Nat.cast_zero, add_zero, recent_eq_self fun a ha => (hwithin a ha).1]
    exact hslots
  | succ n ih =>
    have hidx : slotIndex (l.lastSec + 1) = some (slotOf (l.lastSec + 1)) := slotIndex_eq (by omega)
    obtain ⟨l', heq, hslots', hlast⟩ := ih (l := ⟨Function.update l.totals (slotOf (l.lastSec + 1))
      fun _ => .zero, l.lastSec + 1⟩) (slots_clear hslots hwithin) (hwithin.recent (lt_add_one _).le)
      (show 0 ≤ l.lastSec + 1 by omega)
    have hsec : l.lastSec + 1 + (n : ℤ) = l.lastSec + ((n + 1 : ℕ) : ℤ) := by
      push_cast
      omega
    dsimp only at hslots' hlast
    rw [hsec] at hslots' hlast
    refine ⟨l', ?_, ?_, hlast⟩
    · rw [clearNext, hidx]
      exact heq
    · rw [recent_recent (by omega)] at hslots'
      exact hslots'

/-- **Going on to a second drops what is a minute old.**  The last second is then this one, unless it was
before it by a minute; then nothing is kept. -/
theorem forwardTo_slots {l : LastMinuteLatencies} {kept : List Addition} (hslots : Slots l.totals kept)
    (hwithin : Within l.lastSec kept) (hpos : 0 ≤ l.lastSec) {t : ℤ} (ht : t < 2 ^ 63) :
    ∃ l', l.forwardTo t = some l' ∧ Slots l'.totals (recent t kept) ∧
      (l'.lastSec = max l.lastSec t ∨ (l'.lastSec = l.lastSec ∧ recent t kept = [] ∧ l.lastSec < t)) := by
  unfold LastMinuteLatencies.forwardTo
  by_cases hle : l.lastSec ≥ t
  · refine ⟨l, if_pos hle, ?_, .inl (max_eq_left hle).symm⟩
    rw [recent_eq_self fun a ha => lt_of_le_of_lt (by omega) (hwithin a ha).1]
    exact hslots
  · rw [if_neg hle, wrap64_of_mem ⟨by omega, by omega⟩]
    by_cases hgap : t - l.lastSec ≥ 60
    · have hnil : recent t kept = [] := recent_eq_nil fun a ha => by
        have := (hwithin a ha).2
        omega
      refine ⟨_, if_pos hgap, ?_, .inr ⟨rfl, hnil, by omega⟩⟩
      rw [hnil]
      exact slots_nil
    · rw [if_neg hgap]
      obtain ⟨l', heq, hslots', hlast⟩ := clearNext_slots (t - l.lastSec).toNat hslots hwithin hpos
      have hsec : l.lastSec + ((t - l.lastSec).toNat : ℤ) = t := by omega
      rw [hsec] at hslots' hlast
      exact ⟨l', heq, hslots', .inl (by omega)⟩

/-! ## Runs of operations -/

/-- What is known of a record at a second `now` that is not before any call: it holds some of the additions,
of the minute up to its last second, and all of those of the last minute. -/
structure Tracks (l : LastMinuteLatencies) (as kept : List Addition) (now : ℤ) : Prop where
  slots : Slots l.totals kept
  within : Within l.lastSec kept
  sublist : kept.Sublist as
  complete : recent now kept = recent now as
  pos : 0 ≤ l.lastSec
  last : l.lastSec ≤ now

theorem recent_append (t : ℤ) (as bs : List Addition) : recent t (as ++ bs) = recent t as ++ recent t bs :=
  List.filter_append _ _

/-- Going on to a second keeps track. -/
theorem Tracks.forwardTo {l : LastMinuteLatencies} {as kept : List Addition} {now t : ℤ}
    (h : Tracks l as kept now) (ht : t ≤ now) (hnow : now < 2 ^ 63) :
    ∃ l', l.forwardTo t = some l' ∧ Tracks l' as (recent t kept) now := by
  obtain ⟨l', heq, hslots, hlast⟩ := forwardTo_slots h.slots h.within h.pos (by omega : t < 2 ^ 63)
  refine ⟨l', heq, hslots, ?_, List.filter_sublist.trans h.sublist, ?_, ?_, ?_⟩
  · rcases hlast with hmax | ⟨-, hnil, -⟩
    · rcases le_total t l.lastSec with hle | hle
      · rw [hmax, max_eq_left hle]
        intro a ha
        exact h.within a (mem_recent.mp ha).1
      · rw [hmax, max_eq_right hle]
        exact h.within.recent hle
    · rw [hnil]
      exact fun a ha => by cases ha
  · rw [recent_recent ht, h.complete]
  · have := h.pos
    omega
  · have := h.last
    omega

/-- An addition goes to the slot of its second. -/
theorem slots_add {totals : Totals} {kept : List Addition} (hslots : Slots totals kept) (a : Addition) :
    Slots (Function.update totals (slotOf a.sec) (Function.update (totals (slotOf a.sec)) (sizeToTag a.size)
      ((totals (slotOf a.sec) (sizeToTag a.size)).add a.dur))) (a :: kept) := by
  intro i j
  unfold slotted
  by_cases hi : slotOf a.sec = i
  · subst hi
    rw [Function.update_self]
    by_cases hj : sizeToTag a.size = j
    · subst hj
      rw [Function.update_self, hslots, List.filter_cons_of_pos (by simp), accOf_cons]
      rfl
    · rw [Function.update_of_ne (Ne.symm hj), hslots, List.filter_cons_of_neg (by simp [hj])]
      rfl
  · rw [Function.update_of_ne (Ne.symm hi), hslots, List.filter_cons_of_neg (by simp [hi])]
    rfl

/-- An addition, at a second that is not before the others. -/
theorem Tracks.add {l : LastMinuteLatencies} {as kept : List Addition} {now : ℤ} (h : Tracks l as kept now)
    (a : Addition) (hordered : ∀ b ∈ as, b.sec ≤ a.sec) (hpos : 0 ≤ a.sec) (ha : a.sec ≤ now) (hnow : now < 2 ^ 63) :
    ∃ l' kept', l.add a.sec a.size a.dur = some l' ∧ Tracks l' (a :: as) kept' now := by
  obtain ⟨l', heq, h'⟩ := h.forwardTo ha hnow
  refine ⟨⟨_, a.sec⟩, a :: recent a.sec kept, ?_, slots_add h'.slots a, ?_, h'.sublist.cons_cons a, ?_, hpos, ha⟩
  · rw [LastMinuteLatencies.add, heq, Option.bind_some, slotIndex_eq hpos]
    rfl
  · intro b hb
    rcases List.mem_cons.mp hb with rfl | hb
    · exact ⟨sub_lt_self _ (by decide), le_refl _⟩
    · exact ⟨(mem_recent.mp hb).2, hordered b (h'.sublist.subset hb)⟩
  · have hcomplete := h'.complete
    unfold recent at hcomplete ⊢
    rw [List.filter_cons, List.filter_cons, hcomplete]

/-- The slots of a merged record hold what both hold. -/
theorem slots_merge {totals totals' : Totals} {kept kept' : List Addition} (hslots : Slots totals kept)
    (hslots' : Slots totals' kept') :
    Slots (fun i j => (totals i j).merge (totals' i j)) (kept ++ kept') := by
  intro i j
  dsimp only
  rw [slotted, List.filter_append, accOf_append, hslots, hslots']
  rfl

/-- Two records of the same last second hold what both hold, slot by slot. -/
theorem Tracks.join {l o : LastMinuteLatencies} {as bs kept kept' : List Addition} {now last : ℤ}
    (hl : Tracks l as kept now) (ho : Tracks o bs kept' now) (hkept : Within last kept)
    (hkept' : Within last kept') (hpos : 0 ≤ last) (hlast : last ≤ now) :
    Tracks ⟨fun i j => (l.totals i j).merge (o.totals i j), last⟩ (as ++ bs) (kept ++ kept') now := by
  refine ⟨slots_merge hl.slots ho.slots, ?_, hl.sublist.append ho.sublist, ?_, hpos, hlast⟩
  · intro a ha
    exact (List.mem_append.mp ha).elim (hkept a) (hkept' a)
  · rw [recent_append, recent_append, hl.complete, ho.complete]

theorem Tracks.merge {l o : LastMinuteLatencies} {as bs kept kept' : List Addition} {now : ℤ}
    (hl : Tracks l as kept now) (ho : Tracks o bs kept' now) (hnow : now < 2 ^ 63) :
    ∃ m kept'', l.merge o = some m ∧ Tracks m (as ++ bs) kept'' now := by
  by_cases hlt : l.lastSec > o.lastSec
  · obtain ⟨o', heq, ho'⟩ := ho.forwardTo hl.last hnow
    refine ⟨_, _, ?_, hl.join ho' hl.within (ho.within.recent hlt.le) hl.pos hl.last⟩
    rw [LastMinuteLatencies.merge, if_pos hlt, heq]
    rfl
  · obtain ⟨l', heq, hl'⟩ := hl.forwardTo ho.last hnow
    refine ⟨_, _, ?_, hl'.join ho (hl.within.recent (not_lt.mp hlt)) ho.within ho.pos ho.last⟩
    rw [LastMinuteLatencies.merge, if_neg hlt, heq]
    rfl

/-- **Every run keeps track** of what was added in the minute before any second that is not before its
calls. -/
theorem Run.tracked (r : Run) (hordered : r.Ordered) {now : ℤ} (hpos : 0 ≤ now) (hnow : now < 2 ^ 63)
    (hcalls : ∀ s ∈ r.seconds, 0 ≤ s ∧ s ≤ now) : ∃ l kept, r.record = some l ∧ Tracks l r.additions kept now := by
  induction r with
  | new => exact ⟨.zero, [], rfl, slots_nil, (fun a ha => by cases ha), List.Sublist.refl _, rfl, le_refl _, hpos⟩
  | add r a ih =>
    obtain ⟨l, kept, heq, h⟩ := ih hordered.1 fun s hs => hcalls s (List.mem_cons_of_mem _ hs)
    obtain ⟨hsec, hle⟩ := hcalls a.sec List.mem_cons_self
    obtain ⟨l', kept', heq', h'⟩ := h.add a hordered.2 hsec hle hnow
    refine ⟨l', kept', ?_, h'⟩
    rw [Run.record, heq]
    exact heq'
  | getAvg r sec ih =>
    obtain ⟨l, kept, heq, h⟩ := ih hordered fun s hs => hcalls s (List.mem_cons_of_mem _ hs)
    obtain ⟨l', heq', h'⟩ := h.forwardTo (hcalls sec List.mem_cons_self).2 hnow
    refine ⟨l', _, ?_, h'⟩
    rw [Run.record, heq, Option.bind_some, LastMinuteLatencies.getAvg, heq']
    rfl
  | merge l o ihl iho =>
    obtain ⟨l₁, kept, heq, h⟩ := ihl hordered.1 fun s hs => hcalls s (List.mem_append_left _ hs)
    obtain ⟨o₁, kept', heq', h'⟩ := iho hordered.2 fun s hs => hcalls s (List.mem_append_right _ hs)
    obtain ⟨m, kept'', hm, h''⟩ := h.merge h' hnow
    refine ⟨m, kept'', ?_, h''⟩
    rw [Run.record, heq, heq']
    exact hm

/-! ## Reading -/

theorem accOf_perm {as bs : List Addition} (h : as.Perm bs) : accOf as = accOf bs := by
  rw [accOf, accOf, (h.map Addition.dur).sum_eq, h.length_eq]

/-- A list, class by class. -/
theorem perm_flatMap_filter {α β : Type} [DecidableEq β] (f : α → β) {classes : List β} (hnodup : classes.Nodup)
    {l : List α} (hl : ∀ a ∈ l, f a ∈ classes) : (classes.flatMap fun i => l.filter fun a => f a = i).Perm l := by
  induction classes generalizing l with
  | nil =>
    cases l with
    | nil => exact List.Perm.refl _
    | cons a l => exact absurd (hl a List.mem_cons_self) List.not_mem_nil
  | cons i classes ih =>
    rw [List.nodup_cons] at hnodup
    have hrest : (classes.flatMap fun i' => l.filter fun a => f a = i').Perm (l.filter fun a => !decide (f a = i)) := by
      refine List.Perm.trans ?_ (ih hnodup.2 (l := l.filter fun a => !decide (f a = i)) fun a ha => ?_)
      · refine List.Perm.of_eq (List.flatMap_congr fun i' hi' => ?_)
        rw [List.filter_filter]
        refine List.filter_congr fun a _ => ?_
        have hne : i' ≠ i := fun heq => hnodup.1 (heq ▸ hi')
        by_cases ha : f a = i'
        · simp [ha, hne]
        · simp [ha]
      · obtain ⟨hmem, hne⟩ := List.mem_filter.mp ha
        exact (List.mem_cons.mp (hl a hmem)).resolve_left (by simpa using hne)
    rw [List.flatMap_cons]
    exact (List.Perm.append_left _ hrest).trans (List.filter_append_perm _ l)

theorem foldl_accOf (slots : List (Fin 60)) (part : Fin 60 → List Addition) (as : List Addition) :
    slots.foldl (fun res i => res.merge (accOf (part i))) (accOf as) = accOf (as ++ slots.flatMap part) := by
  induction slots generalizing as with
  | nil => rw [List.flatMap_nil, List.append_nil, List.foldl_nil]
  | cons i slots ih => rw [List.foldl_cons, ← accOf_append, ih, List.flatMap_cons, List.append_assoc]

/-- Over all slots, the sums are those of the additions of a tag. -/
theorem foldl_slots {totals : Totals} {kept : List Addition} (hslots : Slots totals kept) (j : SizeTag) :
    (List.finRange 60).foldl (fun res i => res.merge (totals i j)) .zero
      = accOf (kept.filter fun a => sizeToTag a.size = j) := by
  have hfold := foldl_accOf (List.finRange 60) (fun i => slotted kept i j) []
  simp only [← hslots _ j] at hfold
  rw [accOf_nil] at hfold
  rw [hfold, List.nil_append]
  refine accOf_perm (List.Perm.trans (List.Perm.of_eq ?_) (perm_flatMap_filter (fun a : Addition => slotOf a.sec)
    (List.nodup_finRange 60) (l := kept.filter fun a => sizeToTag a.size = j) fun a _ => List.mem_finRange _))
  refine List.flatMap_congr fun i _ => ?_
  rw [slotted, List.filter_filter]
  refine List.filter_congr fun a _ => ?_
  rw [Bool.decide_and]

/-- The additions of a tag in the last minute. -/
def lastMinute (t : ℤ) (j : SizeTag) (as : List Addition) : List Addition :=
  as.filter fun a => t - 60 < a.sec ∧ a.sec ≤ t ∧ sizeToTag a.size = j

theorem Run.additions_seconds (r : Run) : ∀ a ∈ r.additions, a.sec ∈ r.seconds := by
  induction r with
  | new => exact fun a ha => by cases ha
  | add r a ih =>
    intro b hb
    rcases List.mem_cons.mp hb with rfl | hb
    · exact List.mem_cons_self
    · exact List.mem_cons_of_mem _ (ih b hb)
  | getAvg r sec ih => exact fun b hb => List.mem_cons_of_mem _ (ih b hb)
  | merge l o ihl iho =>
    intro b hb
    rcases List.mem_append.mp hb with hb | hb
    · exact List.mem_append_left _ (ihl b hb)
    · exact List.mem_append_right _ (iho b hb)

/-- **The window of the last minute is exact**: after any run, whatever was merged and read, reading at a
second that is not before any call gives for each tag the number and the total duration of all additions
of the last minute, as 64-bit numbers. -/
theorem getAvg_exact (r : Run) (hordered : r.Ordered) {t : ℤ} (hpos : 0 ≤ t) (ht : t < 2 ^ 63)
    (hcalls : ∀ s ∈ r.seconds, 0 ≤ s ∧ s ≤ t) :
    ∃ l res l', r.record = some l ∧ l.getAvg t = some (res, l') ∧
      ∀ j, res j = ⟨wrap64 ((lastMinute t j r.additions).map Addition.dur).sum,
        wrap64 (lastMinute t j r.additions).length⟩ := by
  obtain ⟨l, kept, heq, h⟩ := r.tracked hordered hpos ht hcalls
  obtain ⟨l', heq', h'⟩ := h.forwardTo (le_refl t) ht
  refine ⟨l, _, l', heq, by rw [LastMinuteLatencies.getAvg, heq']; rfl, fun j => ?_⟩
  have hkept : recent t kept = recent t r.additions := h.complete
  have hwindow : (recent t kept).filter (fun a => sizeToTag a.size = j) = lastMinute t j r.additions := by
    rw [hkept, recent, List.filter_filter, lastMinute]
    refine List.filter_congr fun a ha => ?_
    have hle := (hcalls a.sec (r.additions_seconds a ha)).2
    simp only [hle, true_and, Bool.decide_and, Bool.and_comm]
  exact (foldl_slots h'.slots j).trans (congrArg accOf hwindow)

/-- Two records, one of them read before they are merged. -/
def sampleRun : Run :=
  .merge (.add (.add .new ⟨10, 0, 5⟩) ⟨100, 0, 7⟩) (.getAvg (.add .new ⟨90, 2000, 3⟩) 95)

theorem getAvg_exact_sample :
    sampleRun.seconds = [100, 10, 95, 90] ∧ ∃ l res l', sampleRun.record = some l ∧
      l.getAvg 120 = some (res, l') ∧ res .lessThan1KiB = ⟨7, 1⟩ ∧ res .lessThan1MiB = ⟨3, 1⟩ := by
  have hordered : sampleRun.Ordered := by
    refine ⟨⟨⟨trivial, fun b hb => by cases hb⟩, fun b hb => ?_⟩, trivial, fun b hb => by cases hb⟩
    rw [List.mem_singleton.mp hb]
    decide
  have hseconds : ∀ s ∈ sampleRun.seconds, 0 ≤ s ∧ s ≤ 120 := by decide
  obtain ⟨l, res, l', hrecord, havg, hres⟩ := getAvg_exact sampleRun hordered (by decide) (by decide) hseconds
  refine ⟨rfl, l, res, l', hrecord, havg, ?_, ?_⟩
  · rw [hres]
    decide +kernel
  · rw [hres]
    decide +kernel

/-- Two durations that sum to `2^63`. -/
def longRun : Run := .add (.add .new ⟨0, 0, 2 ^ 62⟩) ⟨0, 0, 2 ^ 62⟩

/-- An addition a minute before 1970. -/
def earlyRun : Run := .add .new ⟨-60, 0, 1⟩

/-- A total past the 64 bits wraps, and at a second before 1970 reading panics. -/
theorem getAvg_not_exact :
    (((lastMinute 0 .lessThan1KiB longRun.additions).map Addition.dur).sum = 2 ^ 63 ∧
      (longRun.record.bind fun l => l.getAvg 0).map (fun p => (p.1 .lessThan1KiB).total) = some (-2 ^ 63)) ∧
    (earlyRun.record.isSome = true ∧ (earlyRun.record.bind fun l => l.getAvg (-59)).isNone = true) := by
  decide +kernel

end Zs3Server.Cmd.LastMinute
