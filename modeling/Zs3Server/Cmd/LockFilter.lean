import Zs3Server.Cmd.ObjectLock

/-!
# Hiding object lock metadata

Who may not read the retention or the legal hold of an object gets its metadata without them:
`FilterObjectLockMetadata` deletes the entries from a copy of the map, made at the first deletion.
The readers look under the lower-case key first and the handlers write that one; the filter deletes
the canonical spelling.

* `delKey_spec` — one deletion, on the map itself or on its copy;
* `filterObjectLockMetadata_spec` — what is missing from the result, and that the input stays;
* `filter_hides_iff` — which differences between two maps are hidden.
-/

namespace Zs3Server.Cmd.LockFilter

open Lib.ByteString Lib.GoMaps Cmd.ObjectLock

/-- Maps by their addresses; `next` is the first free one. -/
structure Heap where
  maps : ℕ → Meta
  next : ℕ

def Heap.write (h : Heap) (address : ℕ) (m : Meta) : Heap :=
  { h with maps := Function.update h.maps address m }

/-- The variables of the function: the heap, and `dst` and `copied` of the closure. -/
structure Filter where
  heap : Heap
  dst : ℕ
  copied : Bool

/-- `make` and the loop that copies every entry. -/
def Filter.copy (metadata : ℕ) (f : Filter) : Filter :=
  if f.copied then f
  else
    { heap := { f.heap.write f.heap.next (f.heap.maps metadata) with next := f.heap.next + 1 }
      dst := f.heap.next
      copied := true }

def delKey (metadata : ℕ) (key : GoString) (f : Filter) : Filter :=
  if (f.heap.maps metadata).get key = none then f
  else
    let f := f.copy metadata
    { f with heap := f.heap.write f.dst ((f.heap.maps f.dst).erase key) }

/-- The heap afterwards and the address that is returned. -/
def filterObjectLockMetadata (T : TimeText) (heap : Heap) (metadata : ℕ)
    (filterRetention filterLegalHold : Bool) : Heap × ℕ :=
  let f : Filter := ⟨heap, metadata, false⟩
  let legalHold := getObjectLegalHoldMeta (heap.maps metadata)
  let f :=
    if ¬ legalHold.Valid ∨ filterLegalHold = true then delKey metadata amzObjectLockLegalHold f else f
  let ret := getObjectRetentionMeta T (f.heap.maps metadata)
  let f :=
    if ¬ ret.mode.Valid ∨ filterRetention = true then
      delKey metadata amzObjectLockRetainUntilDate (delKey metadata amzObjectLockMode f)
    else f
  (f.heap, f.dst)

/-- After the deletion of `gone` from a map that held `m`: the map still does, and the result holds
the rest of it. -/
structure Deleted (metadata : ℕ) (m : Meta) (gone : List GoString) (f : Filter) : Prop where
  allocated : metadata < f.heap.next
  input : f.heap.maps metadata = m
  result : ∀ k, (f.heap.maps f.dst).get k = if k ∈ gone then none else m.get k
  fresh : f.copied = true → f.dst ≠ metadata
  shared : f.copied = false → f.dst = metadata

/-- **One deletion.** -/
theorem delKey_spec {metadata : ℕ} {m : Meta} {gone : List GoString} {f : Filter}
    (h : Deleted metadata m gone f) (key : GoString) :
    Deleted metadata m (key :: gone) (delKey metadata key f) := by
  unfold delKey
  rw [h.input]
  by_cases hkey : m.get key = none
  · rw [if_pos hkey]
    refine { h with result := fun k => ?_ }
    rw [h.result]
    by_cases hk : k = key
    · rw [hk]
      simp [hkey]
    · simp [hk]
  · rw [if_neg hkey]
    -- the map is copied at most once
    have hcopy : Deleted metadata m gone (f.copy metadata) ∧ (f.copy metadata).dst ≠ metadata := by
      unfold Filter.copy
      by_cases hc : f.copied = true
      · rw [if_pos hc]
        exact ⟨h, h.fresh hc⟩
      · have hne : f.heap.next ≠ metadata := Nat.ne_of_gt h.allocated
        have hdst := h.shared (Bool.not_eq_true _ ▸ hc)
        rw [if_neg hc]
        refine ⟨⟨Nat.lt_succ_of_lt h.allocated, ?_, ?_, fun _ => hne, by simp⟩, hne⟩
        · simp only [Heap.write, Function.update_of_ne hne.symm, h.input]
        · intro k
          simp only [Heap.write, Function.update_self]
          rw [← h.result k, hdst]
    obtain ⟨hd, hne⟩ := hcopy
    refine ⟨hd.allocated, ?_, ?_, fun _ => hne, hd.shared⟩
    · simp only [Heap.write, Function.update_of_ne hne.symm, hd.input]
    · intro k
      simp only [Heap.write, Function.update_self, get_erase, hd.result]
      by_cases hk : k = key
      · simp [hk]
      · simp [hk]

/-- The keys that are deleted. -/
def removed (T : TimeText) (m : Meta) (filterRetention filterLegalHold : Bool) : List GoString :=
  (if ¬ (getObjectRetentionMeta T m).mode.Valid ∨ filterRetention = true then
      [amzObjectLockRetainUntilDate, amzObjectLockMode] else []) ++
    if ¬ (getObjectLegalHoldMeta m).Valid ∨ filterLegalHold = true then [amzObjectLockLegalHold] else []

/-- **The filter**: its result lacks the keys it deletes, and its input is as before. -/
theorem filterObjectLockMetadata_spec (T : TimeText) (heap : Heap) {metadata : ℕ}
    (halloc : metadata < heap.next) (filterRetention filterLegalHold : Bool) :
    let out := filterObjectLockMetadata T heap metadata filterRetention filterLegalHold
    out.1.maps metadata = heap.maps metadata ∧
      ∀ k, (out.1.maps out.2).get k =
        if k ∈ removed T (heap.maps metadata) filterRetention filterLegalHold then none
        else (heap.maps metadata).get k := by
  have hstart : Deleted metadata (heap.maps metadata) [] ⟨heap, metadata, false⟩ :=
    ⟨halloc, rfl, by simp, by simp, fun _ => rfl⟩
  have hhold : ∀ f, Deleted metadata (heap.maps metadata) [] f →
      Deleted metadata (heap.maps metadata)
        (if ¬ (getObjectLegalHoldMeta (heap.maps metadata)).Valid ∨ filterLegalHold = true then
          [amzObjectLockLegalHold] else [])
        (if ¬ (getObjectLegalHoldMeta (heap.maps metadata)).Valid ∨ filterLegalHold = true then
          delKey metadata amzObjectLockLegalHold f else f) := by
    intro f hf
    split
    · exact delKey_spec hf _
    · exact hf
  have hd := hhold _ hstart
  unfold filterObjectLockMetadata removed
  dsimp only
  rw [hd.input]
  split
  · have hlast := delKey_spec (delKey_spec hd amzObjectLockMode) amzObjectLockRetainUntilDate
    exact ⟨hlast.input, hlast.result⟩
  · exact ⟨hd.input, hd.result⟩

/-- The entries the readers look at, by the key that comes first. -/
def lowerKeys : List GoString :=
  [amzObjectLockModeLower, amzObjectLockRetainUntilDateLower, amzObjectLockLegalHoldLower]

def canonicalKeys : List GoString :=
  [amzObjectLockMode, amzObjectLockRetainUntilDate, amzObjectLockLegalHold]

def lockKeys : List GoString := lowerKeys ++ canonicalKeys

theorem lowerKeys_disjoint {k : GoString} (h : k ∈ lowerKeys) : k ∉ canonicalKeys := by
  have hall : ∀ k ∈ lowerKeys, k ∉ canonicalKeys := by decide +kernel
  exact hall k h

theorem removed_all (T : TimeText) (m : Meta) (k : GoString) :
    k ∈ removed T m true true ↔ k ∈ canonicalKeys := by
  rw [removed, if_pos (.inr rfl), if_pos (.inr rfl)]
  exact (List.Perm.swap _ _ _).mem_iff

/-- **What the filter hides.**  Two maps that differ in lock entries only become the same exactly
when they agree under the lower-case keys; the other entries and the inputs are always kept. -/
theorem filter_hides_iff (T : TimeText) (heap heap' : Heap) (metadata metadata' : ℕ)
    (halloc : metadata < heap.next) (halloc' : metadata' < heap'.next)
    (hdiffer : ∀ k, k ∉ lockKeys → (heap.maps metadata).get k = (heap'.maps metadata').get k) :
    let out := filterObjectLockMetadata T heap metadata true true
    let out' := filterObjectLockMetadata T heap' metadata' true true
    ((∀ k, (out.1.maps out.2).get k = (out'.1.maps out'.2).get k) ∧
      (∀ k, k ∉ lockKeys → (out.1.maps out.2).get k = (heap.maps metadata).get k ∧
        (out'.1.maps out'.2).get k = (heap'.maps metadata').get k) ∧
      out.1.maps metadata = heap.maps metadata ∧ out'.1.maps metadata' = heap'.maps metadata') ↔
      ∀ k ∈ lowerKeys, (heap.maps metadata).get k = (heap'.maps metadata').get k := by
  obtain ⟨hin, hout⟩ := filterObjectLockMetadata_spec T heap halloc true true
  obtain ⟨hin', hout'⟩ := filterObjectLockMetadata_spec T heap' halloc' true true
  simp only [removed_all] at hout hout'
  dsimp only
  have hother : ∀ k, k ∉ lockKeys → k ∉ canonicalKeys := by
    intro k hk hc
    exact hk (List.mem_append_right _ hc)
  constructor
  · intro h k hk
    have hsame := h.1 k
    rwa [hout, hout', if_neg (lowerKeys_disjoint hk), if_neg (lowerKeys_disjoint hk)] at hsame
  · intro h
    refine ⟨fun k => ?_, fun k hk => ?_, hin, hin'⟩
    · rw [hout, hout']
      by_cases hc : k ∈ canonicalKeys
      · rw [if_pos hc, if_pos hc]
      · rw [if_neg hc, if_neg hc]
        by_cases hl : k ∈ lowerKeys
        · exact h k hl
        · exact hdiffer k fun hk => (List.mem_append.mp hk).elim hl hc
    · rw [hout, hout', if_neg (hother k hk), if_neg (hother k hk)]
      exact ⟨rfl, rfl⟩

/-- A heap with one map, of one entry. -/
def oneEntry (key value : GoString) : Heap := ⟨fun _ => GoMap.empty.put key value, 1⟩

theorem get_oneEntry (key value k : GoString) (h : k ≠ key) (metadata : ℕ) :
    ((oneEntry key value).maps metadata).get k = none := by
  rw [oneEntry, get_put, if_neg h, get_empty]

/-- Under the canonical key the legal hold is hidden. -/
theorem filter_hides_canonical :
    let T : TimeText := ⟨fun _ _ => none, fun _ _ => []⟩
    let out := filterObjectLockMetadata T (oneEntry amzObjectLockLegalHold (lit "ON")) 0 true true
    let out' := filterObjectLockMetadata T (oneEntry amzObjectLockLegalHold (lit "OFF")) 0 true true
    ∀ k, (out.1.maps out.2).get k = (out'.1.maps out'.2).get k := by
  have hcanonical : amzObjectLockLegalHold ∈ canonicalKeys := by simp [canonicalKeys]
  refine ((filter_hides_iff ⟨fun _ _ => none, fun _ _ => []⟩ _ _ 0 0 (by decide) (by decide)
    ?_).mpr ?_).1
  · intro k hk
    have hne : k ≠ amzObjectLockLegalHold := fun h => hk (h ▸ List.mem_append_right _ hcanonical)
    rw [get_oneEntry _ _ k hne, get_oneEntry _ _ k hne]
  · intro k hk
    have hne : k ≠ amzObjectLockLegalHold := fun h => lowerKeys_disjoint hk (h ▸ hcanonical)
    rw [get_oneEntry _ _ k hne, get_oneEntry _ _ k hne]

/-- Under the lower-case key it is still read from the result, so two maps stay apart. -/
theorem filter_leaves_lower :
    let T : TimeText := ⟨fun _ _ => none, fun _ _ => []⟩
    let out := filterObjectLockMetadata T (oneEntry amzObjectLockLegalHoldLower (lit "ON")) 0 true true
    let out' := filterObjectLockMetadata T (oneEntry amzObjectLockLegalHoldLower (lit "OFF")) 0 true true
    getObjectLegalHoldMeta (out.1.maps out.2) = .on ∧
      getObjectLegalHoldMeta (out'.1.maps out'.2) = .off := by
  decide +kernel

end Zs3Server.Cmd.LockFilter
