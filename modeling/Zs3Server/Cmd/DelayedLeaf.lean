import Zs3Server.Cmd.ListEntries

/-!
# Delaying the check for leaves

A directory's entries are sorted with the separator at the end of the names of directories; for those that
turn out to be leaves it is removed.  `delayIsLeafCheck` says when this can wait until the entries are sent.

* `between_slash` — what lies between `w` and `w/` goes on with a smaller byte than the separator;
* `before_slash` — in a list that passes the check nothing lies there before `w/`;
* `delayIsLeafCheck_order_safe` — so removing separators from such a list keeps it sorted;
* `delayed_eq_sorted` — it is what sorting again gives.
-/

namespace Zs3Server.Cmd.TreeWalk

open Lib.ByteString Lib.GoPath Lib.GoSort

/-- An entry as it is sent: a leaf without the separator. -/
def sentEntry (leaf : GoString → Bool) (entry : GoString) : GoString :=
  if leaf entry then trimSuffix entry [slash] else entry

theorem trimSuffix_cases (e : GoString) :
    trimSuffix e [slash] = e ∨ ∃ w, e = w ++ [slash] ∧ trimSuffix e [slash] = w := by
  by_cases h : [slash].isSuffixOf e = true
  · obtain ⟨w, hw⟩ := List.isSuffixOf_iff_suffix.mp h
    refine .inr ⟨w, hw.symm, ?_⟩
    rw [trimSuffix, if_pos h, ← hw]
    simp
  · exact .inl (if_neg h)

theorem le_append (w a : GoString) : w ≤ w ++ a := by
  refine not_lt.mp fun hlt => ?_
  induction w with
  | nil => exact List.not_lt_nil _ hlt
  | cons b w ih =>
    rcases List.cons_lt_cons_iff.mp hlt with hbb | ⟨-, hlt⟩
    · exact lt_irrefl b hbb
    · exact ih hlt

theorem sentEntry_le (leaf : GoString → Bool) (e : GoString) : sentEntry leaf e ≤ e := by
  unfold sentEntry
  split
  · obtain heq | ⟨w, hw, heq⟩ := trimSuffix_cases e
    · exact heq.le
    · rw [heq, hw]
      exact le_append w [slash]
  · exact le_refl e

/-- **What lies between `w` and `w/`** starts with `w`, and goes on with a smaller byte. -/
theorem between_slash {w x : GoString} (hlow : w < x) (hhigh : x < w ++ [slash]) :
    ∃ c y, x = w ++ c :: y ∧ c < slash := by
  induction w generalizing x with
  | nil =>
    cases x with
    | nil => exact absurd hlow (lt_irrefl _)
    | cons c y =>
      rcases List.cons_lt_cons_iff.mp hhigh with hc | ⟨-, hy⟩
      · exact ⟨c, y, rfl, hc⟩
      · exact absurd hy (List.not_lt_nil y)
  | cons a w ih =>
    cases x with
    | nil => exact absurd hlow (List.not_lt_nil _)
    | cons b x =>
      rcases List.cons_lt_cons_iff.mp hlow with hab | ⟨hab, hrest⟩
      · rcases List.cons_lt_cons_iff.mp hhigh with hba | ⟨hba, -⟩
        · exact absurd hab (lt_asymm hba)
        · exact absurd hba.symm hab.ne
      · subst hab
        rcases List.cons_lt_cons_iff.mp hhigh with haa | ⟨-, hhigh⟩
        · exact absurd haa (lt_irrefl a)
        · obtain ⟨c, y, heq, hc⟩ := ih hrest hhigh
          exact ⟨c, y, by rw [heq, List.cons_append], hc⟩

/-- The check sees such an entry right before `w/`. -/
theorem slashAfterSmaller_between (w y : GoString) {c : UInt8} (hc : c < slash) :
    slashAfterSmaller (w ++ c :: y) (w ++ [slash]) = true := by
  unfold slashAfterSmaller
  rw [List.zip_append rfl, List.any_append]
  simp [hc]

theorem delayIsLeafCheck_tail {x : GoString} {l : List GoString} (h : delayIsLeafCheck (x :: l) = true) :
    delayIsLeafCheck l = true := by
  cases l with
  | nil => rfl
  | cons y l =>
    rw [delayIsLeafCheck] at h
    split at h
    · cases h
    · split at h
      · cases h
      · exact h

theorem delayIsLeafCheck_adjacent {x y : GoString} {l : List GoString}
    (h : delayIsLeafCheck (x :: y :: l) = true) : slashAfterSmaller x y = false := by
  rw [delayIsLeafCheck] at h
  split at h
  · cases h
  · split at h
    · cases h
    · next hadj => exact Bool.eq_false_iff.mpr hadj

/-- Right before `w/` there is nothing behind `w`. -/
theorem adjacent_slash {x w : GoString} {l : List GoString} (hx : x ≤ w ++ [slash])
    (h : delayIsLeafCheck (x :: (w ++ [slash]) :: l) = true) : x ≤ w ∨ x = w ++ [slash] := by
  by_contra hne
  push Not at hne
  obtain ⟨c, y, rfl, hc⟩ := between_slash hne.1 (lt_of_le_of_ne hx hne.2)
  have hadj := delayIsLeafCheck_adjacent h
  rw [slashAfterSmaller_between w y hc] at hadj
  cases hadj

/-- **Before `w/` there is nothing behind `w`** but itself.  An entry there would be followed by another one
there, and the last of them by `w/`. -/
theorem before_slash {x w : GoString} {l : List GoString} (hsorted : (x :: l).Pairwise (· ≤ ·))
    (h : delayIsLeafCheck (x :: l) = true) (hw : w ++ [slash] ∈ l) : x ≤ w ∨ x = w ++ [slash] := by
  induction l generalizing x with
  | nil => cases hw
  | cons y l ih =>
    rw [List.pairwise_cons] at hsorted
    have hxy := hsorted.1 y List.mem_cons_self
    have hnext : y ≤ w ∨ y = w ++ [slash] := by
      rcases List.mem_cons.mp hw with heq | hin
      · exact .inr heq.symm
      · exact ih hsorted.2 (delayIsLeafCheck_tail h) hin
    rcases hnext with hle | heq
    · exact .inl (hxy.trans hle)
    · subst heq
      exact adjacent_slash hxy h

/-- Removing separators keeps a list that passes the check sorted. -/
theorem delayIsLeafCheck_sorted (leaf : GoString → Bool) {entries : List GoString}
    (hsorted : entries.Pairwise (· ≤ ·)) (h : delayIsLeafCheck entries = true) :
    (entries.map (sentEntry leaf)).Pairwise (· ≤ ·) := by
  induction entries with
  | nil => exact List.Pairwise.nil
  | cons x l ih =>
    rw [List.map_cons, List.pairwise_cons]
    refine ⟨fun z hz => ?_, ih hsorted.of_cons (delayIsLeafCheck_tail h)⟩
    obtain ⟨e, he, rfl⟩ := List.mem_map.mp hz
    have hxe : x ≤ e := (List.pairwise_cons.mp hsorted).1 e he
    have hx := sentEntry_le leaf x
    by_cases hleaf : leaf e = true
    · have hsent : sentEntry leaf e = trimSuffix e [slash] := if_pos hleaf
      rw [hsent]
      obtain heq | ⟨w, rfl, heq⟩ := trimSuffix_cases e
      · rw [heq]
        exact hx.trans hxe
      · -- the separator is removed: `x` is not behind `w`, or it is the same entry
        rcases before_slash hsorted h he with hle | rfl
        · rw [heq]
          exact hx.trans hle
        · exact hsent.le
    · have hsent : sentEntry leaf e = e := if_neg hleaf
      rw [hsent]
      exact hx.trans hxe

/-- A choice of positions is one of entries, if these are different. -/
theorem mapIdx_eq_map_sentEntry {entries : List GoString} (hnodup : entries.Nodup) (choice : ℕ → Bool) :
    (entries.mapIdx fun i e => if choice i then trimSuffix e [slash] else e)
      = entries.map (sentEntry fun e => choice (entries.idxOf e)) := by
  refine List.ext_getElem (by simp) fun i h₁ h₂ => ?_
  rw [List.length_mapIdx] at h₁
  rw [List.getElem_mapIdx, List.getElem_map, sentEntry, hnodup.idxOf_getElem i h₁]

/-- **Delaying the check for leaves is order safe.**  Where it can be delayed, removing the separator from
those entries that are leaves keeps the list sorted, whichever these are; if no entry comes twice, from
any of the positions. -/
theorem delayIsLeafCheck_order_safe {entries : List GoString} (hsorted : entries.Pairwise (· ≤ ·))
    (h : delayIsLeafCheck entries = true) :
    (∀ leaf : GoString → Bool, (entries.map (sentEntry leaf)).Pairwise (· ≤ ·)) ∧
      (entries.Nodup → ∀ choice : ℕ → Bool,
        (entries.mapIdx fun i e => if choice i then trimSuffix e [slash] else e).Pairwise (· ≤ ·)) := by
  refine ⟨fun leaf => delayIsLeafCheck_sorted leaf hsorted h, fun hnodup choice => ?_⟩
  rw [mapIdx_eq_map_sentEntry hnodup choice]
  exact delayIsLeafCheck_sorted _ hsorted h

theorem delayIsLeafCheck_order_safe_three :
    delayIsLeafCheck [lit "a/", lit "ab-", lit "ab0/"] = true ∧
      ([lit "a/", lit "ab-", lit "ab0/"].map (sentEntry fun e => e == lit "ab0/")).Pairwise (· ≤ ·) :=
  ⟨by decide +kernel, (delayIsLeafCheck_order_safe (by decide +kernel) (by decide +kernel)).1 _⟩

/-! ## The listing -/

/-- An entry without the internal suffix. -/
def Plain (e : GoString) : Prop :=
  hasSuffix e globalDirSuffix = false ∧ hasSuffix e globalDirSuffixWithSlash = false

theorem Plain.sent {e : GoString} (h : Plain e) (leaf : GoString → Bool) :
    hasSuffix (sentEntry leaf e) globalDirSuffix = false := by
  unfold sentEntry
  split
  · obtain heq | ⟨w, rfl, heq⟩ := trimSuffix_cases e
    · rw [heq]
      exact h.1
    · rw [heq, ← Bool.not_eq_true, hasSuffix, List.isSuffixOf_iff_suffix]
      intro hw
      have hslash : globalDirSuffixWithSlash <:+ w ++ [slash] := by
        obtain ⟨u, rfl⟩ := hw
        exact ⟨u, by rw [globalDirSuffixWithSlash, List.append_assoc]⟩
      exact absurd (List.isSuffixOf_iff_suffix.mpr hslash) (Bool.eq_false_iff.mp h.2)
  · exact h.1

/-- **A delayed check gives the listing of one that is not**: removing the separators as the entries are sent
is removing them at once and sorting again. -/
theorem delayed_eq_sorted (S : SliceSort GoString) (isLeaf : GoString → Bool) (prefixDir m : GoString)
    {entries : List GoString} (hplain : ∀ e ∈ entries, Plain e)
    (hdelay : (filterListEntries S isLeaf prefixDir entries m).2 = true) :
    ((filterListEntries S isLeaf prefixDir entries m).1.map
        (sentEntry fun e => isLeaf (pathJoin prefixDir e)))
      = S.sort lessTrimmed ((S.sort lessListed (filterMatchingPrefix entries m)).map
        (sentEntry fun e => isLeaf (pathJoin prefixDir e))) := by
  have hsub : ∀ e ∈ S.sort lessListed (filterMatchingPrefix entries m), Plain e := by
    intro e he
    have hmem := (S.perm _ _).mem_iff.mp he
    rw [filterMatchingPrefix_eq] at hmem
    exact hplain e (List.mem_filter.mp hmem).1
  have hsorted : (S.sort lessListed (filterMatchingPrefix entries m)).Pairwise (· ≤ ·) := by
    refine S.sort_pairwise_le fun a ha b hb => ?_
    have ha := hsub a ((S.perm _ _).mem_iff.mpr ha)
    have hb := hsub b ((S.perm _ _).mem_iff.mpr hb)
    simp [lessListed, ha.2, hb.2]
  rw [filterListEntries] at hdelay ⊢
  dsimp only at hdelay ⊢
  split at hdelay
  · next hcheck =>
    rw [if_pos hcheck]
    dsimp only
    refine List.Perm.eq_of_pairwise' (delayIsLeafCheck_sorted _ hsorted hcheck) ?_ (S.perm _ _).symm
    refine S.sort_pairwise_le fun a ha b hb => ?_
    obtain ⟨x, hx, rfl⟩ := List.mem_map.mp ha
    obtain ⟨y, hy, rfl⟩ := List.mem_map.mp hb
    simp [lessTrimmed, (hsub x hx).sent, (hsub y hy).sent]
  · cases hdelay

/-- `a/` is a leaf. -/
theorem delayed_eq_sorted_two :
    (filterListEntries insertionSliceSort (· == lit "a/") [] [lit "b/", lit "a/"] []).1.map
        (sentEntry fun e => pathJoin [] e == lit "a/") = [lit "a", lit "b/"] :=
  (delayed_eq_sorted insertionSliceSort (· == lit "a/") [] [] (by unfold Plain; decide +kernel)
    (by decide +kernel)).trans (by decide +kernel)

end Zs3Server.Cmd.TreeWalk
