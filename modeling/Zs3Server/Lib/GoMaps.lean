import Mathlib

/-!
# Go maps

A Go map as a list of entries with different keys.  Iteration visits every entry once, in an order that
the language leaves open.

* `GoMap`, `get`, `put`, `erase` — the map, a lookup, an assignment and a deletion; `get_put` and
  `get_erase` relate them;
* `IterOrder` — an order of iteration, any permutation of the entries;
* `mem_keys` — the keys are those with a value;
* `find?_values` — a search among the values, when they tell their keys;
* `get_foldl`, `isSome_get_foldl` — a lookup after a loop that changes the map at one key for each element
  of a list.

Nothing here depends on a program.
-/

namespace Zs3Server.Lib.GoMaps

variable {κ ν : Type*}

/-- A map, by its entries. -/
structure GoMap (κ ν : Type*) where
  entries : List (κ × ν)
  nodup : (entries.map Prod.fst).Nodup

/-- An order in which the entries of a map are visited. -/
def IterOrder (α : Type*) := { f : List α → List α // ∀ l, (f l).Perm l }

def GoMap.empty : GoMap κ ν := ⟨[], List.nodup_nil⟩

variable [DecidableEq κ]

def GoMap.get (m : GoMap κ ν) (k : κ) : Option ν := (m.entries.find? fun e => e.1 = k).map Prod.snd

/-- The assignment `m[k] = v`. -/
def GoMap.put (m : GoMap κ ν) (k : κ) (v : ν) : GoMap κ ν where
  entries := (k, v) :: m.entries.filter fun e => e.1 ≠ k
  nodup := by
    rw [List.map_cons, List.nodup_cons]
    constructor
    · intro hmem
      obtain ⟨e, he, hek⟩ := List.mem_map.mp hmem
      have hne := (List.mem_filter.mp he).2
      exact (of_decide_eq_true hne) hek
    · exact m.nodup.sublist (List.filter_sublist.map _)

/-- The statement `delete(m, k)`. -/
def GoMap.erase (m : GoMap κ ν) (k : κ) : GoMap κ ν where
  entries := m.entries.filter fun e => e.1 ≠ k
  nodup := m.nodup.sublist (List.filter_sublist.map _)

@[simp] theorem get_empty (k : κ) : (GoMap.empty : GoMap κ ν).get k = none := rfl

theorem get_put (m : GoMap κ ν) (k k' : κ) (v : ν) :
    (m.put k v).get k' = if k' = k then some v else m.get k' := by
  unfold GoMap.get GoMap.put
  by_cases h : k' = k
  · subst h
    simp
  · rw [List.find?_cons_of_neg (by simpa using Ne.symm h), if_neg h, List.find?_filter]
    congr 2
    funext e
    by_cases he : e.1 = k'
    · simp [he, h]
    · simp [he]

theorem get_erase (m : GoMap κ ν) (k k' : κ) :
    (m.erase k).get k' = if k' = k then none else m.get k' := by
  unfold GoMap.get GoMap.erase
  rw [List.find?_filter]
  by_cases h : k' = k
  · subst h
    simp
  · rw [if_neg h]
    congr 2
    funext e
    by_cases he : e.1 = k'
    · simp [he, h]
    · simp [he]

theorem get_eq_some_iff {m : GoMap κ ν} {k : κ} {v : ν} : m.get k = some v ↔ (k, v) ∈ m.entries := by
  unfold GoMap.get
  constructor
  · intro h
    obtain ⟨e, he, rfl⟩ := Option.map_eq_some_iff.mp h
    have hk : e.1 = k := by simpa using List.find?_some he
    rw [← hk]
    exact List.mem_of_find?_eq_some he
  · intro h
    obtain ⟨e, he⟩ := Option.isSome_iff_exists.mp
      (List.find?_isSome.mpr ⟨(k, v), h, by simp⟩ : (m.entries.find? fun e => e.1 = k).isSome)
    have hk : e.1 = k := by simpa using List.find?_some he
    -- the keys are different, so this is the entry
    have heq : e = (k, v) :=
      List.inj_on_of_nodup_map m.nodup (List.mem_of_find?_eq_some he) h hk
    rw [he, heq]
    rfl

/-- The keys are those with a value. -/
theorem mem_keys {m : GoMap κ ν} {k : κ} : k ∈ m.entries.map Prod.fst ↔ (m.get k).isSome := by
  rw [Option.isSome_iff_exists, List.mem_map]
  constructor
  · rintro ⟨e, he, rfl⟩
    exact ⟨e.2, get_eq_some_iff.mpr he⟩
  · rintro ⟨v, hv⟩
    exact ⟨(k, v), get_eq_some_iff.mp hv, rfl⟩

/-- The element of a list with a given key, when the keys are different. -/
theorem find?_eq_some_of_nodup {α : Type*} {key : α → κ} {l : List α} (hl : (l.map key).Nodup) {n : κ}
    {a : α} : (l.find? fun b => key b = n) = some a ↔ a ∈ l ∧ key a = n := by
  constructor
  · intro h
    exact ⟨List.mem_of_find?_eq_some h, of_decide_eq_true (List.find?_some h :)⟩
  · rintro ⟨ha, rfl⟩
    cases hfind : l.find? fun b => key b = key a with
    | none =>
      rw [List.find?_eq_none] at hfind
      exact absurd (decide_eq_true rfl) (hfind a ha)
    | some b =>
      have hb : key b = key a := of_decide_eq_true (List.find?_some hfind :)
      rw [List.inj_on_of_nodup_map hl (List.mem_of_find?_eq_some hfind) ha hb]

omit [DecidableEq κ] in
theorem nodup_iterKeys (m : GoMap κ ν) (order : IterOrder (κ × ν)) :
    ((order.val m.entries).map Prod.fst).Nodup :=
  ((order.property m.entries).map Prod.fst).nodup_iff.mpr m.nodup

section Values

variable {m : GoMap κ ν} {key : ν → κ} (hkey : ∀ k v, m.get k = some v → key v = k)
include hkey

theorem nodup_iterValues (order : IterOrder (κ × ν)) :
    (((order.val m.entries).map Prod.snd).map key).Nodup := by
  have hkeys : ((order.val m.entries).map Prod.snd).map key = (order.val m.entries).map Prod.fst := by
    rw [List.map_map]
    refine List.map_congr_left fun e he => ?_
    have hmem : (e.1, e.2) ∈ m.entries := (order.property m.entries).subset he
    exact hkey e.1 e.2 (get_eq_some_iff.mpr hmem)
  rw [hkeys]
  exact nodup_iterKeys m order

/-- A search among the values is a lookup. -/
theorem find?_values (order : IterOrder (κ × ν)) (n : κ) :
    (((order.val m.entries).map Prod.snd).find? fun v => key v = n) = m.get n := by
  ext v
  rw [find?_eq_some_of_nodup (nodup_iterValues hkey order)]
  constructor
  · rintro ⟨hmem, rfl⟩
    obtain ⟨e, he, rfl⟩ := List.mem_map.mp hmem
    have hget : m.get e.1 = some e.2 := get_eq_some_iff.mpr ((order.property m.entries).subset he)
    rw [hkey e.1 e.2 hget]
    exact hget
  · intro hget
    refine ⟨?_, hkey n v hget⟩
    have hmem := (order.property m.entries).symm.subset (get_eq_some_iff.mp hget)
    exact List.mem_map.mpr ⟨(n, v), hmem, rfl⟩

end Values

/-- **A loop over the elements of a list, each with its own key.** -/
theorem get_foldl {α : Type*} (key : α → κ) (upd : Option ν → α → ν) {step : GoMap κ ν → α → GoMap κ ν}
    (hstep : ∀ m a n, (step m a).get n = if n = key a then some (upd (m.get n) a) else m.get n)
    {l : List α} (hl : (l.map key).Nodup) (m : GoMap κ ν) (n : κ) :
    (l.foldl step m).get n =
      match l.find? fun a => key a = n with
      | none => m.get n
      | some a => some (upd (m.get n) a) := by
  induction l generalizing m with
  | nil => rfl
  | cons a l ih =>
    rw [List.map_cons, List.nodup_cons] at hl
    rw [List.foldl_cons, ih hl.2, hstep]
    by_cases hn : key a = n
    · -- the key does not come again
      have hrest : l.find? (fun b => key b = n) = none := by
        rw [List.find?_eq_none]
        intro b hb hbn
        apply hl.1
        rw [hn, ← of_decide_eq_true hbn]
        exact List.mem_map_of_mem hb
      rw [hrest, List.find?_cons_of_pos (by simpa using hn), if_pos hn.symm]
    · rw [List.find?_cons_of_neg (by simpa using hn), if_neg (Ne.symm hn)]

/-- The keys after a loop that adds a key for each element. -/
theorem isSome_get_foldl {α : Type*} {key : α → κ} {step : GoMap κ ν → α → GoMap κ ν}
    (hstep : ∀ m a n, ((step m a).get n).isSome ↔ n = key a ∨ (m.get n).isSome) (l : List α)
    (m : GoMap κ ν) (n : κ) :
    ((l.foldl step m).get n).isSome ↔ n ∈ l.map key ∨ (m.get n).isSome := by
  induction l generalizing m with
  | nil => simp
  | cons a l ih =>
    rw [List.foldl_cons, ih, hstep, List.map_cons, List.mem_cons]
    tauto

/-- A loop that assigns one value to every key of a list. -/
theorem get_foldl_put_const (v : ν) (l : List κ) (m : GoMap κ ν) (n : κ) :
    (l.foldl (fun m k => m.put k v) m).get n = if n ∈ l then some v else m.get n := by
  induction l generalizing m with
  | nil => simp
  | cons k l ih =>
    rw [List.foldl_cons, ih, get_put]
    by_cases hl : n ∈ l
    · simp [hl]
    · by_cases hk : n = k
      · simp [hk]
      · simp [hl, hk]

end Zs3Server.Lib.GoMaps
