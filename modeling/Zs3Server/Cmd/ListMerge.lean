import Zs3Server.Lib.GoMaps
import Zs3Server.Lib.SortedMerge
import Zs3Server.Cmd.DiskCache

/-!
# Listings of the backend and of the cache, merged

`ListObjectsV1Handler` asks the backend and the cache for one page each, merges the two pages through
maps, sorts the names and cuts the result to `maxKeys` again.  The next marker is the last name it
keeps; whether more pages follow is said by the cut, or else by the backend.

* `mergeListObjects`, `mergePrefixes`, `limitMergeObjects`, `listObjectsV1` — the functions of the source,
  for any order in which their maps are iterated;
* `KeySet`, `KeySet.list` — a fixed set of names, and the page of it that a lister returns;
* `mergedEntry`, `merged` — what the two sets are together;
* `mergedEntry_latest` — of two objects of one name it has the later one;
* `take_merged_take` — the front of the merge of two pages is the front of the merge of the two sets;
* `after_merged` — the merge behind a marker.
-/

namespace Zs3Server.Cmd.ListMerge

open Lib.ByteString
open Lib.GoMaps
open Lib.SortedMerge
open Lib.GoTime
open Cmd.DiskCache

/-! ### The functions of the source -/

/-- The fields of an `ObjectInfo` that a listing shows. -/
structure ListedObject where
  name : GoString
  modTime : GoTime
  isDir : Bool
  etag : GoString
  size : ℤ
deriving DecidableEq

/-- The value `ObjectInfo{IsDir: true}`. -/
def dirObject : ListedObject := ⟨[], zeroTime, true, [], 0⟩

structure ListObjectsInfo where
  isTruncated : Bool
  nextMarker : GoString
  objects : List ListedObject
  prefixes : List GoString

/-- The orders in which the maps of one request are iterated. -/
structure MapOrders where
  objects : IterOrder (GoString × ListedObject)
  prefixes : IterOrder (GoString × Unit)
  keys : IterOrder (GoString × ListedObject)

def addOrUpdate (m : GoMap GoString ListedObject) (obj : ListedObject) : GoMap GoString ListedObject :=
  match m.get obj.name with
  | none => m.put obj.name obj
  | some existingObj => if existingObj.modTime < obj.modTime then m.put obj.name obj else m

def mergeListObjects (order : IterOrder (GoString × ListedObject)) (l1 l2 : List ListedObject) :
    List ListedObject :=
  (order.val (l2.foldl addOrUpdate (l1.foldl addOrUpdate GoMap.empty)).entries).map Prod.snd

def addPrefix (m : GoMap GoString Unit) (pre : GoString) : GoMap GoString Unit :=
  match m.get pre with
  | none => m.put pre ()
  | some _ => m

def mergePrefixes (order : IterOrder (GoString × Unit)) (l1 l2 : List GoString) : List GoString :=
  (order.val (l2.foldl addPrefix (l1.foldl addPrefix GoMap.empty)).entries).map Prod.fst

/-- The map of `limitMergeObjects`: a prefix takes the place of an object of its name. -/
def objPrefixMap (objects : List ListedObject) (prefixes : List GoString) :
    GoMap GoString ListedObject :=
  prefixes.foldl (fun m pre => m.put pre dirObject)
    (objects.foldl (fun m ob => m.put ob.name ob) GoMap.empty)

/-- The loop over the sorted keys from index `i` on: objects, prefixes, and the next marker. -/
def limitLoop (m : GoMap GoString ListedObject) (maxKeys : ℕ) :
    ℕ → List GoString → List ListedObject × List GoString × GoString
  | _, [] => ([], [], [])
  | i, key :: keys =>
    let rest := if maxKeys - 1 ≤ i then ([], [], key) else limitLoop m maxKeys (i + 1) keys
    let obj := (m.get key).getD ⟨[], zeroTime, false, [], 0⟩
    if obj.isDir then (rest.1, key :: rest.2.1, rest.2.2) else (obj :: rest.1, rest.2)

def limitMergeObjects (order : IterOrder (GoString × ListedObject)) (objects : List ListedObject)
    (prefixes : List GoString) (maxKeys : ℕ) : List ListedObject × List GoString × GoString :=
  let m := objPrefixMap objects prefixes
  limitLoop m maxKeys 0 ((order.val m.entries).map Prod.fst).mergeSort

/-- The part of `ListObjectsV1Handler` that makes one listing of the two. -/
def listObjectsV1 (order : MapOrders) (listObjectsInfo listObjectsInfoCache : ListObjectsInfo)
    (maxKeys : ℕ) : ListObjectsInfo :=
  let mergeObjects := mergeListObjects order.objects listObjectsInfo.objects listObjectsInfoCache.objects
  let mergePres := mergePrefixes order.prefixes listObjectsInfo.prefixes listObjectsInfoCache.prefixes
  let limited := limitMergeObjects order.keys mergeObjects mergePres maxKeys
  if limited.2.2 ≠ [] then ⟨true, limited.2.2, limited.1, limited.2.1⟩
  else ⟨listObjectsInfo.isTruncated, listObjectsInfo.nextMarker, limited.1, limited.2.1⟩

/-! ### Sets of names -/

/-- A name of a listing: an object, or a common prefix. -/
inductive Entry where
  | object (o : ListedObject)
  | common (pre : GoString)
deriving DecidableEq

def Entry.key : Entry → GoString
  | .object o => o.name
  | .common pre => pre

def Entry.toObject : Entry → Option ListedObject
  | .object o => some o
  | .common _ => none

def Entry.toPrefix : Entry → Option GoString
  | .object _ => none
  | .common pre => some pre

/-- What the map of `limitMergeObjects` has for an entry. -/
def Entry.value : Entry → ListedObject
  | .object o => o
  | .common _ => dirObject

/-- A set of names in increasing order; an object is not a directory. -/
structure KeySet where
  entries : List Entry
  sorted : entries.Pairwise (·.key < ·.key)
  files : ∀ o, .object o ∈ entries → o.isDir = false

/-- The entries after the marker. -/
def after (marker : GoString) (l : List Entry) : List Entry :=
  l.filter fun e => decide (marker < e.key)

/-- The page of a lister: the first `maxKeys` entries after the marker.  What it says as its next marker
is open. -/
def KeySet.list (K : KeySet) (nextMarker marker : GoString) (maxKeys : ℕ) : ListObjectsInfo where
  isTruncated := decide (maxKeys < (after marker K.entries).length)
  nextMarker := nextMarker
  objects := ((after marker K.entries).take maxKeys).filterMap Entry.toObject
  prefixes := ((after marker K.entries).take maxKeys).filterMap Entry.toPrefix

/-- No name is an object of one set and a common prefix of the other. -/
def SameKinds (A B : List Entry) : Prop :=
  ∀ e ∈ A, ∀ e' ∈ B, e.key = e'.key → e.toPrefix = e'.toPrefix

/-- Two sorted lists of entries that can be merged. -/
structure Mergeable (A B : List Entry) : Prop where
  left : A.Pairwise (·.key < ·.key)
  right : B.Pairwise (·.key < ·.key)
  files : ∀ o, .object o ∈ A ∨ .object o ∈ B → o.isDir = false
  kinds : SameKinds A B

theorem Mergeable.mono {A B A' B' : List Entry} (h : Mergeable A B) (hA : A'.Sublist A)
    (hB : B'.Sublist B) : Mergeable A' B' where
  left := h.left.sublist hA
  right := h.right.sublist hB
  files := fun o ho => h.files o (ho.imp (hA.subset ·) (hB.subset ·))
  kinds := fun e he e' he' => h.kinds e (hA.subset he) e' (hB.subset he')

theorem nodup_keys {A : List Entry} (h : A.Pairwise (·.key < ·.key)) : (A.map Entry.key).Nodup := by
  unfold List.Nodup
  rw [List.pairwise_map]
  exact h.imp ne_of_lt

/-! ### The merge of two sets -/

/-- The entry of a list under a name. -/
def entryAt (A : List Entry) (n : GoString) : Option Entry := A.find? fun e => e.key = n

/-- The one of two objects that was modified later, the first one if they are equal. -/
def later (o₁ o₂ : ListedObject) : ListedObject := if o₁.modTime < o₂.modTime then o₂ else o₁

/-- What a name of the two lists is: of two objects, the later one. -/
def mergedEntry (A B : List Entry) (n : GoString) : Entry :=
  match entryAt A n, entryAt B n with
  | some (.object o₁), some (.object o₂) => .object (later o₁ o₂)
  | some e, _ => e
  | none, some e => e
  | none, none => .common n

/-- The two lists together, in increasing order. -/
def merged (A B : List Entry) : List Entry :=
  (names (A.map Entry.key) (B.map Entry.key)).map (mergedEntry A B)

theorem entryAt_eq_some {A : List Entry} (hA : A.Pairwise (·.key < ·.key)) {n : GoString} {e : Entry} :
    entryAt A n = some e ↔ e ∈ A ∧ e.key = n :=
  find?_eq_some_of_nodup (nodup_keys hA)

theorem entryAt_eq_none {A : List Entry} {n : GoString} :
    entryAt A n = none ↔ n ∉ A.map Entry.key := by
  unfold entryAt
  simp [List.find?_eq_none]

theorem entryAt_isSome {A : List Entry} {n : GoString} :
    (entryAt A n).isSome ↔ n ∈ A.map Entry.key := by
  rw [← not_iff_not, Bool.not_eq_true, Option.isSome_eq_false_iff, Option.isNone_iff_eq_none,
    entryAt_eq_none]

theorem common_mem_iff {A : List Entry} (hA : A.Pairwise (·.key < ·.key)) {n : GoString} :
    .common n ∈ A ↔ entryAt A n = some (.common n) := by
  rw [entryAt_eq_some hA]
  exact ⟨fun h => ⟨h, rfl⟩, And.left⟩

theorem key_of_entryAt {A : List Entry} {n : GoString} {e : Entry} (h : entryAt A n = some e) :
    e.key = n := of_decide_eq_true (List.find?_some h :)

theorem later_name {o₁ o₂ : ListedObject} {n : GoString} (h₁ : o₁.name = n) (h₂ : o₂.name = n) :
    (later o₁ o₂).name = n := by
  unfold later
  split
  · exact h₂
  · exact h₁

theorem mergedEntry_key (A B : List Entry) (n : GoString) : (mergedEntry A B n).key = n := by
  unfold mergedEntry
  rcases hA : entryAt A n with _ | (o₁ | pre₁)
  · rcases hB : entryAt B n with _ | e
    · rfl
    · exact key_of_entryAt hB
  · rcases hB : entryAt B n with _ | (o₂ | pre₂)
    · exact key_of_entryAt hA
    · exact later_name (key_of_entryAt hA) (key_of_entryAt hB)
    · exact key_of_entryAt hA
  · rcases entryAt B n with _ | (o₂ | pre₂)
    · exact key_of_entryAt hA
    · exact key_of_entryAt hA
    · exact key_of_entryAt hA

/-- An entry of one of the lists; of the objects of its name, the one that was modified last. -/
def Latest (A B : List Entry) (e : Entry) : Prop :=
  (e ∈ A ∨ e ∈ B) ∧ ∀ o, e = .object o → ∀ o', .object o' ∈ A ∨ .object o' ∈ B → o'.name = o.name →
    o'.modTime ≤ o.modTime

theorem later_eq (o₁ o₂ : ListedObject) : later o₁ o₂ = o₁ ∨ later o₁ o₂ = o₂ := by
  unfold later
  split
  · exact Or.inr rfl
  · exact Or.inl rfl

theorem le_later (o₁ o₂ : ListedObject) :
    o₁.modTime ≤ (later o₁ o₂).modTime ∧ o₂.modTime ≤ (later o₁ o₂).modTime := by
  unfold later
  split
  · next hlt => exact ⟨le_of_lt hlt, le_refl _⟩
  · next hge => exact ⟨le_refl _, not_lt.mp hge⟩

/-- An object of a list is what the list has under its name. -/
theorem modTime_le_of_entryAt {L : List Entry} (hL : L.Pairwise (·.key < ·.key)) {n : GoString}
    {o' : ListedObject} (ho' : .object o' ∈ L) (hname : o'.name = n) {t : GoTime}
    (hle : ∀ o, entryAt L n = some (.object o) → o.modTime ≤ t) : o'.modTime ≤ t :=
  hle o' ((entryAt_eq_some hL).mpr ⟨ho', hname⟩)

theorem mergedEntry_latest {A B : List Entry} (h : Mergeable A B) {n : GoString}
    (hn : n ∈ names (A.map Entry.key) (B.map Entry.key)) : Latest A B (mergedEntry A B n) := by
  rw [mem_names, ← entryAt_isSome, ← entryAt_isSome] at hn
  -- it suffices to compare with what the two lists have under the name
  have hlatest : ∀ e : Entry, e.key = n → (e ∈ A ∨ e ∈ B) →
      (∀ o, e = .object o → ∀ o', entryAt A n = some (.object o') ∨ entryAt B n = some (.object o') →
        o'.modTime ≤ o.modTime) → Latest A B e := by
    intro e hkey hmem hle
    refine ⟨hmem, ?_⟩
    rintro o rfl o' ho' hname
    have hname' : o'.name = n := hname.trans hkey
    rcases ho' with ho' | ho'
    · exact modTime_le_of_entryAt h.left ho' hname' fun o'' h'' => hle o rfl o'' (Or.inl h'')
    · exact modTime_le_of_entryAt h.right ho' hname' fun o'' h'' => hle o rfl o'' (Or.inr h'')
  have hfound : ∀ {L : List Entry} {e : Entry}, entryAt L n = some e → e ∈ L := fun he =>
    List.mem_of_find?_eq_some he
  refine hlatest _ (mergedEntry_key A B n) ?_ ?_
  · unfold mergedEntry
    rcases hA : entryAt A n with _ | (o₁ | pre₁)
    · rcases hB : entryAt B n with _ | e
      · simp [hA, hB] at hn
      · exact Or.inr (hfound hB)
    · rcases hB : entryAt B n with _ | (o₂ | pre₂)
      · exact Or.inl (hfound hA)
      · show Entry.object (later o₁ o₂) ∈ A ∨ Entry.object (later o₁ o₂) ∈ B
        rcases later_eq o₁ o₂ with heq | heq
        · rw [heq]
          exact Or.inl (hfound hA)
        · rw [heq]
          exact Or.inr (hfound hB)
      · exact Or.inl (hfound hA)
    · rcases entryAt B n with _ | (o₂ | pre₂)
      · exact Or.inl (hfound hA)
      · exact Or.inl (hfound hA)
      · exact Or.inl (hfound hA)
  · unfold mergedEntry
    rcases entryAt A n with _ | (o₁ | pre₁)
    · rcases entryAt B n with _ | (o₂ | pre₂)
      · simp
      · rintro o ⟨⟩ o' (ho' | ho')
        · cases ho'
        · cases ho'
          exact le_refl _
      · simp
    · rcases entryAt B n with _ | (o₂ | pre₂)
      · rintro o ⟨⟩ o' (ho' | ho')
        · cases ho'
          exact le_refl _
        · cases ho'
      · rintro o ho o' ho'
        obtain rfl := Entry.object.inj ho
        rcases ho' with ho' | ho'
        · cases ho'
          exact (le_later _ _).1
        · cases ho'
          exact (le_later _ _).2
      · rintro o ⟨⟩ o' (ho' | ho')
        · cases ho'
          exact le_refl _
        · cases ho'
    · rcases entryAt B n with _ | (o₂ | pre₂)
      · simp
      · simp
      · simp

theorem map_key_merged (A B : List Entry) :
    (merged A B).map Entry.key = names (A.map Entry.key) (B.map Entry.key) := by
  unfold merged
  rw [List.map_map]
  conv_rhs => rw [← List.map_id (names _ _)]
  exact List.map_congr_left fun n _ => mergedEntry_key A B n

theorem merged_sorted (A B : List Entry) : (merged A B).Pairwise (·.key < ·.key) := by
  have hsorted := names_sorted (A.map Entry.key) (B.map Entry.key)
  rw [← map_key_merged, List.pairwise_map] at hsorted
  exact hsorted

theorem mergedEntry_congr {A B A' B' : List Entry} {n : GoString} (hA : entryAt A' n = entryAt A n)
    (hB : entryAt B' n = entryAt B n) : mergedEntry A' B' n = mergedEntry A B n := by
  unfold mergedEntry
  rw [hA, hB]

/-- A name that the front of a list has is the same entry in the list. -/
theorem entryAt_take {A : List Entry} {k : ℕ} {n : GoString}
    (h : n ∈ A.map Entry.key → n ∈ (A.take k).map Entry.key) :
    entryAt (A.take k) n = entryAt A n := by
  have happend : entryAt A n = (entryAt (A.take k) n).or (entryAt (A.drop k) n) := by
    unfold entryAt
    rw [← List.find?_append, List.take_append_drop]
  cases hfront : entryAt (A.take k) n with
  | some e => rw [happend, hfront, Option.some_or]
  | none =>
    have hnot : n ∉ A.map Entry.key := fun hn => entryAt_eq_none.mp hfront (h hn)
    exact (entryAt_eq_none.mpr hnot).symm

/-- **Two pages are enough.** The first `k` entries of the merge come from the first `k` of each list. -/
theorem take_merged_take {A B : List Entry} (h : Mergeable A B) (k : ℕ) :
    (merged (A.take k) (B.take k)).take k = (merged A B).take k := by
  have hA : (A.map Entry.key).Pairwise (· < ·) := List.pairwise_map.mpr h.left
  have hB : (B.map Entry.key).Pairwise (· < ·) := List.pairwise_map.mpr h.right
  have hsorted := names_sorted (A.map Entry.key) (B.map Entry.key)
  have hnames : (names ((A.take k).map Entry.key) ((B.take k).map Entry.key)).take k =
      (names (A.map Entry.key) (B.map Entry.key)).take k := by
    rw [List.map_take, List.map_take, take_names_take hA hB]
  unfold merged
  rw [← List.map_take, ← List.map_take, hnames]
  refine List.map_congr_left fun n hn => mergedEntry_congr (entryAt_take ?_) (entryAt_take ?_)
  · intro hnA
    rw [List.map_take]
    exact mem_take_of_mem_take hA hsorted (fun x hx => mem_names.mpr (Or.inl hx)) hn hnA
  · intro hnB
    rw [List.map_take]
    exact mem_take_of_mem_take hB hsorted (fun x hx => mem_names.mpr (Or.inr hx)) hn hnB

theorem map_key_after (marker : GoString) (A : List Entry) :
    (after marker A).map Entry.key = (A.map Entry.key).filter fun n => decide (marker < n) := by
  unfold after
  rw [List.filter_map]
  rfl

theorem entryAt_after {marker n : GoString} (A : List Entry) (hn : marker < n) :
    entryAt (after marker A) n = entryAt A n := by
  unfold entryAt after
  rw [List.find?_filter]
  congr 1
  funext e
  by_cases he : e.key = n
  · simp [he, hn]
  · simp [he]

/-- The merge after a marker. -/
theorem after_merged (marker : GoString) (A B : List Entry) :
    after marker (merged A B) = merged (after marker A) (after marker B) := by
  have hkey : ((fun e : Entry => decide (marker < e.key)) ∘ mergedEntry A B) =
      fun n => decide (marker < n) := by
    funext n
    simp only [Function.comp_apply, mergedEntry_key]
  unfold merged
  rw [map_key_after, map_key_after, ← filter_names]
  unfold after
  rw [List.filter_map, hkey]
  refine List.map_congr_left fun n hn => ?_
  have hlt : marker < n := of_decide_eq_true (List.mem_filter.mp hn).2
  exact (mergedEntry_congr (entryAt_after A hlt) (entryAt_after B hlt)).symm

end Zs3Server.Cmd.ListMerge
