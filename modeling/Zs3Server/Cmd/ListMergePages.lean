import Zs3Server.Lib.Paging
import Zs3Server.Cmd.ListMerge

/-!
# The pages of a merged listing

The handler of a listing in terms of the merge of the two sets it lists: the maps it builds have the
entries of the merge of the two pages, their sorted keys are its names, and the cut keeps the front of
it.  A client that lists again from the returned marker comes to the end and has then seen every name.

* `get_pageMap`, `sorted_keys` — the map of `limitMergeObjects` and its keys;
* `limitLoop_eq` — the loop over the keys, by induction on them;
* `limitMergeObjects_merged` — the page of the handler is the front of the merge of the two pages;
* `handlerPage_spec` — one answer, from wherever the client is;
* `merged_listing_pages` — all answers of a listing;
* `truncated_exact_iff` — the flag of an answer is right unless the page is exactly full.
-/

namespace Zs3Server.Cmd.ListMergePages

open Lib.ByteString
open Lib.GoMaps
open Lib.SortedMerge
open Lib.Paging
open Cmd.DiskCache
open Cmd.ListMerge

/-! ### The maps of the handler -/

theorem mem_objects {A : List Entry} {o : ListedObject} :
    o ∈ A.filterMap Entry.toObject ↔ .object o ∈ A := by
  rw [List.mem_filterMap]
  constructor
  · rintro ⟨e, he, heo⟩
    cases e with
    | object o' =>
      cases heo
      exact he
    | common pre => cases heo
  · intro h
    exact ⟨.object o, h, rfl⟩

theorem mem_prefixes {A : List Entry} {pre : GoString} :
    pre ∈ A.filterMap Entry.toPrefix ↔ .common pre ∈ A := by
  rw [List.mem_filterMap]
  constructor
  · rintro ⟨e, he, hep⟩
    cases e with
    | object o => cases hep
    | common pre' =>
      cases hep
      exact he
  · intro h
    exact ⟨.common pre, h, rfl⟩

theorem nodup_objects {A : List Entry} (hA : A.Pairwise (·.key < ·.key)) :
    ((A.filterMap Entry.toObject).map ListedObject.name).Nodup := by
  unfold List.Nodup
  rw [List.pairwise_map, List.pairwise_filterMap]
  refine hA.imp ?_
  intro e e' hlt o ho o' ho'
  cases e with
  | common pre => cases ho
  | object o₁ =>
    cases e' with
    | common pre => cases ho'
    | object o₂ =>
      cases ho
      cases ho'
      exact ne_of_lt hlt

/-- The object that a list has under a name. -/
def objectAt (A : List Entry) (n : GoString) : Option ListedObject := (entryAt A n).bind Entry.toObject

theorem objectAt_eq_some {A : List Entry} (hA : A.Pairwise (·.key < ·.key)) {n : GoString}
    {o : ListedObject} : objectAt A n = some o ↔ .object o ∈ A ∧ o.name = n := by
  unfold objectAt
  constructor
  · intro h
    obtain ⟨e, he, heo⟩ := Option.bind_eq_some_iff.mp h
    cases e with
    | common pre => cases heo
    | object o' =>
      cases heo
      exact (entryAt_eq_some hA).mp he
  · intro h
    exact Option.bind_eq_some_iff.mpr ⟨.object o, (entryAt_eq_some hA).mpr h, rfl⟩

theorem find?_objects {A : List Entry} (hA : A.Pairwise (·.key < ·.key)) (n : GoString) :
    ((A.filterMap Entry.toObject).find? fun o => o.name = n) = objectAt A n := by
  ext o
  rw [find?_eq_some_of_nodup (nodup_objects hA), objectAt_eq_some hA, mem_objects]

/-- What an object becomes that meets one of its name in the map. -/
def replaced : Option ListedObject → ListedObject → ListedObject
  | none, obj => obj
  | some existingObj, obj => later existingObj obj

theorem get_addOrUpdate (m : GoMap GoString ListedObject) (obj : ListedObject) (n : GoString) :
    (addOrUpdate m obj).get n = if n = obj.name then some (replaced (m.get n) obj) else m.get n := by
  unfold addOrUpdate
  by_cases hn : n = obj.name
  · subst hn
    rw [if_pos rfl]
    cases hget : m.get obj.name with
    | none => simp [get_put, replaced]
    | some existingObj =>
      by_cases hlt : existingObj.modTime < obj.modTime
      · simp [get_put, replaced, later, hlt]
      · simp [replaced, later, hlt, hget]
  · rw [if_neg hn]
    cases hget : m.get obj.name with
    | none => simp [get_put, hn]
    | some existingObj =>
      by_cases hlt : existingObj.modTime < obj.modTime
      · simp [get_put, hlt, hn]
      · simp [hlt]

theorem isSome_get_addPrefix (m : GoMap GoString Unit) (pre n : GoString) :
    ((addPrefix m pre).get n).isSome ↔ n = id pre ∨ (m.get n).isSome := by
  unfold addPrefix
  by_cases hn : n = pre
  · subst hn
    cases hget : m.get n with
    | none => simp [get_put]
    | some u => simp [hget]
  · cases hget : m.get pre with
    | none => simp [get_put, hn]
    | some u => simp [hn]

/-- The object that the two lists have under a name. -/
def mergedObjectAt (A B : List Entry) (n : GoString) : Option ListedObject :=
  match objectAt B n with
  | none => objectAt A n
  | some o => some (replaced (objectAt A n) o)

theorem get_mergedMap {A B : List Entry} (h : Mergeable A B) (n : GoString) :
    ((B.filterMap Entry.toObject).foldl addOrUpdate
      ((A.filterMap Entry.toObject).foldl addOrUpdate GoMap.empty)).get n = mergedObjectAt A B n := by
  have hfirst : ((A.filterMap Entry.toObject).foldl addOrUpdate GoMap.empty).get n = objectAt A n := by
    rw [get_foldl _ _ get_addOrUpdate (nodup_objects h.left), find?_objects h.left, get_empty]
    cases objectAt A n with
    | none => rfl
    | some o => rfl
  rw [get_foldl _ _ get_addOrUpdate (nodup_objects h.right), find?_objects h.right, hfirst]
  unfold mergedObjectAt
  cases objectAt B n with
  | none => rfl
  | some o => rfl

theorem mergedObjectAt_name {A B : List Entry} (h : Mergeable A B) {n : GoString} {o : ListedObject}
    (ho : mergedObjectAt A B n = some o) : o.name = n := by
  unfold mergedObjectAt at ho
  cases hB : objectAt B n with
  | none =>
    rw [hB] at ho
    exact ((objectAt_eq_some h.left).mp ho).2
  | some o₂ =>
    rw [hB] at ho
    obtain rfl := Option.some.inj ho
    have hname₂ := ((objectAt_eq_some h.right).mp hB).2
    cases hA : objectAt A n with
    | none => exact hname₂
    | some o₁ => exact later_name ((objectAt_eq_some h.left).mp hA).2 hname₂

/-- The common prefixes of the two lists. -/
theorem mem_mergePrefixes (order : IterOrder (GoString × Unit)) (A B : List Entry) (n : GoString) :
    n ∈ mergePrefixes order (A.filterMap Entry.toPrefix) (B.filterMap Entry.toPrefix) ↔
      .common n ∈ A ∨ .common n ∈ B := by
  unfold mergePrefixes
  rw [((order.property _).map Prod.fst).mem_iff, mem_keys, isSome_get_foldl isSome_get_addPrefix,
    isSome_get_foldl isSome_get_addPrefix, get_empty, List.map_id, List.map_id, mem_prefixes,
    mem_prefixes]
  simp only [Option.isSome_none, Bool.false_eq_true, or_false]
  exact or_comm

/-- The map of `limitMergeObjects` for the pages `A` and `B`. -/
def pageMap (order : MapOrders) (A B : List Entry) : GoMap GoString ListedObject :=
  objPrefixMap
    (mergeListObjects order.objects (A.filterMap Entry.toObject) (B.filterMap Entry.toObject))
    (mergePrefixes order.prefixes (A.filterMap Entry.toPrefix) (B.filterMap Entry.toPrefix))

/-- It has the entries of the merge. -/
theorem get_pageMap {A B : List Entry} (h : Mergeable A B) (order : MapOrders) (n : GoString) :
    (pageMap order A B).get n =
      if n ∈ names (A.map Entry.key) (B.map Entry.key) then some (mergedEntry A B n).value else none := by
  have hobjects : ((mergeListObjects order.objects (A.filterMap Entry.toObject)
      (B.filterMap Entry.toObject)).foldl (fun m ob => m.put ob.name ob) GoMap.empty).get n =
      mergedObjectAt A B n := by
    have hname : ∀ k v, ((B.filterMap Entry.toObject).foldl addOrUpdate
        ((A.filterMap Entry.toObject).foldl addOrUpdate GoMap.empty)).get k = some v →
        v.name = k := by
      intro k v hv
      rw [get_mergedMap h] at hv
      exact mergedObjectAt_name h hv
    unfold mergeListObjects
    rw [get_foldl ListedObject.name (fun _ ob => ob)
      (fun m a n => get_put m a.name n a) (nodup_iterValues hname order.objects),
      find?_values hname, get_mergedMap h, get_empty]
    cases mergedObjectAt A B n with
    | none => rfl
    | some o => rfl
  unfold pageMap objPrefixMap
  simp only [get_foldl_put_const, hobjects, mem_mergePrefixes, mem_names, ← entryAt_isSome,
    common_mem_iff h.left, common_mem_iff h.right]
  unfold mergedObjectAt objectAt mergedEntry
  rcases hA : entryAt A n with _ | (o₁ | pre₁)
  · rcases hB : entryAt B n with _ | (o₂ | pre₂)
    · simp
    · simp [Entry.toObject, replaced, Entry.value]
    · have hpre : pre₂ = n := key_of_entryAt hB
      simp [hpre, Entry.value]
  · obtain ⟨hmemA, hkeyA⟩ := (entryAt_eq_some h.left).mp hA
    rcases hB : entryAt B n with _ | (o₂ | pre₂)
    · simp [Entry.toObject, Entry.value]
    · simp [Entry.toObject, replaced, Entry.value]
    · obtain ⟨hmemB, hkeyB⟩ := (entryAt_eq_some h.right).mp hB
      have hkinds := h.kinds _ hmemA _ hmemB (hkeyA.trans hkeyB.symm)
      cases hkinds
  · have hpre : pre₁ = n := key_of_entryAt hA
    rcases entryAt B n with _ | (o₂ | pre₂)
    · simp [hpre, Entry.value]
    · simp [hpre, Entry.value]
    · simp [hpre, Entry.value]

/-- The sorted keys of this map are the names of the merge. -/
theorem sorted_keys {A B : List Entry} (h : Mergeable A B) (order : MapOrders) :
    ((order.keys.val (pageMap order A B).entries).map Prod.fst).mergeSort =
      names (A.map Entry.key) (B.map Entry.key) := by
  refine eq_of_sorted ?_ (names_sorted _ _) ?_
  · have hle : ((order.keys.val (pageMap order A B).entries).map Prod.fst).mergeSort.Pairwise (· ≤ ·) :=
      List.pairwise_mergeSort' _ _
    have hne : ((order.keys.val (pageMap order A B).entries).map Prod.fst).mergeSort.Nodup :=
      (List.mergeSort_perm _ _).nodup_iff.mpr (nodup_iterKeys _ order.keys)
    exact (hle.and hne).imp fun hab => lt_of_le_of_ne hab.1 hab.2
  · intro n
    rw [List.mem_mergeSort, ((order.keys.property _).map Prod.fst).mem_iff, mem_keys, get_pageMap h]
    by_cases hn : n ∈ names (A.map Entry.key) (B.map Entry.key)
    · simp [hn]
    · simp [hn]

/-! ### One page -/

/-- The name behind which the next page starts, if the names fill a page. -/
def pageMarker (c : ℕ) (keys : List GoString) : GoString :=
  if c ≤ keys.length then ((keys.take c).getLast?).getD [] else []

theorem pageMarker_cons {c : ℕ} (key : GoString) (keys : List GoString) :
    pageMarker (c + 2) (key :: keys) = pageMarker (c + 1) keys := by
  unfold pageMarker
  by_cases hc : c + 1 ≤ keys.length
  · have hne : keys.take (c + 1) ≠ [] := by
      intro hnil
      have hlen := congrArg List.length hnil
      simp only [List.length_take, List.length_nil] at hlen
      omega
    rw [if_pos (by simpa using hc), if_pos hc, List.take_succ_cons, List.getLast?_cons_of_ne_nil hne]
  · rw [if_neg (by simpa using hc), if_neg hc]

/-- The marker is found in the page. -/
theorem pageMarker_congr {c : ℕ} {keys keys' : List GoString} (h : keys'.take c = keys.take c) :
    pageMarker c keys' = pageMarker c keys := by
  have hlen := congrArg List.length h
  rw [List.length_take, List.length_take] at hlen
  unfold pageMarker
  rw [h]
  by_cases hc : c ≤ keys.length
  · rw [if_pos hc, if_pos (by omega)]
  · rw [if_neg hc, if_neg (by omega)]

/-- The loop over the keys, for a map that has the entry `f key` for each of them. -/
theorem limitLoop_eq (maxKeys : ℕ) {m : GoMap GoString ListedObject} {f : GoString → Entry}
    (hkey : ∀ n, (f n).key = n) (keys : List GoString)
    (hget : ∀ n ∈ keys, m.get n = some (f n).value)
    (hfile : ∀ n ∈ keys, ∀ o, f n = .object o → o.isDir = false) {i : ℕ} (hi : i < maxKeys) :
    limitLoop m maxKeys i keys =
      (((keys.take (maxKeys - i)).map f).filterMap Entry.toObject,
        ((keys.take (maxKeys - i)).map f).filterMap Entry.toPrefix,
        pageMarker (maxKeys - i) keys) := by
  induction keys generalizing i with
  | nil =>
    have hmarker : pageMarker (maxKeys - i) [] = [] := by
      unfold pageMarker
      rw [if_neg (by simp; omega)]
    rw [hmarker]
    simp [limitLoop]
  | cons key keys ih =>
    have hih := fun hi' => @ih (fun n hn => hget n (List.mem_cons_of_mem _ hn))
      (fun n hn => hfile n (List.mem_cons_of_mem _ hn)) (i + 1) hi'
    -- what follows the first key
    have hrest : (if maxKeys - 1 ≤ i then (([], [], key) : List ListedObject × List GoString × GoString)
        else limitLoop m maxKeys (i + 1) keys) =
        (((keys.take (maxKeys - i - 1)).map f).filterMap Entry.toObject,
          ((keys.take (maxKeys - i - 1)).map f).filterMap Entry.toPrefix,
          pageMarker (maxKeys - i) (key :: keys)) := by
      by_cases hlast : maxKeys - 1 ≤ i
      · have hone : maxKeys - i = 1 := by omega
        rw [if_pos hlast, hone]
        simp [pageMarker]
      · obtain ⟨c, hc⟩ : ∃ c, maxKeys - i = c + 2 := ⟨maxKeys - i - 2, by omega⟩
        rw [if_neg hlast, hih (by omega), hc, pageMarker_cons,
          show maxKeys - (i + 1) = c + 1 by omega, show c + 2 - 1 = c + 1 by omega]
    have hsucc : maxKeys - i = maxKeys - i - 1 + 1 := by omega
    rw [limitLoop, hrest, hget key List.mem_cons_self, Option.getD_some]
    have htake : (key :: keys).take (maxKeys - i) = key :: keys.take (maxKeys - i - 1) := by
      rw [hsucc, List.take_succ_cons]
      rfl
    rw [htake, List.map_cons]
    cases hf : f key with
    | object o =>
      have hdir := hfile key List.mem_cons_self o hf
      simp [Entry.value, Entry.toObject, Entry.toPrefix, hdir, List.filterMap_cons]
    | common pre =>
      have hpre : pre = key := by rw [← hkey key, hf]; rfl
      simp [Entry.value, dirObject, Entry.toObject, Entry.toPrefix, hpre, List.filterMap_cons]

/-- **A page of the handler** is the front of the merge of the pages it was given. -/
theorem limitMergeObjects_merged {A B : List Entry} (h : Mergeable A B) (order : MapOrders)
    {maxKeys : ℕ} (hmax : 1 ≤ maxKeys) :
    limitMergeObjects order.keys
      (mergeListObjects order.objects (A.filterMap Entry.toObject) (B.filterMap Entry.toObject))
      (mergePrefixes order.prefixes (A.filterMap Entry.toPrefix) (B.filterMap Entry.toPrefix))
      maxKeys =
      (((merged A B).take maxKeys).filterMap Entry.toObject,
        ((merged A B).take maxKeys).filterMap Entry.toPrefix,
        pageMarker maxKeys ((merged A B).map Entry.key)) := by
  have hloop := limitLoop_eq maxKeys (m := pageMap order A B) (mergedEntry_key A B)
    (names (A.map Entry.key) (B.map Entry.key))
    (fun n hn => by rw [get_pageMap h, if_pos hn])
    (fun n hn o ho => h.files o (ho ▸ (mergedEntry_latest h hn).1)) (i := 0) (by omega)
  show limitLoop (pageMap order A B) maxKeys 0
    ((order.keys.val (pageMap order A B).entries).map Prod.fst).mergeSort = _
  rw [sorted_keys h, hloop, map_key_merged, Nat.sub_zero, List.map_take]
  rfl

/-! ### All pages -/

/-- The answer of the handler for a marker: both listers are asked for `maxKeys` entries behind it. -/
def handlerPage (backend cache : KeySet) (backendNext cacheNext : GoString → GoString)
    (order : GoString → MapOrders) (maxKeys : ℕ) (marker : GoString) : ListObjectsInfo :=
  listObjectsV1 (order marker) (backend.list (backendNext marker) marker maxKeys)
    (cache.list (cacheNext marker) marker maxKeys) maxKeys

/-- A client asks for the next page while the answer says that it is truncated. -/
def nextPage (p : ListObjectsInfo) : Option GoString := if p.isTruncated then some p.nextMarker else none

/-- The answer shows these entries, at most `maxKeys` of them. -/
def Shows (maxKeys : ℕ) (p : ListObjectsInfo) (page : List Entry) : Prop :=
  p.objects = page.filterMap Entry.toObject ∧ p.prefixes = page.filterMap Entry.toPrefix ∧
    page.length ≤ maxKeys

section Pages

variable {backend cache : KeySet} {backendNext cacheNext : GoString → GoString}
  {order : GoString → MapOrders} {maxKeys : ℕ}

theorem mergeable (hkinds : SameKinds backend.entries cache.entries) :
    Mergeable backend.entries cache.entries where
  left := backend.sorted
  right := cache.sorted
  files := fun o ho => ho.elim (backend.files o) (cache.files o)
  kinds := hkinds

/-- The answer in terms of the merge of the two sets behind the marker. -/
theorem handlerPage_eq (backendNext cacheNext : GoString → GoString) (order : GoString → MapOrders)
    (hkinds : SameKinds backend.entries cache.entries) (hmax : 1 ≤ maxKeys)
    (marker : GoString) :
    let rest := after marker (merged backend.entries cache.entries)
    let next := pageMarker maxKeys (rest.map Entry.key)
    handlerPage backend cache backendNext cacheNext order maxKeys marker =
      if next ≠ [] then
        ⟨true, next, (rest.take maxKeys).filterMap Entry.toObject,
          (rest.take maxKeys).filterMap Entry.toPrefix⟩
      else
        ⟨decide (maxKeys < (after marker backend.entries).length), backendNext marker,
          (rest.take maxKeys).filterMap Entry.toObject,
          (rest.take maxKeys).filterMap Entry.toPrefix⟩ := by
  intro rest next
  have hafter : Mergeable (after marker backend.entries) (after marker cache.entries) :=
    (mergeable hkinds).mono List.filter_sublist List.filter_sublist
  have hpages := hafter.mono (List.take_sublist maxKeys _) (List.take_sublist maxKeys _)
  have hpage : (merged ((after marker backend.entries).take maxKeys)
      ((after marker cache.entries).take maxKeys)).take maxKeys = rest.take maxKeys := by
    rw [take_merged_take hafter, ← after_merged]
  have hmarker : pageMarker maxKeys ((merged ((after marker backend.entries).take maxKeys)
      ((after marker cache.entries).take maxKeys)).map Entry.key) = next := by
    refine pageMarker_congr ?_
    rw [← List.map_take, hpage, List.map_take]
  unfold handlerPage listObjectsV1 KeySet.list
  simp only [limitMergeObjects_merged hpages (order marker) hmax, hpage, hmarker]

theorem length_after_backend_le (backend cache : KeySet) (marker : GoString) :
    (after marker backend.entries).length ≤
      (after marker (merged backend.entries cache.entries)).length := by
  have hsub : ((after marker backend.entries).map Entry.key).Subperm
      ((after marker (merged backend.entries cache.entries)).map Entry.key) := by
    refine List.subperm_of_subset ?_ ?_
    · exact nodup_keys (backend.sorted.sublist List.filter_sublist)
    · intro n hn
      rw [after_merged, map_key_merged, mem_names]
      exact Or.inl hn
  have hlen := hsub.length_le
  rwa [List.length_map, List.length_map] at hlen

/-- **One answer** shows the front of what is left behind the marker, and goes on from the last name it
shows exactly if it has filled a page. -/
theorem handlerPage_page (backendNext cacheNext : GoString → GoString) (order : GoString → MapOrders)
    (hkinds : SameKinds backend.entries cache.entries) (hmax : 1 ≤ maxKeys) (marker : GoString) :
    let rest := after marker (merged backend.entries cache.entries)
    let p := handlerPage backend cache backendNext cacheNext order maxKeys marker
    Shows maxKeys p (rest.take maxKeys) ∧
      (maxKeys ≤ rest.length →
        ∃ e, (rest.take maxKeys).getLast? = some e ∧ nextPage p = some e.key) ∧
      (rest.length < maxKeys → nextPage p = none) := by
  intro rest p
  have heq : p = _ := handlerPage_eq backendNext cacheNext order hkinds hmax marker
  refine ⟨?_, fun hfull => ?_, fun hlt => ?_⟩
  · rw [heq]
    split
    · exact ⟨rfl, rfl, List.length_take_le _ _⟩
    · exact ⟨rfl, rfl, List.length_take_le _ _⟩
  · -- a full page: the marker is the name of its last entry
    have hne : rest.take maxKeys ≠ [] := by
      intro hnil
      have hlen := congrArg List.length hnil
      rw [List.length_take, List.length_nil] at hlen
      omega
    obtain ⟨e, he⟩ : ∃ e, (rest.take maxKeys).getLast? = some e :=
      ⟨_, List.getLast?_eq_some_getLast hne⟩
    have hmarker : pageMarker maxKeys (rest.map Entry.key) = e.key := by
      unfold pageMarker
      rw [List.length_map, if_pos hfull, ← List.map_take, List.getLast?_map, he]
      rfl
    have hkey : e.key ≠ [] := by
      have hmem := (List.mem_filter.mp (List.mem_of_mem_take (List.mem_of_getLast? he))).2
      intro hnil
      rw [hnil, decide_eq_true_iff] at hmem
      exact absurd hmem (List.not_lt_nil _)
    refine ⟨e, he, ?_⟩
    rw [heq, hmarker, if_pos hkey]
    rfl
  · -- the rest: the backend has no more either
    have hmarker : pageMarker maxKeys (rest.map Entry.key) = [] := by
      unfold pageMarker
      rw [List.length_map, if_neg (by omega)]
    have hlen : _ ≤ rest.length := length_after_backend_le backend cache marker
    rw [heq, hmarker, if_neg (by simp), decide_eq_false (by omega)]
    rfl

/-- One answer, from wherever the client is. -/
theorem handlerPage_spec (backendNext cacheNext : GoString → GoString) (order : GoString → MapOrders)
    (hkinds : SameKinds backend.entries cache.entries) (hmax : 1 ≤ maxKeys)
    {marker : GoString} {seen rest : List Entry}
    (hat : Cursor Entry.key (merged backend.entries cache.entries) seen rest marker) :
    ∃ p page left, some (handlerPage backend cache backendNext cacheNext order maxKeys marker) = some p ∧
      page ++ left = rest ∧ Shows maxKeys p page ∧ (nextPage p = none → left = []) ∧
      ∀ m', nextPage p = some m' → page ≠ [] ∧
        Cursor Entry.key (merged backend.entries cache.entries) (seen ++ page) left m' := by
  have hrest : after marker (merged backend.entries cache.entries) = rest :=
    hat.filter_eq fun e => decide_eq_true_iff
  obtain ⟨hshows, hfull, hend⟩ :=
    handlerPage_page backendNext cacheNext order hkinds hmax marker
  rw [hrest] at hshows hfull hend
  refine ⟨_, rest.take maxKeys, rest.drop maxKeys, rfl, List.take_append_drop _ _, hshows, ?_, ?_⟩
  · intro hnone
    by_contra hne
    obtain ⟨e, -, hnext⟩ := hfull (by rw [List.drop_eq_nil_iff] at hne; omega)
    rw [hnone] at hnext
    cases hnext
  · intro m' hm'
    by_cases hle : maxKeys ≤ rest.length
    · obtain ⟨e, he, hnext⟩ := hfull hle
      obtain rfl := Option.some.inj (hnext.symm.trans hm')
      refine ⟨fun hnil => ?_, hat.advance (merged_sorted _ _) (List.take_append_drop _ _) he⟩
      rw [hnil] at he
      cases he
    · rw [hend (by omega)] at hm'
      cases hm'

end Pages

/-- **Merged listings.** Listing again from the returned marker while the answer is truncated ends.  The
answers show every name of the two sets behind the first marker once, at most `maxKeys` in an answer and
in increasing order over all answers, and each object with the later of its modification times. -/
theorem merged_listing_pages (backend cache : KeySet) (backendNext cacheNext : GoString → GoString)
    (order : GoString → MapOrders) (maxKeys : ℕ) (marker : GoString)
    (hkinds : SameKinds backend.entries cache.entries) (hmax : 1 ≤ maxKeys) (n : ℕ)
    (hn : backend.entries.length + cache.entries.length ≤ n) :
    ∃ answers shown,
      collect (fun m => some (handlerPage backend cache backendNext cacheNext order maxKeys m)) nextPage
        (n + 1) marker = some answers ∧
      List.Forall₂ (Shows maxKeys) answers shown ∧
      shown.flatten.Pairwise (·.key < ·.key) ∧
      (∀ name, name ∈ shown.flatten.map Entry.key ↔
        marker < name ∧ (name ∈ backend.entries.map Entry.key ∨ name ∈ cache.entries.map Entry.key)) ∧
      ∀ e ∈ shown.flatten, Latest backend.entries cache.entries e := by
  have hcursor := Cursor.of_sorted (merged_sorted backend.entries cache.entries)
    fun e : Entry => (decide_eq_true_iff : decide (marker < e.key) = true ↔ _)
  have hlen : ((merged backend.entries cache.entries).filter
      fun e => decide (marker < e.key)).length ≤ n := by
    have hnames := length_names_le (backend.entries.map Entry.key) (cache.entries.map Entry.key)
    have hfilter := List.length_filter_le (fun e : Entry => decide (marker < e.key))
      (merged backend.entries cache.entries)
    rw [← map_key_merged, List.length_map, List.length_map, List.length_map] at hnames
    omega
  obtain ⟨answers, shown, hrun, hshows, hflat⟩ :=
    collect_covers
      (fun m seen rest (hat : Cursor Entry.key (merged backend.entries cache.entries) seen rest m) =>
        handlerPage_spec backendNext cacheNext order hkinds
          hmax hat) n marker _ _ hlen hcursor
  refine ⟨answers, shown, hrun, hshows, ?_, ?_, ?_⟩
  · rw [hflat]
    exact (merged_sorted _ _).sublist List.filter_sublist
  · intro name
    rw [hflat]
    show name ∈ (after marker (merged backend.entries cache.entries)).map Entry.key ↔ _
    rw [map_key_after, map_key_merged, List.mem_filter, mem_names, decide_eq_true_iff]
    exact and_comm
  · intro e he
    rw [hflat] at he
    obtain ⟨name, hname, rfl⟩ := List.mem_map.mp (List.mem_of_mem_filter he)
    exact mergedEntry_latest (mergeable hkinds) hname

/-- The backend has an object and a common prefix, the cache a later object of the same name and another
one; two names are asked for at a time. -/
theorem merged_listing_pages_sample :
    ∃ backend cache : KeySet, backend.entries.length = 2 ∧ cache.entries.length = 2 ∧
      ∃ answers shown,
        collect (fun m => some (handlerPage backend cache id id
          (fun _ => ⟨⟨id, List.Perm.refl⟩, ⟨id, List.Perm.refl⟩, ⟨id, List.Perm.refl⟩⟩) 2 m)) nextPage
          5 [] = some answers ∧
        List.Forall₂ (Shows 2) answers shown ∧
        shown.flatten.Pairwise (·.key < ·.key) ∧
        (∀ name, name ∈ shown.flatten.map Entry.key ↔
          [] < name ∧
            (name ∈ backend.entries.map Entry.key ∨ name ∈ cache.entries.map Entry.key)) ∧
        ∀ e ∈ shown.flatten, Latest backend.entries cache.entries e := by
  refine ⟨⟨[.object ⟨lit "a", 1, false, [], 0⟩, .common (lit "c/")], by decide, by simp⟩,
    ⟨[.object ⟨lit "a", 2, false, [], 0⟩, .object ⟨lit "b", 3, false, [], 0⟩], by decide, by simp⟩,
    rfl, rfl, ?_⟩
  refine merged_listing_pages _ _ id id _ 2 [] ?_ (by decide) 4 (by decide)
  intro e he e' he' hkey
  simp only [List.mem_cons, List.not_mem_nil, or_false] at he he'
  rcases he with rfl | rfl
  · rcases he' with rfl | rfl
    · rfl
    · rfl
  · rcases he' with rfl | rfl
    · exact absurd hkey (by decide)
    · exact absurd hkey (by decide)

/-! ### The flag -/

/-- The part of `ListObjectsV2Handler` that makes one listing of the two: as in `ListObjectsV1Handler`,
with the continuation token for the marker. -/
def listObjectsV2 (order : MapOrders) (listObjectsV2Info listObjectsV2InfoCache : ListObjectsInfo)
    (maxKeys : ℕ) : ListObjectsInfo :=
  listObjectsV1 order listObjectsV2Info listObjectsV2InfoCache maxKeys

/-- Some name of the two sets behind the marker is not in the answer. -/
def SomethingLeft (backend cache : KeySet) (marker : GoString) (p : ListObjectsInfo) : Prop :=
  ∃ name, marker < name ∧
    (name ∈ backend.entries.map Entry.key ∨ name ∈ cache.entries.map Entry.key) ∧
    name ∉ p.objects.map ListedObject.name ∧ name ∉ p.prefixes

/-- The names of an answer are those of the entries it shows. -/
theorem Shows.mem_iff {maxKeys : ℕ} {p : ListObjectsInfo} {page : List Entry}
    (h : Shows maxKeys p page) (name : GoString) :
    name ∈ p.objects.map ListedObject.name ∨ name ∈ p.prefixes ↔ name ∈ page.map Entry.key := by
  rw [h.1, h.2.1, mem_prefixes, List.mem_map, List.mem_map]
  constructor
  · rintro (⟨o, ho, rfl⟩ | hpre)
    · exact ⟨.object o, mem_objects.mp ho, rfl⟩
    · exact ⟨.common name, hpre, rfl⟩
  · rintro ⟨e, he, rfl⟩
    cases e with
    | object o => exact Or.inl ⟨o, mem_objects.mpr he, rfl⟩
    | common pre => exact Or.inr he

theorem not_mem_take_iff {rest : List Entry} (hsorted : rest.Pairwise (·.key < ·.key)) (maxKeys : ℕ) :
    (∃ name ∈ rest.map Entry.key, name ∉ (rest.take maxKeys).map Entry.key) ↔
      maxKeys < rest.length := by
  have hsplit : (rest.take maxKeys).map Entry.key ++ (rest.drop maxKeys).map Entry.key =
      rest.map Entry.key := by rw [← List.map_append, List.take_append_drop]
  have hnodup := nodup_keys hsorted
  rw [← hsplit, List.nodup_append] at hnodup
  rw [← hsplit]
  constructor
  · rintro ⟨name, hname, hnot⟩
    have hdrop := (List.mem_append.mp hname).resolve_left hnot
    by_contra hle
    rw [List.drop_eq_nil_of_le (by omega)] at hdrop
    cases hdrop
  · intro hlt
    obtain ⟨e, left, hleft⟩ := List.exists_cons_of_ne_nil fun hnil : rest.drop maxKeys = [] => by
      rw [List.drop_eq_nil_iff] at hnil
      omega
    refine ⟨e.key, List.mem_append_right _ (by rw [hleft]; simp), fun hmem => ?_⟩
    exact hnodup.2.2 e.key hmem e.key (by rw [hleft]; simp) rfl

/-- **The flag of an answer** says whether something is left, unless exactly `maxKeys` names were
left. -/
theorem truncated_exact_iff (backend cache : KeySet) (backendNext cacheNext : GoString)
    (order : MapOrders) (maxKeys : ℕ) (marker : GoString)
    (hkinds : SameKinds backend.entries cache.entries) (hmax : 1 ≤ maxKeys) :
    let p := listObjectsV2 order (backend.list backendNext marker maxKeys)
      (cache.list cacheNext marker maxKeys) maxKeys
    (p.isTruncated = true ↔ SomethingLeft backend cache marker p) ↔
      (after marker (merged backend.entries cache.entries)).length ≠ maxKeys := by
  intro p
  set rest := after marker (merged backend.entries cache.entries) with hrest
  obtain ⟨hshows, hfull, hend⟩ := handlerPage_page (fun _ => backendNext) (fun _ => cacheNext)
    (fun _ => order) hkinds hmax marker
  rw [← hrest] at hshows hfull hend
  have hsorted : rest.Pairwise (·.key < ·.key) := (merged_sorted _ _).sublist List.filter_sublist
  have hflag : p.isTruncated = true ↔ maxKeys ≤ rest.length := by
    constructor
    · intro htrue
      by_contra hlt
      have hnone : nextPage p = none := hend (by omega)
      rw [nextPage, if_pos htrue] at hnone
      cases hnone
    · intro hle
      obtain ⟨e, -, hnext⟩ := hfull hle
      have hsome : nextPage p = some e.key := hnext
      rw [nextPage] at hsome
      split at hsome
      · assumption
      · cases hsome
  have hleft : SomethingLeft backend cache marker p ↔ maxKeys < rest.length := by
    rw [← not_mem_take_iff hsorted maxKeys, SomethingLeft]
    refine exists_congr fun name => ?_
    have hshown : name ∈ p.objects.map ListedObject.name ∨ name ∈ p.prefixes ↔
        name ∈ (rest.take maxKeys).map Entry.key := Shows.mem_iff hshows name
    rw [← hshown, not_or, hrest, map_key_after, map_key_merged, List.mem_filter, mem_names,
      decide_eq_true_iff]
    constructor
    · intro h
      obtain ⟨hlt, hname, hnot⟩ := h
      exact ⟨⟨hname, hlt⟩, hnot⟩
    · intro h
      obtain ⟨⟨hname, hlt⟩, hnot⟩ := h
      exact ⟨hlt, hname, hnot⟩
  rw [hflag, hleft]
  omega

/-- One name, and two asked for. -/
theorem truncated_exact_iff_one :
    let K : KeySet := ⟨[.common (lit "a/")], by decide, by simp⟩
    let empty : KeySet := ⟨[], by simp, by simp⟩
    let p := listObjectsV2 ⟨⟨id, List.Perm.refl⟩, ⟨id, List.Perm.refl⟩, ⟨id, List.Perm.refl⟩⟩
      (K.list [] [] 2) (empty.list [] [] 2) 2
    p.isTruncated = true ↔ SomethingLeft K empty [] p := by
  refine (truncated_exact_iff _ _ [] [] _ 2 [] ?_ (by decide)).mpr (by decide +kernel)
  intro e _ e' he'
  cases he'

/-- **A full page that is the last one** is flagged truncated: one name, and one name asked for. -/
theorem truncated_nothing_left :
    let K : KeySet := ⟨[.common (lit "a/")], by decide, by simp⟩
    let empty : KeySet := ⟨[], by simp, by simp⟩
    let p := listObjectsV2 ⟨⟨id, List.Perm.refl⟩, ⟨id, List.Perm.refl⟩, ⟨id, List.Perm.refl⟩⟩
      (K.list [] [] 1) (empty.list [] [] 1) 1
    p.isTruncated = true ∧ p.prefixes = [lit "a/"] ∧ ¬ SomethingLeft K empty [] p := by
  refine ⟨by decide +kernel, by decide +kernel, ?_⟩
  rintro ⟨name, -, hname, -, hnot⟩
  simp only [List.map_nil, List.not_mem_nil, or_false, List.map_cons, List.mem_singleton] at hname
  exact hnot (by rw [hname]; decide +kernel)

end Zs3Server.Cmd.ListMergePages
