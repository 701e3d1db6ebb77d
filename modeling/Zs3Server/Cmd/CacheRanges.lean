import Zs3Server.Cmd.DiskCache

/-!
# Cached ranges and the cached version

The cache keeps ranges of an object in files of their own, which `cache.json` lists beside the metadata of
the object.  Fills of a range or of the whole object, hit counts and metadata saves all go through
`saveMetadata`, each with its own mix of what is kept and what is replaced.

* `saveMetadata`, `put`, `RangeOp.run` — the code, as far as the ranges go;
* `Forgets`, `forgets_saveMetadata`, `forgets_put` — without the ranges it is the model of `DiskCache`;
* `rangesMatch_save_iff` — one save, by what it is given;
* `rangesMatch_run_iff` — one call;
* `cached_ranges_iff` — in a whole run the listed ranges are of the cached version exactly if no call is
  made with a version that differs from the stored one in a range that the call leaves.
-/

namespace Zs3Server.Cmd.CacheRanges

open Lib.ByteString
open Cmd.DiskCache (Content)

/-! ### The code -/

/-- Offset and length of a range; `Ranges` has `"off-last"` for it. -/
abbrev RangeKey := ℕ × ℕ

def rangeBytes (content : Content) (key : RangeKey) : Content := (content.drop key.1).take key.2

/-- `cache.json`.  The files of the ranges have fresh names, so that each range is given with what its
file holds. -/
structure RangeMeta where
  etag : Option GoString
  ranges : List (RangeKey × Content)
  size : ℕ
  hits : ℕ

/-- The files of one object: `cache.json` and the whole object in the cache directory, and the whole object
in the writeback directory. -/
structure RangeFiles where
  json : Option RangeMeta
  part : Option Content
  wbPart : Option Content

def RangeFiles.empty : RangeFiles := ⟨none, none, none⟩

/-- `saveMetadata` with the `etag` of the metadata.  `rs` says that a range spec is given, `rsFile` is what
`putRange` gives with it. -/
def saveMetadata (f : RangeFiles) (etag : Option GoString) (actualSize : ℕ) (rs : Bool)
    (rsFile : Option (RangeKey × Content)) (incHitsOnly : Bool) : RangeFiles :=
  let m := f.json.getD ⟨none, [], 0, 0⟩
  let ranges :=
    match rsFile with
    | some r => r :: m.ranges.filter (·.1 ≠ r.1)
    | none => m.ranges
  -- the ranges are cleaned up if the whole object is there
  let ranges := if !rs && !incHitsOnly && f.part.isSome then [] else ranges
  { f with
    json := some ⟨if incHitsOnly then m.etag.or etag else etag, ranges, actualSize, m.hits + 1⟩ }

/-- What is put: the whole object, the whole object before its upload, or a range. -/
inductive FillKind where
  | whole
  | writeback
  | range (key : RangeKey)

/-- The `etag` of the metadata that comes with the call; a client's put has none. -/
def FillKind.etag (version : GoString) : FillKind → Option GoString
  | .writeback => none
  | _ => some version

/-- The rest of `put`: `putRange`, or the data file. -/
def fill (f : RangeFiles) (version : GoString) (content : Content) (kind : FillKind)
    (incHitsOnly : Bool) : RangeFiles :=
  match kind with
  | .range key =>
    saveMetadata f (some version) content.length true (some (key, rangeBytes content key)) false
  | .whole =>
    saveMetadata { f with part := some content } (some version) content.length false none incHitsOnly
  | .writeback =>
    saveMetadata { f with wbPart := some content } (some version) content.length false none incHitsOnly

section Runs

variable (content : GoString → Content) (after : ℕ)

/-- `put` of a version of the object, which is named by its ETag and has a content. -/
def put (f : RangeFiles) (version : GoString) (kind : FillKind) (incHitsOnly : Bool) : RangeFiles :=
  match f.json with
  | none =>
    if 1 ≤ after then saveMetadata f (kind.etag version) (content version).length false none false
    else fill f version (content version) kind incHitsOnly
  | some m =>
    if m.hits < after then
      if m.etag.getD [] = (kind.etag version).getD [] then
        saveMetadata f (kind.etag version) (content version).length false none false
      else fill f version (content version) kind true
    else fill f version (content version) kind incHitsOnly

/-- A call, with the version that the backend has at that time. -/
inductive RangeOp where
  | put (version : GoString) (kind : FillKind) (incHitsOnly : Bool)
  | hit (version : GoString) (rs : Bool)
  | save (version : GoString) (finalizeWB : Bool)
  | remove

def RangeOp.run (f : RangeFiles) : RangeOp → RangeFiles
  | .put version kind incHitsOnly => CacheRanges.put content after f version kind incHitsOnly
  | .hit version rs => saveMetadata f (some version) (content version).length rs none true
  | .save version finalizeWB =>
    let f' := saveMetadata f (some version) (content version).length false none false
    if finalizeWB then { f' with part := f'.wbPart.or f'.part, wbPart := none } else f'
  -- a delete, or a fill that failed
  | .remove => { f with json := none, part := none }

/-! ### What is listed -/

def listed (f : RangeFiles) : List (RangeKey × Content) := (f.json.map RangeMeta.ranges).getD []

def etagOf (f : RangeFiles) : Option GoString := f.json.bind RangeMeta.etag

/-- The file of a range holds bytes of the version whose ETag is stored. -/
def RangeMatches (f : RangeFiles) (r : RangeKey × Content) : Prop :=
  ∃ e, etagOf f = some e ∧ r.2 = rangeBytes (content e) r.1

/-- **Every range file that is listed** holds bytes of the version whose ETag is stored. -/
def RangesMatch (f : RangeFiles) : Prop := ∀ r ∈ listed f, RangeMatches content f r

/-- The version has the bytes of the stored one in every listed range with a key of the given kind. -/
def SameBytes (f : RangeFiles) (version : GoString) (keys : RangeKey → Prop) : Prop :=
  ∀ r ∈ listed f, keys r.1 → ∀ e, etagOf f = some e →
    rangeBytes (content e) r.1 = rangeBytes (content version) r.1

/-- **The calls that may be made.**  A range is filled from a version that has the bytes of the stored one
in the other listed ranges.  So it is for a metadata save, and for a writeback put that replaces the
metadata, unless the whole object is in the cache directory.  A writeback put before enough hits meets no
empty ETag beside listed ranges: it would take it for its own, which it has not got yet. -/
def KeepsRanges (f : RangeFiles) : RangeOp → Prop
  | .put version (.range key) _ => SameBytes content f version (· ≠ key)
  | .put version .writeback incHitsOnly =>
    f.part = none →
      if (f.json.map RangeMeta.hits).getD after < after then etagOf f = some [] → listed f = []
      else incHitsOnly = false → SameBytes content f version fun _ => True
  | .save version _ => f.part = none → SameBytes content f version fun _ => True
  | _ => True

/-- `P` holds in every state of a run. -/
def EveryState (P : RangeFiles → Prop) : RangeFiles → List RangeOp → Prop
  | f, [] => P f
  | f, op :: ops => P f ∧ EveryState P (op.run content after f) ops

/-- Every call of a run is made in a state that it may be made in. -/
def EveryCall (G : RangeFiles → RangeOp → Prop) : RangeFiles → List RangeOp → Prop
  | _, [] => True
  | f, op :: ops => G f op ∧ EveryCall G (op.run content after f) ops

end Runs

/-! ### Without the ranges -/

/-- The same files without the list of ranges. -/
def Forgets (f : RangeFiles) (g : DiskCache.ObjectFiles) : Prop :=
  f.json.map (fun m => (m.etag, m.size, m.hits)) =
      g.cacheJson.map (fun m => (m.metadata.etag, m.size, m.hits)) ∧
    f.part = g.part ∧ f.wbPart = g.writeback

/-- `saveMetadata` is that of `DiskCache`, whatever it does to the ranges. -/
theorem forgets_saveMetadata {f : RangeFiles} {g : DiskCache.ObjectFiles} (h : Forgets f g)
    (metadata : DiskCache.Metadata) (actualSize : ℕ) (rs incHitsOnly : Bool)
    (rsFile : Option (RangeKey × Content)) :
    Forgets (saveMetadata f metadata.etag actualSize rs rsFile incHitsOnly)
      (DiskCache.saveMetadata g metadata actualSize incHitsOnly) := by
  obtain ⟨hjson, hpart, hwb⟩ := h
  refine ⟨?_, hpart, hwb⟩
  simp only [saveMetadata, DiskCache.saveMetadata, Option.map_some]
  cases hf : f.json with
  | none =>
    rw [hf] at hjson
    rw [Option.map_eq_none_iff.mp hjson.symm]
    cases incHitsOnly <;> rfl
  | some m =>
    rw [hf] at hjson
    obtain ⟨m', hg, hm⟩ := Option.map_eq_some_iff.mp hjson.symm
    have hetag : m'.metadata.etag = m.etag := congrArg Prod.fst hm
    have hhits : m'.hits = m.hits := congrArg (fun x => x.2.2) hm
    rw [hg]
    cases incHitsOnly <;> simp [hetag, hhits]

/-- A `put` of the whole object that needs no hits is that of `DiskCache`. -/
theorem forgets_put {f : RangeFiles} {g : DiskCache.ObjectFiles} (h : Forgets f g)
    (content : GoString → Content) {version : GoString} {metadata : DiskCache.Metadata}
    (hetag : metadata.etag = some version) :
    Forgets (put content 0 f version .whole false) (DiskCache.put g metadata (content version)) := by
  have hput : put content 0 f version .whole false =
      saveMetadata { f with part := some (content version) } metadata.etag (content version).length false
        none false := by
    rw [hetag]
    unfold put
    cases hjson : f.json <;> simp [hjson, fill]
  have hpart : Forgets { f with part := some (content version) }
      { g with part := some (content version) } := ⟨h.1, rfl, h.2.2⟩
  rw [hput]
  exact forgets_saveMetadata hpart _ _ _ _ _

section Steps

variable {content : GoString → Content} {after : ℕ} {f : RangeFiles}

theorem listed_saveMetadata (f : RangeFiles) (etag : Option GoString) (actualSize : ℕ)
    (rs incHitsOnly : Bool) (rsFile : Option (RangeKey × Content)) :
    listed (saveMetadata f etag actualSize rs rsFile incHitsOnly) =
      if !rs && !incHitsOnly && f.part.isSome then []
      else
        match rsFile with
        | some r => r :: (listed f).filter (·.1 ≠ r.1)
        | none => listed f := by
  unfold listed saveMetadata
  cases f.json <;> rfl

theorem etagOf_saveMetadata (f : RangeFiles) (etag : Option GoString) (actualSize : ℕ)
    (rs incHitsOnly : Bool) (rsFile : Option (RangeKey × Content)) :
    etagOf (saveMetadata f etag actualSize rs rsFile incHitsOnly) =
      if incHitsOnly then (etagOf f).or etag else etag := by
  unfold etagOf saveMetadata
  cases f.json <;> rfl

theorem rangesMatch_of_nil (h : listed f = []) : RangesMatch content f := by
  intro r hr
  rw [h] at hr
  cases hr

theorem sameBytes_of_nil (h : listed f = []) (version : GoString) (keys : RangeKey → Prop) :
    SameBytes content f version keys := by
  intro r hr
  rw [h] at hr
  cases hr

/-- **A new version** is stored beside ranges that stay and ranges of its own. -/
theorem rangesMatch_replace_iff (h : RangesMatch content f) {f' : RangeFiles} {version : GoString}
    (keys : RangeKey → Prop) (new : Option RangeKey) (he : etagOf f' = some version)
    (hl : ∀ r, r ∈ listed f' ↔
      (∃ key, new = some key ∧ r = (key, rangeBytes (content version) key)) ∨ r ∈ listed f ∧ keys r.1) :
    RangesMatch content f' ↔ SameBytes content f version keys := by
  constructor
  · intro h' r hr hkey e hold
    obtain ⟨e₀, he₀, hbytes⟩ := h r hr
    obtain ⟨e', he', hbytes'⟩ := h' r ((hl r).mpr (Or.inr ⟨hr, hkey⟩))
    obtain rfl := Option.some.inj (hold.symm.trans he₀)
    obtain rfl := Option.some.inj (he.symm.trans he')
    exact hbytes.symm.trans hbytes'
  · intro hsame r hr'
    rcases (hl r).mp hr' with ⟨key, -, rfl⟩ | ⟨hr, hkey⟩
    · exact ⟨version, he, rfl⟩
    · obtain ⟨e, hold, hbytes⟩ := h r hr
      exact ⟨version, he, hbytes.trans (hsame r hr hkey e hold)⟩

/-- A save of the metadata: the ranges go if the whole object is there. -/
theorem rangesMatch_save_iff (h : RangesMatch content f) (version : GoString) (actualSize : ℕ) :
    RangesMatch content (saveMetadata f (some version) actualSize false none false) ↔
      (f.part = none → SameBytes content f version fun _ => True) := by
  cases hpart : f.part with
  | some data =>
    refine ⟨fun _ hnone => (by cases hnone), fun _ => rangesMatch_of_nil ?_⟩
    rw [listed_saveMetadata, hpart]
    rfl
  | none =>
    have hl : listed (saveMetadata f (some version) actualSize false none false) = listed f := by
      rw [listed_saveMetadata, hpart]
      rfl
    rw [rangesMatch_replace_iff h (fun _ => True) none
      (etagOf_saveMetadata f _ _ _ _ _) (fun r => by simp [hl])]
    exact ⟨fun hsame _ => hsame, fun hsame => hsame rfl⟩

/-- A count of hits leaves the version and the ranges. -/
theorem rangesMatch_hit (h : RangesMatch content f) (etag : Option GoString) (actualSize : ℕ)
    (rs : Bool) : RangesMatch content (saveMetadata f etag actualSize rs none true) := by
  intro r hr
  rw [listed_saveMetadata, if_neg (by simp)] at hr
  obtain ⟨e, he, hbytes⟩ := h r hr
  exact ⟨e, by rw [etagOf_saveMetadata, he]; rfl, hbytes⟩

/-- The fill of a range. -/
theorem rangesMatch_fillRange_iff (h : RangesMatch content f) (version : GoString) (key : RangeKey)
    (incHitsOnly : Bool) :
    RangesMatch content (fill f version (content version) (.range key) incHitsOnly) ↔
      SameBytes content f version (· ≠ key) := by
  refine rangesMatch_replace_iff h (· ≠ key) (some key) (etagOf_saveMetadata f _ _ _ _ _) fun r => ?_
  rw [fill, listed_saveMetadata]
  simp

/-- The fill with the whole object. -/
theorem rangesMatch_fillWhole (h : RangesMatch content f) (version : GoString) (data : Content)
    (incHitsOnly : Bool) : RangesMatch content (fill f version data .whole incHitsOnly) := by
  have hdata : RangesMatch content { f with part := some data } := h
  cases incHitsOnly with
  | true => exact rangesMatch_hit hdata _ _ _
  | false => exact (rangesMatch_save_iff hdata _ _).mpr fun hnone => by cases hnone

/-- The fill of the writeback directory. -/
theorem rangesMatch_fillWriteback_iff (h : RangesMatch content f) (version : GoString) (data : Content)
    (incHitsOnly : Bool) :
    RangesMatch content (fill f version data .writeback incHitsOnly) ↔
      (f.part = none → incHitsOnly = false → SameBytes content f version fun _ => True) := by
  have hdata : RangesMatch content { f with wbPart := some data } := h
  cases incHitsOnly with
  | true => exact ⟨fun _ _ hfalse => (by cases hfalse), fun _ => rangesMatch_hit hdata _ _ _⟩
  | false =>
    rw [fill, rangesMatch_save_iff hdata]
    exact ⟨fun hsame hnone _ => hsame hnone, fun hsame hnone => hsame hnone rfl⟩

/-- Before enough hits a writeback put of an entry without an ETag of its own saves no ETag. -/
theorem rangesMatch_noEtag_iff (h : RangesMatch content f) (hetag : (etagOf f).getD [] = [])
    (actualSize : ℕ) :
    RangesMatch content (saveMetadata f none actualSize false none false) ↔
      (f.part = none → etagOf f = some [] → listed f = []) := by
  have hnone : etagOf (saveMetadata f none actualSize false none false) = none :=
    etagOf_saveMetadata f _ _ _ _ _
  constructor
  · intro h' hpart _
    rw [List.eq_nil_iff_forall_not_mem]
    intro r hr
    obtain ⟨e, he, -⟩ := h' r (by rw [listed_saveMetadata, hpart]; exact hr)
    rw [hnone] at he
    cases he
  · intro hnil
    apply rangesMatch_of_nil
    rw [listed_saveMetadata]
    cases hpart : f.part with
    | some data => rfl
    | none =>
      show listed f = []
      cases hold : etagOf f with
      | some e =>
        rw [hold] at hetag
        obtain rfl : e = [] := hetag
        exact hnil hpart hold
      | none =>
        rw [List.eq_nil_iff_forall_not_mem]
        intro r hr
        obtain ⟨e, he, -⟩ := h r hr
        rw [hold] at he
        cases he

/-- **One call** keeps the ranges and the version together exactly if it may be made. -/
theorem rangesMatch_run_iff (h : RangesMatch content f) (op : RangeOp) :
    RangesMatch content (op.run content after f) ↔ KeepsRanges content after f op := by
  cases op with
  | hit version rs => exact ⟨fun _ => trivial, fun _ => rangesMatch_hit h _ _ _⟩
  | remove => exact ⟨fun _ => trivial, fun _ => rangesMatch_of_nil rfl⟩
  | save version finalizeWB =>
    rw [KeepsRanges, ← rangesMatch_save_iff h version (content version).length]
    cases finalizeWB <;> rfl
  | put version kind incHitsOnly =>
    simp only [RangeOp.run, put]
    cases hjson : f.json with
    | none =>
      -- nothing is listed, and a save lists nothing
      have hnil : listed f = [] := by rw [listed, hjson]; rfl
      have hsave : ∀ etag n, RangesMatch content (saveMetadata f etag n false none false) := by
        intro etag n
        apply rangesMatch_of_nil
        rw [listed_saveMetadata, hnil]
        split <;> rfl
      cases kind with
      | range key =>
        simp only [KeepsRanges, sameBytes_of_nil hnil, iff_true]
        split
        · exact hsave _ _
        · exact (rangesMatch_fillRange_iff h _ _ _).mpr (sameBytes_of_nil hnil _ _)
      | whole =>
        simp only [KeepsRanges, iff_true]
        split
        · exact hsave _ _
        · exact rangesMatch_fillWhole h _ _ _
      | writeback =>
        simp only [KeepsRanges, hjson, Option.map_none, Option.getD_none, lt_irrefl, if_false,
          sameBytes_of_nil hnil, implies_true, iff_true]
        split
        · exact hsave _ _
        · exact (rangesMatch_fillWriteback_iff h _ _ _).mpr fun _ _ => sameBytes_of_nil hnil _ _
    | some m =>
      have hetag : etagOf f = m.etag := by rw [etagOf, hjson]; rfl
      -- the stored ETag is the one of the call
      have hown : m.etag.getD [] = version → ∀ keys, SameBytes content f version keys := by
        rintro rfl keys r hr _ e he
        rw [← hetag, he]
        rfl
      cases kind with
      | range key =>
        simp only [KeepsRanges]
        split
        · split
          · next heq =>
            refine (rangesMatch_save_iff h version _).trans ?_
            exact ⟨fun _ => hown heq _, fun _ _ => hown heq _⟩
          · exact rangesMatch_fillRange_iff h _ _ _
        · exact rangesMatch_fillRange_iff h _ _ _
      | whole =>
        simp only [KeepsRanges, iff_true]
        split
        · split
          · next heq => exact (rangesMatch_save_iff h version _).mpr fun _ => hown heq _
          · exact rangesMatch_fillWhole h _ _ _
        · exact rangesMatch_fillWhole h _ _ _
      | writeback =>
        simp only [KeepsRanges, hjson, Option.map_some, Option.getD_some]
        split
        · split
          · next heq => exact rangesMatch_noEtag_iff h (by rw [hetag]; exact heq) _
          · next hne =>
            rw [rangesMatch_fillWriteback_iff h]
            refine ⟨fun _ _ hempty => ?_, fun _ _ hfalse => (by cases hfalse)⟩
            rw [← hetag, hempty] at hne
            exact absurd rfl hne
        · exact rangesMatch_fillWriteback_iff h _ _ _

end Steps

/-- **Ranges and versions over a run.**  The listed ranges are of the stored version in every state of a
run exactly if every call may be made where it is made. -/
theorem cached_ranges_iff (content : GoString → Content) (after : ℕ) (ops : List RangeOp) :
    EveryState content after (RangesMatch content) .empty ops ↔
      EveryCall content after (KeepsRanges content after) .empty ops := by
  have hrun : ∀ f, RangesMatch content f → (EveryState content after (RangesMatch content) f ops ↔
      EveryCall content after (KeepsRanges content after) f ops) := by
    induction ops with
    | nil =>
      intro f h
      exact ⟨fun _ => trivial, fun _ => h⟩
    | cons op ops ih =>
      intro f h
      rw [EveryState, EveryCall, ← rangesMatch_run_iff h op]
      constructor
      · rintro ⟨-, hrest⟩
        have hnext : RangesMatch content (op.run content after f) := by
          cases ops with
          | nil => exact hrest
          | cons op' ops => exact hrest.1
        exact ⟨hnext, (ih _ hnext).mp hrest⟩
      · rintro ⟨hnext, hrest⟩
        exact ⟨h, (ih _ hnext).mpr hrest⟩
  exact hrun .empty fun r hr => by cases hr

/-- **A range of a version that is gone.**  The first byte of one version is cached, then the second byte
of the next one; the first range is still listed, beside the ETag of the second version. -/
theorem stale_range_listed :
    let content : GoString → Content := fun e => if e = lit "v1" then [1, 1] else [2, 2]
    let ops : List RangeOp := [.put (lit "v1") (.range (0, 1)) false, .put (lit "v2") (.range (1, 1)) false]
    let f := ops.foldl (RangeOp.run content 0) .empty
    ((0, 1), [1]) ∈ listed f ∧ etagOf f = some (lit "v2") ∧
      rangeBytes (content (lit "v2")) (0, 1) = [2] ∧
      ¬ EveryState content 0 (RangesMatch content) .empty ops := by
  refine ⟨by decide, by decide, by decide, ?_⟩
  rintro ⟨-, -, hlast⟩
  obtain ⟨e, he, hbytes⟩ := hlast ((0, 1), [1]) (by decide)
  obtain rfl : lit "v2" = e := Option.some.inj he
  exact absurd hbytes (by decide)

end Zs3Server.Cmd.CacheRanges
