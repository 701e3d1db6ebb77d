import Zs3Server.Gateway.ListPrefix
import Zs3Server.Lib.GoUtf8

/-!
# The names of objects and their paths

A name is turned into a path by `filepath.Join`, which cleans it, and a path is turned into a name by
`getRelativePathOfObj`.  A valid name has no element that cleaning changes.

* `hasBadPathComponent`, `isValidObjectName`, `getObjectInfo`, `deleteObject` — the code;
* `validNames_of_isValidObjectName` — the elements of a valid name are names of files;
* `listObjects_found` — what `ListObjects` returns are files of the bucket;
* `objectName_round_trip` — a name survives the way to the path and back, and so does a listed one.
-/

namespace Zs3Server.Gateway.ObjectName

open Lib.ByteString
open Lib.GoPath
open Lib.GoUtf8
open Lib.BinaryHeap (Heap)
open Gateway.ListRefs
open Gateway.ListObjects

/-! ### The code -/

def hasBadPathComponent (path : GoString) : Bool :=
  (split (trimSpace path)).any fun p => trimSpace p = lit ".." || trimSpace p = lit "."

def isValidObjectPrefix (object : GoString) : Bool :=
  !hasBadPathComponent object && validString object && !contains object (lit "//")

def isValidObjectName (object : GoString) : Bool :=
  !object.isEmpty && !(List.isSuffixOf [slash] object) && isValidObjectPrefix object

/-- The fields of `minio.ObjectInfo` that are not copied from the ref. -/
structure ObjectInfo where
  bucket : GoString
  name : GoString
  isDir : Bool
  deriving DecidableEq

inductive InfoError where
  | objectNotFound (bucket object : GoString)
  | ref (err : RefError)
  deriving DecidableEq

def getObjectInfo (getRefs : GetRefs RefError) (bucket object : GoString) :
    Except InfoError ObjectInfo :=
  match getSingleRegularRef getRefs (clean (remotePath bucket object)) with
  | .error err =>
    if isPathNoExistError err then .error (.objectNotFound bucket object) else .error (.ref err)
  | .ok ref =>
    if ref.type = .dir ∧ object ≠ [] ∧ object.getLast? ≠ some slash then
      .error (.objectNotFound bucket object)
    else .ok ⟨bucket, getRelativePathOfObj ref.path bucket, ref.type == .dir⟩

/-- The text of an error. -/
def errorText : RefError → GoString
  | .zerror code msg => code ++ lit ": " ++ msg
  | .other msg => msg

def remotePathNotExistError (err : RefError) : Bool := contains (errorText err) (lit "does not exist")

/-- `DeleteObject`: the paths that are deleted, and the answer if `DoMultiOperation` of them answers
`done`. -/
def deleteObject (getRefs : GetRefs RefError) (done : Except RefError Unit)
    (bucket object : GoString) : List GoString × Except RefError ObjectInfo :=
  match getSingleRegularRef getRefs (remotePath bucket object) with
  | .error err => ([], if remotePathNotExistError err then .ok ⟨[], [], false⟩ else .error err)
  | .ok ref =>
    ([remotePath bucket object], done.map fun _ => ⟨bucket, ref.name, ref.type == .dir⟩)

/-! ### The elements of a valid name -/

/-- An element without a byte of a space is an element of the trimmed path. -/
theorem mem_split_trimSpace {s c : GoString} (hc : c ∈ split s)
    (hbytes : ∀ b ∈ c, ∀ rune ∈ spaceRunes, b ∉ rune) : c ∈ split (trimSpace s) := by
  obtain ⟨lead, tail, hs, hlead, htail⟩ := trimSpace_spec s
  have hslash : ∀ rune ∈ spaceRunes, slash ∉ rune := by decide
  have hno : ∀ {q : GoString}, (∀ b ∈ q, ∃ rune ∈ spaceRunes, b ∈ rune) → slash ∉ q := by
    intro q hq hmem
    obtain ⟨rune, hrune, hb⟩ := hq slash hmem
    exact hslash rune hrune hb
  -- what was trimmed and belongs to the element is empty
  have hnil : ∀ {q : GoString}, (∀ b ∈ q, ∃ rune ∈ spaceRunes, b ∈ rune) → (∀ b ∈ q, b ∈ c) →
      q = [] := by
    intro q hq hsub
    refine List.eq_nil_iff_forall_not_mem.mpr fun b hb => ?_
    obtain ⟨rune, hrune, hmem⟩ := hq b hb
    exact hbytes b (hsub b hb) rune hrune hmem
  obtain ⟨ds, d, hds⟩ := List.eq_nil_or_concat (split (trimSpace s)) |>.resolve_left (split_ne_nil _)
  have hright := split_append_right (hno htail) (hds.trans List.concat_eq_append)
  obtain ⟨e, es, hes⟩ := List.exists_cons_of_ne_nil (split_ne_nil (trimSpace s ++ tail))
  rw [hs, split_append_left (hno hlead) hes] at hc
  have hc' : c ∈ split (trimSpace s ++ tail) := by
    rw [hes]
    rcases List.mem_cons.mp hc with h | h
    · rw [h, hnil hlead fun b hb => h ▸ List.mem_append_left e hb]
      exact List.mem_cons_self
    · exact List.mem_cons_of_mem e h
  rw [hds, List.concat_eq_append]
  rw [hright] at hc'
  rcases List.mem_append.mp hc' with h | h
  · exact List.mem_append_left [d] h
  · have h := List.mem_singleton.mp h
    rw [h, hnil htail fun b hb => h ▸ List.mem_append_right d hb]
    simp

theorem not_dots_of_not_bad {path c : GoString} (h : hasBadPathComponent path = false)
    (hc : c ∈ split path) : c ≠ lit "." ∧ c ≠ lit ".." := by
  rw [hasBadPathComponent, List.any_eq_false] at h
  constructor
  · rintro rfl
    exact h _ (mem_split_trimSpace hc (by decide +kernel)) (by decide +kernel)
  · rintro rfl
    exact h _ (mem_split_trimSpace hc (by decide +kernel)) (by decide +kernel)

/-- **The elements of a valid name** are names of files. -/
theorem validNames_of_isValidObjectName {o : GoString} (h : isValidObjectName o = true)
    (hhead : o.head? ≠ some slash) : ∀ c ∈ split o, ValidName c := by
  simp only [isValidObjectName, isValidObjectPrefix, Bool.and_eq_true, Bool.not_eq_true'] at h
  obtain ⟨⟨hne, hlast⟩, ⟨hbad, -⟩, hdouble⟩ := h
  intro c hc
  obtain ⟨hdot, hdotdot⟩ := not_dots_of_not_bad hbad hc
  refine ⟨?_, no_slash_of_mem_split hc, hdot, hdotdot⟩
  rintro rfl
  rcases nil_mem_split hc with h | h | h | h
  · simp [h] at hne
  · exact hhead h
  · rw [List.isSuffixOf_iff_suffix.mpr h] at hlast
    exact absurd hlast (by simp)
  · rw [h] at hdouble
    exact absurd hdouble (by simp)

section Paths

variable {bucket : GoString} (hb : ∀ c ∈ bucketDir bucket, ValidName c)

include hb

/-- The path of an object with valid elements, or of the bucket itself. -/
theorem remotePath_relPath {names : List GoString} (hv : ∀ c ∈ names, ValidName c) :
    remotePath bucket (relPath names) = absPath (bucketDir bucket ++ names) := by
  rw [remotePath_eq hb, prefixNames]
  by_cases hne : names = []
  · subst hne
    have hsplit : split (relPath []) = [[]] := by decide
    rw [hsplit, cleanNames, if_pos (Or.inl rfl), cleanNames, List.reverse_reverse, List.append_nil]
  · rw [split_relPath hne hv, cleanNames_valid true hv, List.reverse_reverse]

theorem getRelativePathOfObj_remotePath {names : List GoString} (hne : names ≠ [])
    (hv : ∀ c ∈ names, ValidName c) :
    getRelativePathOfObj (remotePath bucket (relPath names)) bucket = relPath names := by
  have hall : ∀ c ∈ bucketDir bucket ++ names, ValidName c := fun c hc =>
    (List.mem_append.mp hc).elim (hb c) (hv c)
  rw [remotePath_relPath hb hv, getRelativePathOfObj_absPath hb (by simp [hne]) hall, List.drop_left]

end Paths

/-! ### What is listed -/

/-- A ref of something at or below `dir`; if it is a file, it is one of the tree. -/
def RefAt (tree : RefTree) (dir : List GoString) (ref : ORef) : Prop :=
  ∃ e : Entry, ref.path = e.path ∧ ref.type = e.type ∧ dir <+: e.names ∧
    (∀ c ∈ e.names, ValidName c) ∧ (e.type = .file → e ∈ tree.entries)

/-- **What is assumed of `GetRefs`**, whatever it is asked for: it answers refs at or below the path. -/
def AnswersBelow (tree : RefTree) (getRefs : GetRefs RefError) : Prop :=
  ∀ dir, (∀ c ∈ dir, ValidName c) → ∀ offset type level limit oResult,
    getRefs (absPath dir) offset type level limit = .ok oResult →
    ∀ ref ∈ oResult.refs, RefAt tree dir ref

theorem RefAt.mono {tree : RefTree} {dir dir' : List GoString} {ref : ORef}
    (h : RefAt tree dir' ref) (hdir : dir <+: dir') : RefAt tree dir ref := by
  obtain ⟨e, hpath, htype, hbelow, hrest⟩ := h
  exact ⟨e, hpath, htype, hdir.trans hbelow, hrest⟩

section Listing

variable {tree : RefTree} {getRefs : GetRefs RefError} {dir : List GoString} {s s' : ListState}
  {maxRefs : ℤ} {isDelimited : Bool} {fileType : Option RefType}

/-- Everything collected and everything queued is at or below `dir`. -/
structure ListsBelow (tree : RefTree) (dir : List GoString) (s : ListState) : Prop where
  refs : ∀ ref ∈ s.refs, RefAt tree dir ref
  directories : ∀ path ∈ s.directories.entries, ∃ names, path = absPath names ∧ dir <+: names ∧
    ∀ c ∈ names, ValidName c

theorem ListsBelow.keepRef (h : ListsBelow tree dir s) {ref : ORef} (href : RefAt tree dir ref)
    (name : GoString) : ListsBelow tree dir (keepRef maxRefs name s ref) := by
  have hrefs : ∀ r ∈ s.refs ++ [{ ref with name := name }], RefAt tree dir r := by
    intro r hr
    rcases List.mem_append.mp hr with hr | hr
    · exact h.refs r hr
    · rw [List.mem_singleton.mp hr]
      exact href
  rw [ListRefs.keepRef]
  show ListsBelow tree dir (if _ then _ else _)
  split
  · exact ⟨hrefs, h.directories⟩
  · exact ⟨hrefs, h.directories⟩

theorem ListsBelow.takeRef (h : ListsBelow tree dir s) {ref : ORef} (href : RefAt tree dir ref)
    (path : GoString) : ListsBelow tree dir (takeRef maxRefs isDelimited path s ref) := by
  unfold ListRefs.takeRef
  cases ref.type with
  | file => exact h.keepRef href _
  | dir =>
    show ListsBelow tree dir (if _ then _ else _)
    split
    · exact h
    · split
      · exact ⟨h.refs, h.directories⟩
      · have hpush : ListsBelow tree dir { s with
            directories := s.directories.push ref.path, dirMap := ref.path :: s.dirMap } := by
          refine ⟨h.refs, fun p hp => ?_⟩
          rw [Heap.entries_push] at hp
          rcases Multiset.mem_cons.mp hp with rfl | hp
          · obtain ⟨e, hpath, -, hbelow, hvalid, -⟩ := href
            exact ⟨e.names, hpath, hbelow, hvalid⟩
          · exact h.directories p hp
        exact hpush.keepRef href _

theorem ListsBelow.takeRefs {path : GoString} (refs : List ORef) :
    ∀ {s : ListState}, ListsBelow tree dir s → (∀ ref ∈ refs, RefAt tree dir ref) →
      ListsBelow tree dir (takeRefs maxRefs isDelimited path s refs) := by
  induction refs with
  | nil =>
    intro s h _
    exact h
  | cons ref refs ih =>
    intro s h hrefs
    have hone : ListsBelow tree dir (ListRefs.takeRef maxRefs isDelimited path s ref) :=
      h.takeRef (hrefs ref List.mem_cons_self) path
    rw [ListRefs.takeRefs]
    split
    · exact hone
    · exact ih hone fun r hr => hrefs r (List.mem_cons_of_mem ref hr)

theorem ListsBelow.listDirectory (hserves : AnswersBelow tree getRefs) {names : List GoString}
    (hbelow : dir <+: names) (hv : ∀ c ∈ names, ValidName c) (fuel : ℕ) :
    ∀ {offset : GoString} {s : ListState}, ListsBelow tree dir s →
      listDirectory getRefs fileType maxRefs isDelimited (absPath names) fuel offset s =
        some (.ok s') → ListsBelow tree dir s' := by
  induction fuel with
  | zero =>
    intro offset s _ hrun
    cases hrun
  | succ fuel ih =>
    intro offset s h hrun
    rw [ListRefs.listDirectory] at hrun
    have h₀ : ListsBelow tree dir { s with listPageLimit := nextLimit maxRefs s } :=
      ⟨h.refs, h.directories⟩
    cases hget : getRegularRefs getRefs (absPath names) offset fileType (nextLimit maxRefs s) with
    | error err => simp [hget] at hrun
    | ok oResult =>
      simp only [hget] at hrun
      rw [getRegularRefs, clean_absPath_any hv] at hget
      have hrefs : ∀ ref ∈ oResult.refs, RefAt tree dir ref := fun ref href =>
        (hserves names hv _ _ _ _ _ hget ref href).mono hbelow
      split at hrun
      · cases hrun
        exact h₀
      · split at hrun
        · cases hrun
          exact h₀.takeRefs _ hrefs
        · exact ih (h₀.takeRefs _ hrefs) hrun

theorem ListsBelow.listDirectories (hserves : AnswersBelow tree getRefs) (fuel : ℕ) :
    ∀ {marker : GoString} {s : ListState}, ListsBelow tree dir s →
      listDirectories getRefs fileType maxRefs isDelimited fuel marker s = some (.ok s') →
      ListsBelow tree dir s' := by
  induction fuel with
  | zero =>
    intro marker s _ hrun
    cases hrun
  | succ fuel ih =>
    intro marker s h hrun
    rw [ListRefs.listDirectories] at hrun
    split at hrun
    · cases hrun
      exact h
    · split at hrun
      · cases hrun
        exact h
      · next path directories hpop =>
        have hentries := Heap.entries_of_pop hpop
        obtain ⟨names, rfl, hbelow, hv⟩ := h.directories path (by rw [hentries]; simp)
        have hrest : ListsBelow tree dir { s with directories := directories } :=
          ⟨h.refs, fun p hp => h.directories p (by rw [hentries]; simp [hp])⟩
        split at hrun
        · next s₁ hdir => exact ih (hrest.listDirectory hserves hbelow hv _ hdir) hrun
        · next hne => exact absurd hrun (hne s')

theorem ListsBelow.init {names : List GoString} (hv : ∀ c ∈ names, ValidName c) :
    ListsBelow tree names (.init (absPath names)) := by
  refine ⟨by simp [ListState.init], fun path hpath => ⟨names, ?_, List.prefix_refl names, hv⟩⟩
  simpa [ListState.init] using hpath

theorem refAt_of_getSingleRegularRef (hserves : AnswersBelow tree getRefs) {names : List GoString}
    (hv : ∀ c ∈ names, ValidName c) {ref : ORef}
    (h : getSingleRegularRef getRefs (absPath names) = .ok ref) : RefAt tree names ref := by
  rw [getSingleRegularRef] at h
  simp only [split_trimSuffix_length hv, clean_absPath_any hv] at h
  cases hget : getRefs (absPath names) [] none (names.length + 1) 1 with
  | ok oResult =>
    simp only [hget, singleRef] at h
    split at h
    · cases h
    · next first rest hrefs =>
      cases h
      exact hserves names hv _ _ _ _ _ hget _ (by rw [hrefs]; exact List.mem_cons_self)
  | error err =>
    -- the second request is the same one
    simp only [hget] at h
    split at h
    · cases h
    · cases h

/-- **What `ListObjects` returns** for a prefix without `..` are files of the bucket. -/
theorem listObjects_found {bucket objPrefix marker delimiter : GoString} {fuel : ℕ} {maxKeys : ℤ}
    {info : ListObjectsInfo} (hb : ∀ c ∈ bucketDir bucket, ValidName c)
    (hserves : AnswersBelow tree getRefs) (hbad : hasBadPathComponent objPrefix = false)
    (h : listObjects getRefs fuel bucket objPrefix marker delimiter maxKeys = some (.ok info)) :
    ∀ obj ∈ info.objects, ∃ e ∈ tree.entries, e.type = .file ∧ bucketDir bucket <+: e.names ∧
      obj.name = getRelativePathOfObj e.path bucket := by
  have hv : ∀ c ∈ prefixNames bucket objPrefix, ValidName c := prefixNames_valid hb
  have hdir : bucketDir bucket <+: prefixNames bucket objPrefix := by
    have hpre := prefix_cleanNames true (fun c hc => (not_dots_of_not_bad hbad hc).2)
      (bucketDir bucket).reverse
    rwa [List.reverse_reverse] at hpre
  have hfile : ∀ {ref : ORef}, RefAt tree (prefixNames bucket objPrefix) ref → ref.type = .file →
      ∃ e ∈ tree.entries, e.type = .file ∧ bucketDir bucket <+: e.names ∧
        getRelativePathOfObj ref.path bucket = getRelativePathOfObj e.path bucket := by
    rintro ref ⟨e, hpath, htype, hbelow, -, hmem⟩ hf
    have he : e.type = .file := htype.symm.trans hf
    exact ⟨e, hmem he, he, hdir.trans hbelow, by rw [hpath]⟩
  intro obj hobj
  rw [listObjects, remotePath_eq hb] at h
  cases hsingle : getSingleRegularRef getRefs (absPath (prefixNames bucket objPrefix)) with
  | error err =>
    simp only [hsingle] at h
    split at h
    · cases h
      cases hobj
    · cases h
  | ok ref =>
    simp only [hsingle] at h
    cases htype : ref.type with
    | file =>
      simp only [htype] at h
      split at h
      · cases h
        cases hobj
      · cases h
        rw [List.mem_singleton.mp hobj]
        exact hfile (refAt_of_getSingleRegularRef hserves hv hsingle) htype
    | dir =>
      simp only [htype] at h
      obtain ⟨answer, hrun, hanswer⟩ := Option.map_eq_some_iff.mp h
      cases answer with
      | error err =>
        simp only at hanswer
        split at hanswer
        · cases hanswer
          cases hobj
        · cases hanswer
      | ok page =>
        cases hanswer
        rw [listRegularRefs, clean_absPath_any hv] at hrun
        obtain ⟨res, hlists, hpage⟩ := Option.map_eq_some_iff.mp hrun
        cases res with
        | error err => cases hpage
        | ok s' =>
          cases hpage
          obtain ⟨r, hr, hlisted⟩ := List.mem_filterMap.mp hobj
          have hbelow := (ListsBelow.init hv).listDirectories hserves fuel hlists
          rw [listedObject] at hlisted
          split at hlisted
          · cases hlisted
          · next hf =>
            cases hlisted
            exact hfile (hbelow.refs r hr) hf

end Listing

/-- **Names and paths.**  For the root bucket, or any bucket whose name can stand in a path, a valid
name comes back from its path, two valid names have two paths, and a name listed under any prefix
without `.` and `..` leads `GetObjectInfo` and `DeleteObject` to the ref it was made from. -/
theorem objectName_round_trip (bucket : GoString) (hb : ∀ c ∈ bucketDir bucket, ValidName c) :
    (∀ o, isValidObjectName o = true → o.head? ≠ some slash →
      getRelativePathOfObj (remotePath bucket o) bucket = o) ∧
    (∀ o o', isValidObjectName o = true → o.head? ≠ some slash → isValidObjectName o' = true →
      o'.head? ≠ some slash → remotePath bucket o = remotePath bucket o' → o = o') ∧
    ∀ (tree : RefTree) (getRefs : GetRefs RefError), ServesLookup tree getRefs →
      AnswersBelow tree getRefs → ∀ fuel objPrefix marker delimiter maxKeys info,
      hasBadPathComponent objPrefix = false →
      listObjects getRefs fuel bucket objPrefix marker delimiter maxKeys = some (.ok info) →
      ∀ obj ∈ info.objects, ∃ e ∈ tree.entries,
        obj.name = getRelativePathOfObj e.path bucket ∧ remotePath bucket obj.name = e.path ∧
        getSingleRegularRef getRefs e.path = .ok e.toRef ∧
        getObjectInfo getRefs bucket obj.name = .ok ⟨bucket, obj.name, false⟩ ∧
        ∀ done, deleteObject getRefs done bucket obj.name =
          ([e.path], done.map fun _ => ⟨bucket, e.toRef.name, false⟩) := by
  have hround : ∀ o, isValidObjectName o = true → o.head? ≠ some slash →
      getRelativePathOfObj (remotePath bucket o) bucket = o := by
    intro o ho hhead
    have h := getRelativePathOfObj_remotePath hb (split_ne_nil o)
      (validNames_of_isValidObjectName ho hhead)
    rwa [relPath_split] at h
  refine ⟨hround, ?_, ?_⟩
  · intro o o' ho hhead ho' hhead' hpath
    rw [← hround o ho hhead, hpath, hround o' ho' hhead']
  · intro tree getRefs hlook hserves fuel objPrefix marker delimiter maxKeys info hbad hrun obj hobj
    obtain ⟨e, he, hfile, ⟨names, hnames⟩, hname⟩ := listObjects_found hb hserves hbad hrun obj hobj
    have hv : ∀ c ∈ names, ValidName c := fun c hc =>
      tree.valid e he c (by rw [← hnames]; exact List.mem_append_right _ hc)
    have hremote : remotePath bucket obj.name = e.path := by
      rw [hname, getRelativePathOfObj_path hb he, objectKey, ← hnames, List.drop_left,
        remotePath_relPath hb hv, hnames, Entry.path]
    have hsingle : getSingleRegularRef getRefs e.path = .ok e.toRef := by
      obtain ⟨oResult, hok, hrefs⟩ := hlook.found e he
      exact getSingleRegularRef_found (tree.valid e he) hok hrefs
    have hclean : clean e.path = e.path := clean_absPath_any (tree.valid e he)
    have htype : e.toRef.type = .file := hfile
    refine ⟨e, he, hname, hremote, hsingle, ?_, fun done => ?_⟩
    · rw [getObjectInfo, hremote, hclean, hsingle]
      simp only [htype, reduceCtorEq, false_and, if_false]
      rw [hname]
      rfl
    · rw [deleteObject, hremote, hsingle]
      simp only [htype]
      rfl

theorem serveRefs_answersBelow (tree : RefTree) : AnswersBelow tree (serveRefs tree) := by
  intro dir hv offset type level limit oResult hok ref href
  have hentry : ∀ {e : Entry}, e ∈ tree.entries → dir <+: e.names → RefAt tree dir e.toRef :=
    fun {e} he hbelow => ⟨e, rfl, rfl, hbelow, tree.valid e he, fun _ => he⟩
  rw [serveRefs] at hok
  split at hok
  · split at hok
    · next hroot =>
      cases hok
      have hnil : dir = [] := by
        by_contra hne
        exact relPath_ne_nil hne hv (List.cons.inj hroot).2
      rw [List.mem_singleton.mp href, hnil]
      exact ⟨⟨[], .dir⟩, rfl, rfl, List.nil_prefix, by simp, by simp⟩
    · next hroot =>
      split at hok
      · cases hok
      · next e rest hfilter =>
        cases hok
        have hmem : e ∈ tree.entries.filter fun e =>
            decide (e.path = absPath dir) && decide (e.level = level) := by
          rw [hfilter]
          exact List.mem_cons_self
        obtain ⟨he, hpath, -⟩ : e ∈ tree.entries ∧ e.path = absPath dir ∧ e.level = level := by
          simpa using hmem
        have hne : dir ≠ [] := fun h => hroot (by rw [h])
        have hs := congrArg split hpath
        rw [Entry.path, split_absPath (tree.names_ne_nil e he) (tree.valid e he),
          split_absPath hne hv] at hs
        rw [List.mem_singleton.mp href]
        exact hentry he (by rw [(List.cons.inj hs).2])
  · cases hok
    obtain ⟨e, he, rfl⟩ := List.mem_map.mp href
    obtain ⟨he, hcond⟩ := List.mem_filter.mp (List.mem_of_mem_take he)
    simp only [Bool.and_eq_true, List.isPrefixOf_iff_prefix] at hcond
    obtain ⟨rest, -, hnames⟩ := (trimSuffix_slash_prefix_iff hv he).mp hcond.1.1.1
    exact hentry he ⟨rest, hnames.symm⟩

/-- The object `d/x` of the bucket `b`, by its name and in a listing. -/
theorem objectName_round_trip_nested :
    getRelativePathOfObj (remotePath (lit "b") (lit "d/x")) (lit "b") = lit "d/x" ∧
    ∀ info, listObjects (serveRefs prefixTree) 6 (lit "b") (lit "d/") [] [] 3 = some (.ok info) →
      ∀ obj ∈ info.objects, ∃ e ∈ prefixTree.entries, remotePath (lit "b") obj.name = e.path := by
  obtain ⟨hround, -, hlist⟩ := objectName_round_trip (lit "b") (by decide)
  refine ⟨hround (lit "d/x") (by decide +kernel) (by decide), fun info hrun obj hobj => ?_⟩
  obtain ⟨e, he, -, hpath, -⟩ := hlist prefixTree (serveRefs prefixTree)
    (serveRefs_servesLookup prefixTree) (serveRefs_answersBelow prefixTree) 6 (lit "d/") [] [] 3 info
    (by decide +kernel) hrun obj hobj
  exact ⟨e, he, hpath⟩

/-- **The bucket `..`** leads out of the bucket, and so does `..` in a prefix: the bucket `c` then lists
an object of the bucket `b`, whose name is that of no object in `c`. -/
theorem objectName_dotdot :
    (slash ∉ lit ".." ∧ lit ".." ≠ rootBucketName ∧ isValidObjectName (lit "a") = true ∧
      getRelativePathOfObj (join [lit "/", lit "..", lit "a"]) (lit "..") ≠ lit "a") ∧
    ∃ info, listObjects (serveRefs prefixTree) 6 (lit "c") (lit "../b") [] [] 1 = some (.ok info) ∧
      ⟨lit "c", lit "abc"⟩ ∈ info.objects ∧
      getObjectInfo (serveRefs prefixTree) (lit "c") (lit "abc") =
        .error (.objectNotFound (lit "c") (lit "abc")) := by
  refine ⟨⟨by decide, by decide, by decide +kernel, by decide⟩,
    ⟨true, lit "abc", [⟨lit "c", lit "abc"⟩], []⟩, ?_, ?_, ?_⟩
  · decide
  · decide
  · decide

end Zs3Server.Gateway.ObjectName
