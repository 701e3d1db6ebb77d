import Zs3Server.Lib.BinaryHeap
import Zs3Server.Lib.GoPath
import Zs3Server.Lib.Paging

/-!
# Listing the refs below a directory

The listing of the gateway: `listRegularRefs` asks the allocation for one page of refs after the other
until `maxRefs` of them are collected, and answers a marker from which the next call goes on.

The allocation's `GetRefs` is a parameter.  What it is expected to answer is `ServesRefs`: a page of
the refs of a directory tree (`RefTree`), in the order of their paths.

* `getRegularRefs`, `getCommonPrefix`, `takeRefs`, `listDirectory`, `listDirectories`,
  `listRegularRefs` — the code;
* `listFileType` — the type of refs that `ListObjects` asks for;
* `listPages` — a client that calls again with the marker it was given;
* `RefTree.scope`, `RefTree.matching_scope`, `getRegularRefs_spec` — the refs that a call finds below
  a directory.
-/

namespace Zs3Server.Gateway.ListRefs

open Lib
open Lib.ByteString
open Lib.GoPath
open Lib.BinaryHeap (Heap)

/-! ### Refs and the allocation -/

/-- The page size of a request to the allocation. -/
def pageLimit : ℤ := 1000

/-- The type of a ref, `"f"` or `"d"`.  Where the source has an empty type for any ref, it is `none`
in an `Option RefType`. -/
inductive RefType
  | file
  | dir
deriving DecidableEq, Repr

/-- A ref of the allocation, as far as the listing reads it. -/
structure ORef where
  path : GoString
  type : RefType
  name : GoString
deriving DecidableEq

/-- A page of refs and the path to ask from for the next one. -/
structure ObjectTreeResult where
  refs : List ORef
  offsetPath : GoString

/-- `alloc.GetRefs` for regular refs: the directory, the path to start after, the type, the level
(`0` for any) and the page size. -/
abbrev GetRefs (ε : Type*) :=
  GoString → GoString → Option RefType → ℕ → ℤ → Except ε ObjectTreeResult

/-! ### The code -/

/-- The level `getRegularRefs` asks for: that of the direct children, unless the offset lies deeper or
only files are wanted. -/
def refsLevel (remotePath offsetPath : GoString) (objFileType : Option RefType) : ℕ :=
  let level := (split (trimSuffix remotePath [slash])).length + 1
  if objFileType = some .file then 0
  else if offsetPath ≠ [] ∧ (split (trimSuffix offsetPath [slash])).length > level then 0
  else level

def getRegularRefs {ε : Type*} (getRefs : GetRefs ε) (remotePath offsetPath : GoString)
    (objFileType : Option RefType) (limit : ℤ) : Except ε ObjectTreeResult :=
  getRefs (clean remotePath) offsetPath objFileType (refsLevel remotePath offsetPath objFileType)
    limit

/-- The path below the bucket: `"abc/def"` for `"/xyz/abc/def"`. -/
def getCommonPrefix (remotePath : GoString) : GoString :=
  let pSlice := split (trimSuffix remotePath [slash])
  if pSlice.length < 2 then [] else relPath (pSlice.drop 2)

/-- The variables of `listRegularRefs`. -/
structure ListState where
  refs : List ORef
  prefixes : List GoString
  dirMap : List GoString
  directories : Heap GoString
  listPageLimit : ℤ
  markedPath : GoString
  isTruncated : Bool

section Loops

variable {ε : Type*} (getRefs : GetRefs ε) (fileType : Option RefType) (maxRefs : ℤ)
  (isDelimited : Bool) (currentRemotePath : GoString)

/-- Keep a ref under its name; the listing is truncated once there are `maxRefs`. -/
def keepRef (name : GoString) (s : ListState) (ref : ORef) : ListState :=
  let s := { s with refs := s.refs ++ [{ ref with name := name }] }
  if maxRefs ≠ 0 ∧ (s.refs.length : ℤ) ≥ maxRefs then
    { s with markedPath := ref.path, isTruncated := true }
  else s

/-- One ref of a page. -/
def takeRef (s : ListState) (ref : ORef) : ListState :=
  let trimmedPath := trimPrefix ref.path (currentRemotePath ++ [slash])
  let name := join [getCommonPrefix currentRemotePath, trimmedPath]
  match ref.type with
  | .dir =>
    if ref.path ∈ s.dirMap then s
    else if isDelimited then { s with prefixes := s.prefixes ++ [name ++ [slash]] }
    else
      keepRef maxRefs name
        { s with directories := s.directories.push ref.path, dirMap := ref.path :: s.dirMap } ref
  | .file => keepRef maxRefs name s ref

/-- The refs of a page, up to the one that truncates the listing. -/
def takeRefs (s : ListState) : List ORef → ListState
  | [] => s
  | ref :: refs =>
    let s' := takeRef maxRefs isDelimited currentRemotePath s ref
    if s'.isTruncated then s' else takeRefs s' refs

/-- The limit of the next page: not more than what is missing to `maxRefs`. -/
def nextLimit (s : ListState) : ℤ :=
  if s.refs.length + s.listPageLimit > maxRefs then maxRefs - s.refs.length else s.listPageLimit

/-- The pages of one directory.  `none` says that the fuel did not suffice. -/
def listDirectory : ℕ → GoString → ListState → Option (Except ε ListState)
  | 0, _, _ => none
  | fuel + 1, offsetPath, s =>
    let s := { s with listPageLimit := nextLimit maxRefs s }
    match getRegularRefs getRefs currentRemotePath offsetPath fileType s.listPageLimit with
    | .error e => some (.error e)
    | .ok oResult =>
      if oResult.refs = [] then some (.ok s)
      else
        let s' := takeRefs maxRefs isDelimited currentRemotePath s oResult.refs
        if s'.isTruncated ∨ (oResult.refs.length : ℤ) < s'.listPageLimit then some (.ok s')
        else listDirectory fuel oResult.offsetPath s'

/-- Where the listing of a directory starts. -/
def startOffset (marker : GoString) : GoString :=
  if marker ≠ [] then join [currentRemotePath, marker] else currentRemotePath

/-- The directories of the queue, the least path first.  The marker counts for the first one only. -/
def listDirectories : ℕ → GoString → ListState → Option (Except ε ListState)
  | 0, _, _ => none
  | fuel + 1, marker, s =>
    if s.isTruncated then some (.ok s)
    else
      match s.directories.pop with
      | none => some (.ok s)
      | some (path, directories) =>
        match listDirectory getRefs fileType maxRefs isDelimited path (fuel + 1)
          (startOffset path marker) { s with directories := directories } with
        | some (.ok s') => listDirectories fuel [] s'
        | stopped => stopped

end Loops

/-- What `listRegularRefs` answers. -/
structure ListPage where
  refs : List ORef
  isTruncated : Bool
  marker : GoString
  prefixes : List GoString
deriving DecidableEq

/-- The variables at the start: only the directory itself is queued. -/
def ListState.init (remotePath : GoString) : ListState :=
  { refs := [], prefixes := [], dirMap := [], directories := Heap.empty.push remotePath,
    listPageLimit := pageLimit, markedPath := [], isTruncated := false }

/-- The answer: the marker is the path of the last ref, relative to the directory. -/
def ListState.page (remotePath : GoString) (s : ListState) : ListPage :=
  { refs := s.refs, isTruncated := s.isTruncated
    marker := if s.isTruncated then trimPrefix s.markedPath (remotePath ++ [slash]) else []
    prefixes := s.prefixes }

def listRegularRefs {ε : Type*} (getRefs : GetRefs ε) (fuel : ℕ) (remotePath marker : GoString)
    (fileType : Option RefType) (maxRefs : ℤ) (isDelimited : Bool) : Option (Except ε ListPage) :=
  let remotePath := clean remotePath
  (listDirectories getRefs fileType maxRefs isDelimited fuel marker (.init remotePath)).map
    (Except.map (ListState.page remotePath))

/-- The type of refs `ListObjects` asks for: files only in the root bucket and without delimiter. -/
def listFileType (rootBucket : Bool) (delimiter : GoString) : Option RefType :=
  if rootBucket ∨ delimiter = [] then some .file else none

/-- The pages a client is given that starts from the empty marker and calls again, with the marker it
was given, as long as the listing is truncated.  `none` says that the fuel did not suffice or that a
call failed. -/
def listPages {ε : Type*} (getRefs : GetRefs ε) (remotePath : GoString)
    (fileType : Option RefType) (maxRefs : ℤ) (isDelimited : Bool) (fuel : ℕ) :
    Option (List ListPage) :=
  Paging.collect
    (fun marker =>
      (listRegularRefs getRefs fuel remotePath marker fileType maxRefs isDelimited).bind
        Except.toOption)
    (fun page => if page.isTruncated then some page.marker else none) fuel []

/-! ### The directory tree behind the allocation -/

/-- A file or directory of the tree, given by the names on the way to it. -/
structure Entry where
  names : List GoString
  type : RefType
deriving DecidableEq

def Entry.path (e : Entry) : GoString := absPath e.names

/-- The ref the allocation keeps for an entry, named by the last name of its path. -/
def Entry.toRef (e : Entry) : ORef := ⟨e.path, e.type, e.names.getLastD []⟩

/-- The level of an entry; the root has level 1. -/
def Entry.level (e : Entry) : ℕ := e.names.length + 1

/-- **A directory tree**: its entries in the byte order of their paths, each one in a directory of the
tree or in the root. -/
structure RefTree where
  entries : List Entry
  sorted : entries.Pairwise (·.path < ·.path)
  names_ne_nil : ∀ e ∈ entries, e.names ≠ []
  valid : ∀ e ∈ entries, ∀ c ∈ e.names, ValidName c
  parents : ∀ e ∈ entries, e.names.dropLast ≠ [] →
    ⟨e.names.dropLast, .dir⟩ ∈ entries

/-- The entries strictly below `remotePath` that come after `offsetPath`, of a given type and level. -/
def RefTree.matching (tree : RefTree) (remotePath offsetPath : GoString) (type : Option RefType)
    (level : ℕ) : List Entry :=
  tree.entries.filter fun e =>
    (trimSuffix remotePath [slash] ++ [slash]).isPrefixOf e.path && decide (offsetPath < e.path) &&
      (type.all (· == e.type)) && (level == 0 || e.level == level)

/-- **What is assumed of `GetRefs`** for the listing of a directory, from the directory itself or from
a later path: it answers the first `limit` of the refs asked for, in the order of their paths, and
the path of the last one of them. -/
def ServesRefs {ε : Type*} (tree : RefTree) (getRefs : GetRefs ε) : Prop :=
  ∀ remotePath offsetPath type level limit, ¬ offsetPath < remotePath → 1 ≤ limit →
    ∃ oResult, getRefs remotePath offsetPath type level limit = .ok oResult ∧
      oResult.refs =
        ((tree.matching remotePath offsetPath type level).take limit.toNat).map Entry.toRef ∧
      ∀ last, oResult.refs.getLast? = some last → oResult.offsetPath = last.path

/-- An allocation that answers as expected. -/
def RefTree.getRefs (tree : RefTree) : GetRefs Empty := fun remotePath offsetPath type level limit =>
  let refs := ((tree.matching remotePath offsetPath type level).take limit.toNat).map Entry.toRef
  .ok ⟨refs, (refs.getLast?.map ORef.path).getD offsetPath⟩

theorem RefTree.servesRefs (tree : RefTree) : ServesRefs tree tree.getRefs := by
  intro remotePath offsetPath type level limit _ _
  refine ⟨_, rfl, rfl, ?_⟩
  intro last hlast
  show Option.getD (Option.map _ _) _ = _
  rw [hlast, Option.map_some, Option.getD_some]

/-! ### The refs a call is about -/

/-- `e` is strictly below the directory `dir`. -/
def Entry.Below (dir : List GoString) (e : Entry) : Prop := ∃ rest, rest ≠ [] ∧ e.names = dir ++ rest

/-- `e` is a direct child of the directory `dir`. -/
def Entry.ChildOf (dir : List GoString) (e : Entry) : Prop := ∃ name, e.names = dir ++ [name]

/-- The entries below `dir` that a listing goes through: the direct children when it is delimited, and
all the files otherwise. -/
def RefTree.scope (tree : RefTree) (dir : List GoString) (isDelimited : Bool) : List Entry :=
  tree.entries.filter fun e =>
    (absPath dir ++ [slash]).isPrefixOf e.path &&
      if isDelimited then e.names.length == dir.length + 1 else e.type == .file

variable {tree : RefTree} {dir : List GoString} {isDelimited : Bool}

theorem RefTree.scope_sorted (tree : RefTree) (dir : List GoString) (isDelimited : Bool) :
    (tree.scope dir isDelimited).Pairwise (·.path < ·.path) :=
  tree.sorted.filter _

theorem Entry.childOf_iff {dir : List GoString} {e : Entry} :
    e.ChildOf dir ↔ e.Below dir ∧ e.names.length = dir.length + 1 := by
  constructor
  · rintro ⟨name, h⟩
    exact ⟨⟨[name], by simp, h⟩, by simp [h]⟩
  · rintro ⟨⟨rest, -, h⟩, hlen⟩
    have hone : rest.length = 1 := by
      rw [h, List.length_append] at hlen
      omega
    obtain ⟨name, rfl⟩ := List.length_eq_one_iff.mp hone
    exact ⟨name, h⟩

theorem RefTree.mem_scope_iff (hdir : dir ≠ []) (hv : ∀ c ∈ dir, ValidName c) {e : Entry} :
    e ∈ tree.scope dir isDelimited ↔
      e ∈ tree.entries ∧ e.Below dir ∧ (if isDelimited then e.ChildOf dir else e.type = .file) := by
  rw [RefTree.scope, List.mem_filter, Bool.and_eq_true, List.isPrefixOf_iff_prefix]
  refine and_congr_right fun he => ?_
  have hbelow : absPath dir ++ [slash] <+: e.path ↔ e.Below dir :=
    absPath_slash_prefix_iff hdir (tree.names_ne_nil e he) hv (tree.valid e he)
  rw [hbelow]
  refine and_congr_right fun hb => ?_
  cases isDelimited
  · simp
  · simp [Entry.childOf_iff, hb]

theorem split_path_length {e : Entry} (he : e ∈ tree.entries) :
    (split (trimSuffix e.path [slash])).length = e.level := by
  have hne := tree.names_ne_nil e he
  rw [Entry.path, trimSuffix_absPath hne (tree.valid e he), split_absPath hne (tree.valid e he)]
  rfl

/-- A place to start from: the directory itself, or an entry in scope. -/
def OffsetIn (tree : RefTree) (dir : List GoString) (isDelimited : Bool) (offset : GoString) : Prop :=
  offset = absPath dir ∨ ∃ e ∈ tree.scope dir isDelimited, offset = e.path

/-- Without delimiter only files are asked for, of any level. -/
theorem refsLevel_files (offset : GoString) :
    refsLevel (absPath dir) offset (some .file) = 0 := by
  simp [refsLevel]

/-- A delimited listing never starts below the direct children, and so asks for these only. -/
theorem refsLevel_children (hdir : dir ≠ []) (hv : ∀ c ∈ dir, ValidName c) {offset : GoString}
    (hoff : OffsetIn tree dir true offset) :
    refsLevel (absPath dir) offset none = dir.length + 2 := by
  have hlen : (split (trimSuffix (absPath dir) [slash])).length = dir.length + 1 := by
    rw [trimSuffix_absPath hdir hv, split_absPath hdir hv]
    rfl
  have hdeep : (split (trimSuffix offset [slash])).length ≤ dir.length + 2 := by
    rcases hoff with rfl | ⟨e, he, rfl⟩
    · omega
    · obtain ⟨hmem, -, hchild⟩ := (RefTree.mem_scope_iff hdir hv).mp he
      rw [split_path_length hmem, Entry.level, (Entry.childOf_iff.mp hchild).2]
  unfold refsLevel
  simp only [hlen]
  rw [if_neg (by simp), if_neg (by omega)]

/-- **The refs found after an offset.**  For the type that `ListObjects` asks for, `getRegularRefs` is
about the entries in scope. -/
theorem RefTree.matching_scope (hdir : dir ≠ []) (hv : ∀ c ∈ dir, ValidName c)
    {delimiter offset : GoString} (hoff : OffsetIn tree dir (decide (delimiter ≠ [])) offset) :
    tree.matching (absPath dir) offset (listFileType false delimiter)
        (refsLevel (absPath dir) offset (listFileType false delimiter)) =
      (tree.scope dir (decide (delimiter ≠ []))).filter fun e => decide (offset < e.path) := by
  rw [RefTree.matching, RefTree.scope, List.filter_filter, trimSuffix_absPath hdir hv]
  refine List.filter_congr fun e _ => ?_
  by_cases hd : delimiter = []
  · have htype : listFileType false delimiter = some .file := if_pos (Or.inr hd)
    have hcomm : (RefType.file == e.type) = (e.type == RefType.file) := BEq.comm
    rw [htype, refsLevel_files, Option.all_some, hcomm]
    simp [hd, Bool.and_comm, Bool.and_left_comm]
  · have htype : listFileType false delimiter = none := if_neg (by simp [hd])
    rw [decide_eq_true hd] at hoff
    have hlevel : (e.level == dir.length + 2) = (e.names.length == dir.length + 1) := by
      rw [Entry.level, Bool.eq_iff_iff]
      simp
    rw [htype, refsLevel_children hdir hv hoff, Option.all_none, hlevel]
    simp [hd, Bool.and_comm, Bool.and_left_comm]

variable {ε : Type*} {getRefs : GetRefs ε} {seen rest : List Entry} {offset delimiter : GoString}

/-- **A page.**  With the cursor at the offset, a call of `getRegularRefs` answers what comes first of
the entries that are left. -/
theorem getRegularRefs_spec (hserves : ServesRefs tree getRefs) (hdir : dir ≠ [])
    (hv : ∀ c ∈ dir, ValidName c) (hoff : OffsetIn tree dir (decide (delimiter ≠ [])) offset)
    (hcur : Paging.Cursor Entry.path (tree.scope dir (decide (delimiter ≠ []))) seen rest offset)
    {limit : ℤ} (hlimit : 1 ≤ limit) :
    ∃ oResult, getRegularRefs getRefs (absPath dir) offset (listFileType false delimiter) limit =
        .ok oResult ∧ oResult.refs = (rest.take limit.toNat).map Entry.toRef ∧
      ∀ e, (rest.take limit.toNat).getLast? = some e → oResult.offsetPath = e.path := by
  have hfrom : ¬ offset < absPath dir := by
    rcases hoff with rfl | ⟨e, he, rfl⟩
    · exact lt_irrefl _
    · obtain ⟨rest, hrest, hnames⟩ := ((RefTree.mem_scope_iff hdir hv).mp he).2.1
      rw [Entry.path, hnames]
      exact lt_asymm (absPath_lt hdir hrest)
  obtain ⟨oResult, hok, hrefs, hlast⟩ := hserves (absPath dir) offset (listFileType false delimiter)
    (refsLevel (absPath dir) offset (listFileType false delimiter)) limit hfrom hlimit
  rw [RefTree.matching_scope hdir hv hoff, hcur.filter_eq fun e => decide_eq_true_iff]
    at hrefs
  refine ⟨oResult, ?_, hrefs, ?_⟩
  · rw [getRegularRefs, clean_absPath hdir hv, hok]
  · intro e he
    refine hlast e.toRef ?_
    rw [hrefs, List.getLast?_map, he, Option.map_some]

end Zs3Server.Gateway.ListRefs
