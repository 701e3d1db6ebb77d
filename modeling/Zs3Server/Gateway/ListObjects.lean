import Zs3Server.Gateway.ListPages

/-!
# Listing the objects at a path

`ListObjects` turns the prefix into a path, looks up the ref at this path, and lists the file found
there or the files below the directory found there.

* `getSingleRegularRef`, `getRelativePathOfObj`, `listObjects` — the code;
* `ServesLookup` — what is assumed of `GetRefs` for a single ref;
* `listRegularRefs_files` — the files below any directory, the root included;
* `listObjects_names` — the names that `ListObjects` returns are those of the files at the cleaned
  path.
-/

namespace Zs3Server.Gateway.ListObjects

open Lib
open Lib.ByteString
open Lib.GoPath
open Lib.BinaryHeap (Heap)
open Gateway.ListRefs
open Gateway.ListPages (init_pop getCommonPrefix_absPath Going Collects)

/-! ### The code -/

/-- An error of the SDK (with a code) or any other one. -/
inductive RefError where
  | zerror (code msg : GoString)
  | other (msg : GoString)
  deriving DecidableEq

def isPathNoExistError : RefError → Bool
  | .zerror code _ => code == lit "path_no_exist"
  | .other _ => false

def isConsensusFailedError : RefError → Bool
  | .zerror code _ => code == lit "consensus_failed"
  | .other _ => false

/-- The error for a path where nothing is. -/
def pathDoesNotExist (remotePath : GoString) : RefError :=
  .zerror (lit "path_no_exist") (lit "remotepath " ++ remotePath ++ lit " does not exist")

/-- The ref of an answer that should have one. -/
def singleRef (remotePath : GoString) (oResult : ObjectTreeResult) : Except RefError ORef :=
  match oResult.refs with
  | [] => .error (pathDoesNotExist remotePath)
  | ref :: _ => .ok ref

def getSingleRegularRef (getRefs : GetRefs RefError) (remotePath : GoString) :
    Except RefError ORef :=
  let level := (split (trimSuffix remotePath [slash])).length
  let remotePath := clean remotePath
  match getRefs remotePath [] none level 1 with
  | .ok oResult => singleRef remotePath oResult
  | .error err =>
    if isConsensusFailedError err then
      -- the request is made again before the path is taken for missing
      match getRefs remotePath [] none level 1 with
      | .ok oResult => singleRef remotePath oResult
      | .error err =>
        if isConsensusFailedError err then .error (pathDoesNotExist remotePath) else .error err
    else .error err

/-- The bucket whose objects are all the files of the allocation. -/
def rootBucketName : GoString := lit "root"

/-- The path of an object, or of a prefix of its name, in the allocation. -/
def remotePath (bucket object : GoString) : GoString :=
  if bucket = rootBucketName then join [lit "/", object] else join [lit "/", bucket, object]

def getRelativePathOfObj (refPath bucketName : GoString) : GoString :=
  if bucketName = lit "/" ∨ bucketName = rootBucketName then trimPrefix refPath (lit "/")
  else getCommonPrefix refPath

/-- The fields of `minio.ObjectInfo` that are not copied from the ref. -/
structure ListedObject where
  bucket : GoString
  name : GoString
  deriving DecidableEq

/-- `minio.ListObjectsInfo`. -/
structure ListObjectsInfo where
  isTruncated : Bool
  nextMarker : GoString
  objects : List ListedObject
  prefixes : List GoString
  deriving DecidableEq

/-- The empty answer. -/
def ListObjectsInfo.empty : ListObjectsInfo := ⟨false, [], [], []⟩

/-- The object of a ref; directories are skipped. -/
def listedObject (bucket : GoString) (ref : ORef) : Option ListedObject :=
  match ref.type with
  | .dir => none
  | .file => some ⟨bucket, getRelativePathOfObj ref.path bucket⟩

/-- `ListObjects`.  `none` says that the fuel of `listRegularRefs` did not suffice. -/
def listObjects (getRefs : GetRefs RefError) (fuel : ℕ) (bucket objPrefix marker delimiter : GoString)
    (maxKeys : ℤ) : Option (Except RefError ListObjectsInfo) :=
  match getSingleRegularRef getRefs (remotePath bucket objPrefix) with
  | .error err => if isPathNoExistError err then some (.ok .empty) else some (.error err)
  | .ok ref =>
    match ref.type with
    | .file =>
      if [slash].isSuffixOf objPrefix then some (.ok .empty)
      else some (.ok ⟨false, [], [⟨bucket, getRelativePathOfObj ref.path bucket⟩], []⟩)
    | .dir =>
      (listRegularRefs getRefs fuel (remotePath bucket objPrefix) marker
        (listFileType (bucket == rootBucketName) delimiter) maxKeys (delimiter != [])).map
        fun
        | .error err =>
          if remotePath bucket objPrefix = lit "/" ∧ isPathNoExistError err then .ok .empty
          else .error err
        | .ok page => .ok ⟨page.isTruncated, page.marker,
            page.refs.filterMap (listedObject bucket), page.prefixes⟩

/-! ### Looking up a ref -/

/-- Nothing was found: an empty answer, or the error the allocation gives for a missing path. -/
def NotFound (answer : Except RefError ObjectTreeResult) : Prop :=
  (∃ oResult, answer = .ok oResult ∧ oResult.refs = []) ∨
    ∃ err, answer = .error err ∧ isConsensusFailedError err = true

/-- **What is assumed of `GetRefs`** for a single ref, asked for at its own level: it is found if it
is in the tree.  The root is a directory; it may be missing as long as the allocation is empty. -/
structure ServesLookup (tree : RefTree) (getRefs : GetRefs RefError) : Prop where
  found : ∀ e ∈ tree.entries, ∃ oResult,
    getRefs e.path [] none e.level 1 = .ok oResult ∧ oResult.refs = [e.toRef]
  missing : ∀ names, names ≠ [] → (∀ c ∈ names, ValidName c) →
    (∀ e ∈ tree.entries, e.names ≠ names) →
    NotFound (getRefs (absPath names) [] none (names.length + 1) 1)
  root : (∃ oResult ref, getRefs (absPath []) [] none 1 1 = .ok oResult ∧ oResult.refs = [ref] ∧
      ref.type = .dir) ∨
    tree.entries = [] ∧ NotFound (getRefs (absPath []) [] none 1 1)

variable {tree : RefTree} {getRefs : GetRefs RefError} {names : List GoString}

/-- The level of a clean path. -/
theorem split_trimSuffix_length (hv : ∀ c ∈ names, ValidName c) :
    (split (trimSuffix (absPath names) [slash])).length = names.length + 1 := by
  by_cases hne : names = []
  · subst hne
    decide
  · rw [trimSuffix_absPath hne hv, split_absPath hne hv]
    rfl

theorem clean_absPath_any (hv : ∀ c ∈ names, ValidName c) : clean (absPath names) = absPath names := by
  by_cases hne : names = []
  · subst hne
    decide
  · exact clean_absPath hne hv

theorem getSingleRegularRef_missing (hv : ∀ c ∈ names, ValidName c)
    (h : NotFound (getRefs (absPath names) [] none (names.length + 1) 1)) :
    getSingleRegularRef getRefs (absPath names) = .error (pathDoesNotExist (absPath names)) := by
  rw [getSingleRegularRef]
  simp only [split_trimSuffix_length hv, clean_absPath_any hv]
  rcases h with ⟨oResult, hok, hnil⟩ | ⟨err, herr, hcons⟩
  · rw [hok]
    simp only [singleRef, hnil]
  · rw [herr]
    simp only [hcons, if_true]

theorem getSingleRegularRef_found (hv : ∀ c ∈ names, ValidName c) {oResult : ObjectTreeResult}
    {ref : ORef} (hok : getRefs (absPath names) [] none (names.length + 1) 1 = .ok oResult)
    (href : oResult.refs = [ref]) : getSingleRegularRef getRefs (absPath names) = .ok ref := by
  rw [getSingleRegularRef]
  simp only [split_trimSuffix_length hv, clean_absPath_any hv, hok, singleRef, href]

/-! ### The files below a directory -/

/-- The files strictly below the directory `dir`, which may be the root. -/
def filesBelow (tree : RefTree) (dir : List GoString) : List Entry :=
  tree.entries.filter fun e =>
    e.type == .file && dir.isPrefixOf e.names && decide (dir.length < e.names.length)

theorem below_iff {dir : List GoString} {e : Entry} :
    e.Below dir ↔ dir <+: e.names ∧ dir.length < e.names.length := by
  constructor
  · rintro ⟨rest, hne, hnames⟩
    have hpos := List.length_pos_iff.mpr hne
    refine ⟨⟨rest, hnames.symm⟩, ?_⟩
    rw [hnames, List.length_append]
    omega
  · rintro ⟨⟨rest, hnames⟩, hlen⟩
    refine ⟨rest, ?_, hnames.symm⟩
    rintro rfl
    rw [← hnames, List.append_nil] at hlen
    exact lt_irrefl _ hlen

theorem mem_filesBelow_iff {dir : List GoString} {e : Entry} :
    e ∈ filesBelow tree dir ↔ e ∈ tree.entries ∧ e.type = .file ∧ e.Below dir := by
  rw [filesBelow, List.mem_filter, below_iff]
  simp [and_assoc]

theorem filesBelow_sorted (tree : RefTree) (dir : List GoString) :
    (filesBelow tree dir).Pairwise (·.path < ·.path) :=
  tree.sorted.filter _

/-- The path of a directory, closed by a separator, begins the paths below it. -/
theorem trimSuffix_slash_prefix_iff {dir : List GoString} (hv : ∀ c ∈ dir, ValidName c) {e : Entry}
    (he : e ∈ tree.entries) :
    trimSuffix (absPath dir) [slash] ++ [slash] <+: e.path ↔ e.Below dir := by
  by_cases hdir : dir = []
  · subst hdir
    have hroot : trimSuffix (absPath []) [slash] ++ [slash] = [slash] := by decide
    rw [hroot]
    exact ⟨fun _ => ⟨e.names, tree.names_ne_nil e he, rfl⟩, fun _ => ⟨relPath e.names, rfl⟩⟩
  · rw [trimSuffix_absPath hdir hv]
    exact absPath_slash_prefix_iff hdir (tree.names_ne_nil e he) hv (tree.valid e he)

/-- A directory comes before what is below it; the root does so too. -/
theorem absPath_lt_path {dir : List GoString} {e : Entry} (he : e ∈ tree.entries)
    (hbelow : e.Below dir) : absPath dir < e.path := by
  obtain ⟨rest, hne, hnames⟩ := hbelow
  rw [Entry.path, hnames]
  by_cases hdir : dir = []
  · subst hdir
    obtain ⟨x, xs, hx⟩ := List.exists_cons_of_ne_nil
      (relPath_ne_nil (tree.names_ne_nil e he) (tree.valid e he))
    rw [← hnames]
    show [slash] < slash :: relPath e.names
    rw [hx]
    exact lt_append_cons [slash] x xs
  · exact absPath_lt hdir hne

/-- What the allocation finds when files below `dir` are asked for. -/
theorem matching_files {dir : List GoString} (hv : ∀ c ∈ dir, ValidName c) (offset : GoString) :
    tree.matching (absPath dir) offset (some .file) 0 =
      (filesBelow tree dir).filter fun e => decide (offset < e.path) := by
  rw [RefTree.matching, filesBelow, List.filter_filter]
  refine List.filter_congr fun e he => ?_
  have hbelow : (trimSuffix (absPath dir) [slash] ++ [slash]).isPrefixOf e.path =
      (dir.isPrefixOf e.names && decide (dir.length < e.names.length)) := by
    rw [Bool.eq_iff_iff, List.isPrefixOf_iff_prefix, trimSuffix_slash_prefix_iff hv he, below_iff]
    simp
  have hcomm : (RefType.file == e.type) = (e.type == RefType.file) := BEq.comm
  rw [hbelow, Option.all_some, hcomm]
  simp [Bool.and_comm, Bool.and_assoc]

/-- What `ListObjects` reads of a ref. -/
def refView (ref : ORef) : GoString × RefType := (ref.path, ref.type)

/-- What taking the files `page` does: they are collected, and the listing is truncated exactly if it
is full then. -/
structure TakesFiles (maxRefs : ℤ) (s s' : ListState) (page : List Entry) : Prop where
  refs : s'.refs.map refView = s.refs.map refView ++ page.map fun e => (e.path, .file)
  directories : s'.directories = s.directories
  truncated : s'.isTruncated = true ↔ maxRefs ≤ s'.refs.length

section Files

variable {maxRefs : ℤ} {s s' : ListState} {dir : List GoString} {page : List Entry}

theorem TakesFiles.length (h : TakesFiles maxRefs s s' page) :
    s'.refs.length = s.refs.length + page.length := by
  have hlen := congrArg List.length h.refs
  simpa using hlen

theorem TakesFiles.trans {s₂ : ListState} {page₂ : List Entry} (h₁ : TakesFiles maxRefs s s' page)
    (h₂ : TakesFiles maxRefs s' s₂ page₂) : TakesFiles maxRefs s s₂ (page ++ page₂) := by
  refine ⟨?_, h₂.directories.trans h₁.directories, h₂.truncated⟩
  rw [h₂.refs, h₁.refs, List.map_append, List.append_assoc]

/-- **One file** is kept. -/
theorem takeRef_file {e : Entry} (htype : e.type = .file) (hgo : s.isTruncated = false)
    (hpos : 0 < maxRefs) (path : GoString) :
    TakesFiles maxRefs s (takeRef maxRefs false path s e.toRef) [e] ∧
      (takeRef maxRefs false path s e.toRef).listPageLimit = s.listPageLimit := by
  have htake : takeRef maxRefs false path s e.toRef =
      keepRef maxRefs (join [getCommonPrefix path, trimPrefix e.path (path ++ [slash])]) s
        e.toRef := by
    simp only [takeRef, Entry.toRef, htype]
  rw [htake, keepRef]
  split
  · next hfull => exact ⟨⟨by simp [refView, Entry.toRef, htype], rfl, by simpa using hfull.2⟩, rfl⟩
  · next hfull =>
    refine ⟨⟨by simp [refView, Entry.toRef, htype], rfl, ?_⟩, rfl⟩
    have hlt : ¬ maxRefs ≤ (s.refs ++ [{ e.toRef with
        name := join [getCommonPrefix path, trimPrefix e.path (path ++ [slash])] }]).length :=
      fun hle => hfull ⟨hpos.ne', hle⟩
    simp only [hgo, Bool.false_eq_true, false_iff]
    exact hlt

/-- Files are collected from a state `s`. -/
theorem takesFiles_collects (hpos : 0 < maxRefs) (path : GoString) :
    Collects maxRefs false path (fun e => e.type = .file)
      (fun s' page => TakesFiles maxRefs s s' page ∧ 1 ≤ s'.listPageLimit) where
  going := fun h hnt => ⟨hnt, not_le.mp fun hle => by simp [h.1.truncated.mpr hle] at hnt, h.2⟩
  full := fun h htr => h.1.truncated.mp htr
  limit := fun h hone => ⟨⟨h.1.refs, h.1.directories, h.1.truncated⟩, hone⟩
  take := by
    rintro s' page e ⟨htakes, hlimit⟩ hnt htype
    obtain ⟨htake, hkeep⟩ := takeRef_file htype hnt hpos path
    exact ⟨⟨htakes.trans htake, by rw [hkeep]; exact hlimit⟩, hkeep, htake.length.le⟩

/-- A page of files. -/
theorem getRegularRefs_files (hserves : ServesRefs tree getRefs) (hv : ∀ c ∈ dir, ValidName c)
    {seen rest : List Entry} {offset : GoString} (hfrom : ¬ offset < absPath dir)
    (hcur : Paging.Cursor Entry.path (filesBelow tree dir) seen rest offset) {limit : ℤ}
    (hlimit : 1 ≤ limit) :
    ∃ oResult, getRegularRefs getRefs (absPath dir) offset (some .file) limit = .ok oResult ∧
      oResult.refs = (rest.take limit.toNat).map Entry.toRef ∧
      ∀ e, (rest.take limit.toNat).getLast? = some e → oResult.offsetPath = e.path := by
  obtain ⟨oResult, hok, hrefs, hlast⟩ :=
    hserves (absPath dir) offset (some .file) 0 limit hfrom hlimit
  rw [matching_files hv, hcur.filter_eq fun e => decide_eq_true_iff] at hrefs
  refine ⟨oResult, ?_, hrefs, ?_⟩
  · rw [getRegularRefs, clean_absPath_any hv, refsLevel_files, hok]
  · intro e he
    refine hlast e.toRef ?_
    rw [hrefs, List.getLast?_map, he, Option.map_some]

/-- **The files of a directory**, page by page: they are taken until the listing is full or nothing
is left. -/
theorem listDirectory_files (hserves : ServesRefs tree getRefs) (hv : ∀ c ∈ dir, ValidName c)
    (hpos : 0 < maxRefs) (fuel : ℕ) {seen rest : List Entry} {offset : GoString}
    (hfuel : rest.length < fuel) (hfrom : ¬ offset < absPath dir)
    (hcur : Paging.Cursor Entry.path (filesBelow tree dir) seen rest offset)
    (hgo : Going maxRefs s) :
    ∃ s' taken left, listDirectory getRefs (some .file) maxRefs false (absPath dir) fuel offset s =
        some (.ok s') ∧ taken ++ left = rest ∧ TakesFiles maxRefs s s' taken ∧
      (s'.isTruncated = false → left = []) := by
  have hmem : ∀ {seen rest : List Entry} {offset : GoString} {e : Entry},
      Paging.Cursor Entry.path (filesBelow tree dir) seen rest offset → e ∈ rest →
      e ∈ tree.entries ∧ e.type = .file ∧ e.Below dir := by
    intro seen rest offset e hcur he
    refine mem_filesBelow_iff.mp ?_
    rw [← hcur.split]
    exact List.mem_append_right seen he
  have hstart : TakesFiles maxRefs s s [] := by
    refine ⟨by simp, rfl, ?_⟩
    simpa [hgo.not_truncated] using hgo.lt_maxRefs
  obtain ⟨s', taken, left, hrun, hsplit, htakes, hend⟩ :=
    (takesFiles_collects hpos (absPath dir)).listDirectory
      (fun rest offset => ¬ offset < absPath dir ∧
        ∃ seen, Paging.Cursor Entry.path (filesBelow tree dir) seen rest offset)
      (fun ⟨hfrom, _, hcur⟩ hone => getRegularRefs_files hserves hv hfrom hcur hone)
      (by
        rintro rest offset page left e ⟨-, seen, hcur⟩ hsplit he
        have hrest : e ∈ rest := hsplit ▸ List.mem_append_left left (List.mem_of_getLast? he)
        obtain ⟨hentry, -, hbelow⟩ := hmem hcur hrest
        exact ⟨lt_asymm (absPath_lt_path hentry hbelow), _,
          hcur.advance (filesBelow_sorted tree dir) hsplit he⟩)
      (fun ⟨_, _, hcur⟩ he => (hmem hcur he).2.1)
      fuel hfuel ⟨hfrom, seen, hcur⟩ ⟨hstart, hgo.one_le_limit⟩ hgo.not_truncated
  exact ⟨s', taken, left, hrun, hsplit, htakes.1, hend⟩

/-- **The files below a directory**, which may be the root: all of them, or as many as fit. -/
theorem listRegularRefs_files (hserves : ServesRefs tree getRefs) (hv : ∀ c ∈ dir, ValidName c)
    (hpos : 0 < maxRefs) {fuel : ℕ} (hfuel : tree.entries.length + 2 ≤ fuel) :
    ∃ answer taken left,
      listRegularRefs getRefs fuel (absPath dir) [] (some .file) maxRefs false = some (.ok answer) ∧
      taken ++ left = filesBelow tree dir ∧
      answer.refs.map refView = taken.map (fun e => (e.path, .file)) ∧
      (left = [] ∨ maxRefs ≤ taken.length) := by
  have hcount : (filesBelow tree dir).length ≤ tree.entries.length := List.length_filter_le _ _
  obtain ⟨fuel, rfl⟩ : ∃ k, fuel = k + 1 + 1 := ⟨fuel - 2, by omega⟩
  obtain ⟨directories, hpop, hempty⟩ := init_pop (absPath dir)
  set s₀ : ListState := { ListState.init (absPath dir) with directories := directories } with hs₀
  have hstart : Paging.Cursor Entry.path (filesBelow tree dir) [] (filesBelow tree dir)
      (absPath dir) := by
    refine Paging.Cursor.start fun e he => ?_
    obtain ⟨hentry, -, hbelow⟩ := mem_filesBelow_iff.mp he
    exact absPath_lt_path hentry hbelow
  have hlimit : (1 : ℤ) ≤ s₀.listPageLimit := by
    show (1 : ℤ) ≤ pageLimit
    decide
  obtain ⟨s', taken, left, hrun, hsplit, htakes, hend⟩ :=
    listDirectory_files hserves hv hpos (fuel + 1 + 1) (s := s₀) (by omega) (lt_irrefl _) hstart
      ⟨rfl, hpos, hlimit⟩
  have hlists : listDirectories getRefs (some .file) maxRefs false (fuel + 1 + 1) []
      (.init (absPath dir)) = some (.ok s') := by
    have hoff : startOffset (absPath dir) [] = absPath dir := if_neg (by simp)
    rw [listDirectories, if_neg (by simp [ListState.init]), hpop]
    simp only [← hs₀, hoff, hrun]
    rw [listDirectories]
    split
    · rfl
    · rw [htakes.directories, hempty]
  refine ⟨s'.page (absPath dir), taken, left, ?_, hsplit, htakes.refs, ?_⟩
  · rw [listRegularRefs, clean_absPath_any hv, hlists]
    rfl
  · cases htr : s'.isTruncated with
    | false => exact Or.inl (hend htr)
    | true =>
      have hlen : s'.refs.length = 0 + taken.length := htakes.length
      have hfull := htakes.truncated.mp htr
      exact Or.inr (by omega)

end Files

/-! ### The files at the path of a prefix -/

section Names

variable {bucket objPrefix : GoString}

/-- The names of the directory that is a bucket. -/
def bucketDir (bucket : GoString) : List GoString :=
  if bucket = rootBucketName then [] else [bucket]

/-- The names of the path that a prefix is turned into. -/
def prefixNames (bucket objPrefix : GoString) : List GoString :=
  cleanNames true (bucketDir bucket).reverse (split objPrefix)

/-- The name of an object below its bucket. -/
def objectKey (bucket : GoString) (e : Entry) : GoString :=
  relPath (e.names.drop (bucketDir bucket).length)

/-- The files at or below a path. -/
def filesAt (tree : RefTree) (dir : List GoString) : List Entry :=
  tree.entries.filter fun e => e.type == .file && dir.isPrefixOf e.names

/-- What `ListObjects` finds for a prefix; a prefix that ends in a separator does not name a file. -/
def foundFiles (tree : RefTree) (bucket objPrefix : GoString) : List Entry :=
  if [slash] <:+ objPrefix ∧ ⟨prefixNames bucket objPrefix, .file⟩ ∈ tree.entries then []
  else filesAt tree (prefixNames bucket objPrefix)

theorem mem_filesAt_iff {dir : List GoString} {e : Entry} :
    e ∈ filesAt tree dir ↔ e ∈ tree.entries ∧ e.type = .file ∧ dir <+: e.names := by
  simp [filesAt]

theorem remotePath_eq (hb : ∀ c ∈ bucketDir bucket, ValidName c) :
    remotePath bucket objPrefix = absPath (prefixNames bucket objPrefix) := by
  unfold remotePath prefixNames bucketDir at *
  split at hb
  · next h =>
    rw [if_pos h, if_pos h]
    exact join_root hb objPrefix
  · next h =>
    rw [if_neg h, if_neg h]
    exact join_root hb objPrefix

theorem prefixNames_valid (hb : ∀ c ∈ bucketDir bucket, ValidName c) :
    ∀ c ∈ prefixNames bucket objPrefix, ValidName c :=
  validName_of_mem_cleanNames (fun _ hc => no_slash_of_mem_split hc) _
    fun c hc => hb c (List.mem_reverse.mp hc)

theorem getRelativePathOfObj_absPath (hb : ∀ c ∈ bucketDir bucket, ValidName c)
    {names : List GoString} (hne : names ≠ []) (hv : ∀ c ∈ names, ValidName c) :
    getRelativePathOfObj (absPath names) bucket = relPath (names.drop (bucketDir bucket).length) := by
  unfold getRelativePathOfObj
  by_cases hroot : bucket = rootBucketName
  · have hdir : bucketDir bucket = [] := if_pos hroot
    have hpath : absPath names = lit "/" ++ relPath names := rfl
    rw [if_pos (Or.inr hroot), hdir, hpath, trimPrefix_append]
    rfl
  · have hdir : bucketDir bucket = [bucket] := if_neg hroot
    have hslash : bucket ≠ lit "/" := by
      rintro rfl
      exact (hb (lit "/") (by rw [hdir]; simp)).no_slash (by decide)
    rw [if_neg (by simp [hslash, hroot]), hdir, getCommonPrefix_absPath hne hv]
    simp

theorem getRelativePathOfObj_path (hb : ∀ c ∈ bucketDir bucket, ValidName c) {e : Entry}
    (he : e ∈ tree.entries) : getRelativePathOfObj e.path bucket = objectKey bucket e :=
  getRelativePathOfObj_absPath hb (tree.names_ne_nil e he) (tree.valid e he)

/-- Everything below a path of the tree makes it a directory. -/
theorem ancestor_mem {dir : List GoString} (hdir : dir ≠ []) :
    ∀ (rest : List GoString), rest ≠ [] → ∀ type, ⟨dir ++ rest, type⟩ ∈ tree.entries →
      ⟨dir, .dir⟩ ∈ tree.entries := by
  intro rest
  induction rest using List.reverseRecOn with
  | nil => exact fun h => absurd rfl h
  | append_singleton front c ih =>
    intro _ type hmem
    have hparent := tree.parents _ hmem (by simp [← List.append_assoc, hdir])
    rw [← List.append_assoc, List.dropLast_concat] at hparent
    by_cases hfront : front = []
    · rwa [hfront, List.append_nil] at hparent
    · exact ih hfront .dir hparent

/-- An entry is determined by its names. -/
theorem entry_unique {e e' : Entry} (he : e ∈ tree.entries) (he' : e' ∈ tree.entries)
    (h : e.names = e'.names) : e = e' := by
  have hnodup : (tree.entries.map Entry.path).Nodup :=
    List.pairwise_map.mpr (tree.sorted.imp fun hlt => ne_of_lt hlt)
  exact List.inj_on_of_nodup_map hnodup he he' (by rw [Entry.path, Entry.path, h])

/-- Nothing is below a file. -/
theorem names_eq_of_file {dir : List GoString} (hfile : ⟨dir, .file⟩ ∈ tree.entries) {e : Entry}
    (he : e ∈ tree.entries) (hbelow : dir <+: e.names) : e.names = dir := by
  have hdir : dir ≠ [] := tree.names_ne_nil _ hfile
  obtain ⟨rest, hrest⟩ := hbelow
  by_contra hne
  have hrest' : rest ≠ [] := by
    rintro rfl
    exact hne (by rw [← hrest, List.append_nil])
  have hd := ancestor_mem hdir rest hrest' e.type (by rw [hrest]; exact he)
  exact absurd (entry_unique hfile hd rfl) (by simp)

/-- What the lookup of a path finds. -/
inductive LookupResult (tree : RefTree) (names : List GoString) : Except RefError ORef → Prop
  | missing (hnone : ∀ e ∈ tree.entries, ¬ names <+: e.names) :
      LookupResult tree names (.error (pathDoesNotExist (absPath names)))
  | file (e : Entry) (he : e ∈ tree.entries) (hnames : e.names = names) (htype : e.type = .file) :
      LookupResult tree names (.ok e.toRef)
  | dir (ref : ORef) (htype : ref.type = .dir) (hfile : ⟨names, .file⟩ ∉ tree.entries) :
      LookupResult tree names (.ok ref)

theorem getSingleRegularRef_spec (hlook : ServesLookup tree getRefs)
    (hv : ∀ c ∈ names, ValidName c) :
    LookupResult tree names (getSingleRegularRef getRefs (absPath names)) := by
  by_cases hne : names = []
  · subst hne
    rcases hlook.root with ⟨oResult, ref, hok, hrefs, htype⟩ | ⟨hempty, hmiss⟩
    · rw [getSingleRegularRef_found hv hok hrefs]
      exact .dir ref htype fun hmem => tree.names_ne_nil _ hmem rfl
    · rw [getSingleRegularRef_missing hv hmiss]
      exact .missing fun e he => absurd he (by rw [hempty]; simp)
  · by_cases hmem : ∃ e ∈ tree.entries, e.names = names
    · obtain ⟨e, he, rfl⟩ := hmem
      obtain ⟨oResult, hok, hrefs⟩ := hlook.found e he
      rw [getSingleRegularRef_found hv hok hrefs]
      cases htype : e.type with
      | file => exact .file e he rfl htype
      | dir =>
        refine .dir e.toRef htype fun hfile => ?_
        exact absurd (congrArg Entry.type (entry_unique he hfile rfl)) (by simp [htype])
    · push Not at hmem
      rw [getSingleRegularRef_missing hv (hlook.missing names hne hv hmem)]
      refine .missing fun e he hbelow => ?_
      obtain ⟨rest, hrest⟩ := hbelow
      have hrest' : rest ≠ [] := by
        rintro rfl
        exact hmem e he (by rw [← hrest, List.append_nil])
      have hdir := ancestor_mem hne rest hrest' e.type (by rw [hrest]; exact he)
      exact hmem _ hdir rfl

/-- The files at a path where no file is are those below it. -/
theorem filesAt_of_not_file (hfile : ⟨names, .file⟩ ∉ tree.entries) :
    filesAt tree names = filesBelow tree names := by
  refine List.filter_congr fun e he => ?_
  rw [Bool.eq_iff_iff]
  simp only [Bool.and_eq_true, beq_iff_eq, List.isPrefixOf_iff_prefix, decide_eq_true_iff]
  constructor
  · rintro ⟨htype, hbelow⟩
    refine ⟨⟨htype, hbelow⟩, lt_of_le_of_ne hbelow.length_le fun hlen => hfile ?_⟩
    have hnames : names = e.names := hbelow.eq_of_length hlen
    rw [hnames, ← htype]
    exact he
  · rintro ⟨h, -⟩
    exact h

theorem eq_singleton_of_nodup {α : Type*} {l : List α} {x : α} (hnodup : l.Nodup) (hmem : x ∈ l)
    (hall : ∀ y ∈ l, y = x) : l = [x] := by
  cases l with
  | nil => exact absurd hmem (by simp)
  | cons a l =>
    obtain rfl := hall a List.mem_cons_self
    have hnil : l = [] := by
      refine List.eq_nil_iff_forall_not_mem.mpr fun y hy => ?_
      have hy' := hall y (List.mem_cons_of_mem a hy)
      exact (List.nodup_cons.mp hnodup).1 (hy' ▸ hy)
    rw [hnil]

/-- At a file there is only this file. -/
theorem filesAt_of_file {e : Entry} (he : e ∈ tree.entries) (hnames : e.names = names)
    (htype : e.type = .file) : filesAt tree names = [e] := by
  have hfile : ⟨names, .file⟩ ∈ tree.entries := by rw [← hnames, ← htype]; exact he
  have hnodup : (filesAt tree names).Nodup :=
    (tree.sorted.filter _).imp fun hlt h => absurd (h ▸ hlt) (lt_irrefl _)
  refine eq_singleton_of_nodup hnodup (mem_filesAt_iff.mpr ⟨he, htype, by rw [hnames]⟩) ?_
  intro x hx
  obtain ⟨hmem, -, hbelow⟩ := mem_filesAt_iff.mp hx
  exact entry_unique hmem he ((names_eq_of_file hfile hmem hbelow).trans hnames.symm)

/-- Every ref taken is a file, and its name is the key of its entry. -/
theorem listedObject_names (hb : ∀ c ∈ bucketDir bucket, ValidName c) (refs : List ORef) :
    ∀ es : List Entry, (∀ e ∈ es, e ∈ tree.entries) →
      refs.map refView = es.map (fun e => (e.path, RefType.file)) →
      (refs.filterMap (listedObject bucket)).map ListedObject.name = es.map (objectKey bucket) := by
  induction refs with
  | nil =>
    intro es _ h
    rw [List.map_eq_nil_iff.mp h.symm]
    rfl
  | cons ref refs ih =>
    intro es hes h
    cases es with
    | nil => exact absurd h (by simp)
    | cons e es =>
      obtain ⟨hhead, htail⟩ := List.cons.inj h
      obtain ⟨hpath, hfile⟩ := Prod.mk.inj hhead
      have hobj : listedObject bucket ref = some ⟨bucket, objectKey bucket e⟩ := by
        simp only [listedObject, hfile, hpath]
        rw [getRelativePathOfObj_path hb (hes e List.mem_cons_self)]
      rw [List.filterMap_cons_some hobj, List.map_cons, List.map_cons,
        ih es (fun x hx => hes x (List.mem_cons_of_mem e hx)) htail]

/-- **The names that `ListObjects` returns** without delimiter and marker: those of the files found
at the path of the prefix, or `maxKeys` of them. -/
theorem listObjects_names (hserves : ServesRefs tree getRefs) (hlook : ServesLookup tree getRefs)
    (objPrefix : GoString) (hb : ∀ c ∈ bucketDir bucket, ValidName c) {maxKeys : ℤ}
    (hpos : 0 < maxKeys) {fuel : ℕ}
    (hfuel : tree.entries.length + 2 ≤ fuel) :
    ∃ info taken left, listObjects getRefs fuel bucket objPrefix [] [] maxKeys = some (.ok info) ∧
      info.objects.map ListedObject.name = taken.map (objectKey bucket) ∧
      taken ++ left = foundFiles tree bucket objPrefix ∧ (left = [] ∨ maxKeys ≤ taken.length) := by
  set names := prefixNames bucket objPrefix with hnames
  have hv : ∀ c ∈ names, ValidName c := prefixNames_valid hb
  have hremote : remotePath bucket objPrefix = absPath names := remotePath_eq hb
  rw [listObjects, hremote, foundFiles, ← hnames]
  have hres := getSingleRegularRef_spec hlook hv
  generalize getSingleRegularRef getRefs (absPath names) = res at hres
  cases hres with
  | missing hnone =>
    have hnil : filesAt tree names = [] := by
      refine List.eq_nil_iff_forall_not_mem.mpr fun e he => ?_
      obtain ⟨hmem, -, hbelow⟩ := mem_filesAt_iff.mp he
      exact hnone e hmem hbelow
    have herr : isPathNoExistError (pathDoesNotExist (absPath names)) = true := by
      simp [isPathNoExistError, pathDoesNotExist]
    refine ⟨.empty, [], [], by simp only [herr, if_true], rfl, ?_, Or.inl rfl⟩
    rw [hnil, ite_self]
    rfl
  | file e he hename htype =>
    have hmem : ⟨names, .file⟩ ∈ tree.entries := by rw [← hename, ← htype]; exact he
    have href : e.toRef.type = .file := htype
    simp only [href]
    by_cases hslash : [slash] <:+ objPrefix
    · rw [if_pos (List.isSuffixOf_iff_suffix.mpr hslash), if_pos ⟨hslash, hmem⟩]
      exact ⟨.empty, [], [], rfl, rfl, rfl, Or.inl rfl⟩
    · rw [if_neg (by rwa [List.isSuffixOf_iff_suffix]), if_neg fun h => hslash h.1,
        filesAt_of_file he hename htype]
      refine ⟨_, [e], [], rfl, ?_, rfl, Or.inl rfl⟩
      show [getRelativePathOfObj e.path bucket] = [objectKey bucket e]
      rw [getRelativePathOfObj_path hb he]
  | dir ref htype hfile =>
    rw [if_neg fun h => hfile h.2, filesAt_of_not_file hfile]
    obtain ⟨answer, taken, left, hrun, hsplit, hrefs, hend⟩ :=
      listRegularRefs_files hserves hv hpos hfuel
    have hkind : listFileType (bucket == rootBucketName) [] = some .file := if_pos (Or.inr rfl)
    simp only [htype, hkind]
    refine ⟨_, taken, left, by rw [show (([] : GoString) != []) = false from rfl, hrun]; rfl, ?_,
      hsplit, hend⟩
    have hin : ∀ e ∈ taken, e ∈ tree.entries := by
      intro e he
      have hmem : e ∈ filesBelow tree names := by rw [← hsplit]; exact List.mem_append_left left he
      exact (mem_filesBelow_iff.mp hmem).1
    exact listedObject_names hb answer.refs taken hin hrefs

end Names

end Zs3Server.Gateway.ListObjects
