import Zs3Server.Gateway.ListObjects

/-!
# Listing the objects with a prefix

A listing by prefix is about strings: `ab` is a prefix of the keys `abc` and `ab/c`, whatever lies at the
path `ab`.  `ListObjects` lists what lies at the path.

* `objectKey_injective`, `prefix_objectKey_iff` — keys and names;
* `prefixNames_eq` — the names on the path of a prefix;
* `listObjects_prefix_iff` — when the files at the path are the keys that start with the prefix.
-/

namespace Zs3Server.Gateway.ListObjects

open Lib.ByteString
open Lib.GoPath
open Gateway.ListRefs

variable {tree : RefTree} {getRefs : GetRefs RefError} {names : List GoString}

/-! ### Listing by prefix -/

section Prefixes

variable {bucket objPrefix : GoString}

/-- The objects of a bucket. -/
def bucketFiles (tree : RefTree) (bucket : GoString) : List Entry :=
  filesBelow tree (bucketDir bucket)

/-- **Listing by prefix**: the names listed are the keys of the bucket that start with the prefix. -/
def ListsPrefix (tree : RefTree) (bucket objPrefix : GoString) (listed : List GoString) : Prop :=
  listed.Nodup ∧ ∀ name, name ∈ listed ↔
    ∃ e ∈ bucketFiles tree bucket, objectKey bucket e = name ∧ objPrefix <+: name

/-- The elements of a prefix before its last one. -/
def dirPart (objPrefix : GoString) : List GoString := (split objPrefix).dropLast

/-- The last element of a prefix, after its last separator. -/
def lastPart (objPrefix : GoString) : GoString := (split objPrefix).getLast (split_ne_nil objPrefix)

/-- The elements of the prefix can be names, up to the last one, which may be empty. -/
def CleanPrefix (objPrefix : GoString) : Prop :=
  (∀ d ∈ dirPart objPrefix, ValidName d) ∧ (lastPart objPrefix = [] ∨ ValidName (lastPart objPrefix))

instance (objPrefix : GoString) : Decidable (CleanPrefix objPrefix) := by
  unfold CleanPrefix
  infer_instance

/-- **When the path of a prefix stands for the prefix.**  For a clean prefix: no object has, in place of
the last element of the prefix, a longer name that starts with it.  For a prefix with an empty
element before its end, or with `.` or `..`: the names of every file at the cleaned path go on from those
of the prefix, the last one, `.` or `..`, being the start of a name.  With such an element before the last
one there is then no file at the cleaned path. -/
def PathStandsForPrefix (tree : RefTree) (bucket objPrefix : GoString) : Prop :=
  if CleanPrefix objPrefix then
    ∀ e ∈ bucketFiles tree bucket, ∀ c tail,
      e.names = bucketDir bucket ++ dirPart objPrefix ++ c :: tail →
      lastPart objPrefix ≠ [] → lastPart objPrefix <+: c → c = lastPart objPrefix
  else
    ∀ e ∈ tree.entries, e.type = .file → prefixNames bucket objPrefix <+: e.names →
      ([slash] <:+ objPrefix → e.names ≠ prefixNames bucket objPrefix) →
      ∃ c tail, e.names = bucketDir bucket ++ dirPart objPrefix ++ c :: tail ∧ lastPart objPrefix <+: c

theorem split_eq_parts (objPrefix : GoString) :
    split objPrefix = dirPart objPrefix ++ [lastPart objPrefix] :=
  (List.dropLast_append_getLast (split_ne_nil objPrefix)).symm

theorem relPath_parts (objPrefix : GoString) :
    relPath (dirPart objPrefix ++ [lastPart objPrefix]) = objPrefix := by
  rw [← split_eq_parts, relPath_split]

theorem dirPart_no_slash (objPrefix : GoString) : ∀ d ∈ dirPart objPrefix, slash ∉ d := fun _ hd =>
  no_slash_of_mem_split (List.mem_of_mem_dropLast hd)

theorem lastPart_no_slash (objPrefix : GoString) : slash ∉ lastPart objPrefix :=
  no_slash_of_mem_split (List.getLast_mem _)

/-- The names of an object below its bucket. -/
theorem key_names {e : Entry} (he : e ∈ bucketFiles tree bucket) :
    ∃ rest, rest ≠ [] ∧ e.names = bucketDir bucket ++ rest ∧ objectKey bucket e = relPath rest ∧
      ∀ c ∈ rest, ValidName c := by
  obtain ⟨hmem, -, rest, hne, hnames⟩ := mem_filesBelow_iff.mp he
  refine ⟨rest, hne, hnames, ?_, fun c hc => tree.valid e hmem c ?_⟩
  · rw [objectKey, hnames, List.drop_left]
  · rw [hnames]
    exact List.mem_append_right _ hc

theorem objectKey_injective {e e' : Entry} (he : e ∈ bucketFiles tree bucket)
    (he' : e' ∈ bucketFiles tree bucket) (h : objectKey bucket e = objectKey bucket e') : e = e' := by
  obtain ⟨rest, hne, hnames, hkey, hv⟩ := key_names he
  obtain ⟨rest', hne', hnames', hkey', hv'⟩ := key_names he'
  refine entry_unique (mem_filesBelow_iff.mp he).1 (mem_filesBelow_iff.mp he').1 ?_
  rw [hkey, hkey'] at h
  rw [hnames, hnames', ← split_relPath hne hv, h, split_relPath hne' hv']

/-- **The objects with a prefix**: their names go on from the elements of the prefix. -/
theorem prefix_objectKey_iff {e : Entry} (he : e ∈ bucketFiles tree bucket) :
    objPrefix <+: objectKey bucket e ↔ ∃ c tail,
      e.names = bucketDir bucket ++ dirPart objPrefix ++ c :: tail ∧ lastPart objPrefix <+: c := by
  obtain ⟨rest, hne, hnames, hkey, hv⟩ := key_names he
  rw [hkey]
  conv_lhs => rw [← relPath_parts objPrefix]
  rw [relPath_prefix_iff (dirPart_no_slash objPrefix) (lastPart_no_slash objPrefix) hne hv]
  refine exists_congr fun c => exists_congr fun tail => and_congr_left fun _ => ?_
  rw [hnames, List.append_assoc, List.append_cancel_left_eq]

/-! ### Names and entries -/

/-- The listing is right if it takes all that is found, and this is what has the prefix; and once one
of the two is contained in the other, only then. -/
theorem listsPrefix_iff {taken left : List Entry} {maxKeys : ℤ}
    (hmax : (bucketFiles tree bucket).length < maxKeys)
    (hfound : taken ++ left = foundFiles tree bucket objPrefix)
    (hend : left = [] ∨ maxKeys ≤ taken.length)
    (hcase : (∀ e ∈ foundFiles tree bucket objPrefix,
        e ∈ bucketFiles tree bucket ∧ objPrefix <+: objectKey bucket e) ∨
      ∀ e ∈ bucketFiles tree bucket, objPrefix <+: objectKey bucket e →
        e ∈ foundFiles tree bucket objPrefix) :
    ListsPrefix tree bucket objPrefix (taken.map (objectKey bucket)) ↔
      ∀ e, e ∈ foundFiles tree bucket objPrefix ↔
        e ∈ bucketFiles tree bucket ∧ objPrefix <+: objectKey bucket e := by
  have hnodup : (foundFiles tree bucket objPrefix).Nodup := by
    unfold foundFiles
    split
    · exact List.nodup_nil
    · exact (tree.sorted.filter _).imp fun hlt h => absurd (h ▸ hlt) (lt_irrefl _)
  constructor
  · rintro ⟨hkeys, hmem⟩
    -- a full listing would have more names than the bucket has objects
    have hleft : left = [] := by
      refine hend.resolve_right fun hfull => ?_
      have hsub : taken.map (objectKey bucket) ⊆ (bucketFiles tree bucket).map (objectKey bucket) := by
        intro name hname
        obtain ⟨e, he, hkey, -⟩ := (hmem name).mp hname
        exact List.mem_map.mpr ⟨e, he, hkey⟩
      have hle := (hkeys.subperm hsub).length_le
      rw [List.length_map, List.length_map] at hle
      omega
    rw [hleft, List.append_nil] at hfound
    rw [← hfound] at hcase ⊢
    intro e
    constructor
    · intro he
      obtain ⟨e', he', hkey, hpre⟩ := (hmem (objectKey bucket e)).mp (List.mem_map_of_mem he)
      have hsame : e = e' := by
        rcases hcase with hsub | hsub
        · exact objectKey_injective (hsub e he).1 he' hkey.symm
        · exact List.inj_on_of_nodup_map hkeys he (hsub e' he' (hkey ▸ hpre)) hkey.symm
      exact ⟨hsame ▸ he', hpre⟩
    · rintro ⟨he, hpre⟩
      obtain ⟨e', he', hkey⟩ := List.mem_map.mp ((hmem (objectKey bucket e)).mpr ⟨e, he, rfl, hpre⟩)
      rcases hcase with hsub | hsub
      · rwa [← objectKey_injective (hsub e' he').1 he hkey]
      · exact hsub e he hpre
  · intro hiff
    have hleft : left = [] := by
      refine hend.resolve_right fun hfull => ?_
      have hsub : foundFiles tree bucket objPrefix ⊆ bucketFiles tree bucket :=
        fun e he => ((hiff e).mp he).1
      have hle := (hnodup.subperm hsub).length_le
      rw [← hfound, List.length_append] at hle
      omega
    rw [hleft, List.append_nil] at hfound
    rw [← hfound] at hiff hnodup
    refine ⟨hnodup.map_on fun e he e' he' h => ?_, fun name => ?_⟩
    · exact objectKey_injective ((hiff e).mp he).1 ((hiff e').mp he').1 h
    · rw [List.mem_map]
      constructor
      · rintro ⟨e, he, rfl⟩
        obtain ⟨hb, hpre⟩ := (hiff e).mp he
        exact ⟨e, hb, rfl, hpre⟩
      · rintro ⟨e, hb, rfl, hpre⟩
        exact ⟨e, (hiff e).mpr ⟨hb, hpre⟩, rfl⟩

/-! ### The path of a prefix -/

/-- A prefix ends in a separator exactly if its last element is empty and not its only one. -/
theorem slash_suffix_iff : [slash] <:+ objPrefix ↔ lastPart objPrefix = [] ∧ dirPart objPrefix ≠ [] := by
  have hparts := relPath_parts objPrefix
  by_cases hdir : dirPart objPrefix = []
  · have hlast : lastPart objPrefix = objPrefix := by
      rw [hdir] at hparts
      simpa [relPath] using hparts
    simp only [hdir, ne_eq, not_true_eq_false, and_false, iff_false]
    intro hsuf
    have hmem : slash ∈ lastPart objPrefix := by
      rw [hlast]
      exact hsuf.subset List.mem_cons_self
    exact lastPart_no_slash objPrefix hmem
  · rw [relPath_append hdir (by simp)] at hparts
    have hend : objPrefix = (relPath (dirPart objPrefix) ++ [slash]) ++ lastPart objPrefix := by
      conv_lhs => rw [← hparts]
      simp [relPath]
    simp only [hdir, ne_eq, not_false_eq_true, and_true]
    constructor
    · intro hsuf
      by_contra hne
      obtain ⟨front, x, hx⟩ := List.eq_nil_or_concat (lastPart objPrefix) |>.resolve_left hne
      rw [List.concat_eq_append] at hx
      rw [hend, hx, ← List.append_assoc] at hsuf
      obtain ⟨w, hw⟩ := hsuf
      have hlast := (List.append_inj' hw rfl).2
      exact lastPart_no_slash objPrefix (by rw [hx, ← hlast]; simp)
    · intro hnil
      rw [hend, hnil, List.append_nil]
      exact List.suffix_append _ _

/-- The cleaned path, in terms of the last element. -/
theorem prefixNames_eq (hd : ∀ d ∈ dirPart objPrefix, ValidName d) :
    prefixNames bucket objPrefix =
      cleanNames true (bucketDir bucket ++ dirPart objPrefix).reverse [lastPart objPrefix] := by
  rw [prefixNames, split_eq_parts, cleanNames_append, cleanNames_valid true hd, List.reverse_reverse]

theorem prefixNames_of_empty (hd : ∀ d ∈ dirPart objPrefix, ValidName d)
    (hq : lastPart objPrefix = [] ∨ lastPart objPrefix = lit ".") :
    prefixNames bucket objPrefix = bucketDir bucket ++ dirPart objPrefix := by
  rw [prefixNames_eq hd, cleanNames, if_pos hq, cleanNames, List.reverse_reverse]

theorem prefixNames_of_valid (hd : ∀ d ∈ dirPart objPrefix, ValidName d)
    (hq : ValidName (lastPart objPrefix)) :
    prefixNames bucket objPrefix = bucketDir bucket ++ dirPart objPrefix ++ [lastPart objPrefix] := by
  rw [prefixNames_eq hd, cleanNames_valid true (by simpa using hq), List.reverse_reverse]

/-- `..` leads to a directory above. -/
theorem prefixNames_of_dotdot (hb : ∀ c ∈ bucketDir bucket, ValidName c)
    (hd : ∀ d ∈ dirPart objPrefix, ValidName d) (hq : lastPart objPrefix = lit "..") :
    prefixNames bucket objPrefix <+: bucketDir bucket ++ dirPart objPrefix := by
  rw [prefixNames_eq hd, hq, cleanNames, if_neg (by decide), if_pos rfl, cleanNames]
  obtain hnil | ⟨front, c, hc⟩ := List.eq_nil_or_concat (bucketDir bucket ++ dirPart objPrefix)
  · rw [hnil]
    exact List.nil_prefix
  · rw [List.concat_eq_append] at hc
    have hvalid : ValidName c := by
      have hmem : c ∈ bucketDir bucket ++ dirPart objPrefix := by rw [hc]; simp
      rcases List.mem_append.mp hmem with h | h
      · exact hb c h
      · exact hd c h
    rw [hc, List.reverse_append, List.reverse_singleton, List.singleton_append, backUp,
      if_neg hvalid.ne_dotdot, List.reverse_reverse]
    exact List.prefix_append _ _

/-- A bucket is the root or a directory in it. -/
def IsBucket (tree : RefTree) (bucket : GoString) : Prop :=
  bucket = rootBucketName ∨ ⟨[bucket], .dir⟩ ∈ tree.entries

theorem IsBucket.valid (h : IsBucket tree bucket) : ∀ c ∈ bucketDir bucket, ValidName c := by
  unfold bucketDir
  split
  · simp
  · next hroot =>
    intro c hc
    exact tree.valid _ (h.resolve_left hroot) c hc

/-- A file whose names start with those of the bucket is in the bucket. -/
theorem IsBucket.mem_bucketFiles (h : IsBucket tree bucket) {e : Entry} (he : e ∈ tree.entries)
    (htype : e.type = .file) (hbelow : bucketDir bucket <+: e.names) :
    e ∈ bucketFiles tree bucket := by
  refine mem_filesBelow_iff.mpr ⟨he, htype, below_iff.mpr ⟨hbelow, ?_⟩⟩
  refine lt_of_le_of_ne hbelow.length_le fun hlen => ?_
  have hnames : bucketDir bucket = e.names := hbelow.eq_of_length hlen
  unfold bucketDir at hnames
  split at hnames
  · exact tree.names_ne_nil e he hnames.symm
  · next hroot =>
    have hsame := entry_unique he (h.resolve_left hroot) hnames.symm
    rw [hsame] at htype
    exact absurd htype (by simp)

/-- What is found, by the names. -/
theorem mem_foundFiles_iff {e : Entry} : e ∈ foundFiles tree bucket objPrefix ↔
    e ∈ tree.entries ∧ e.type = .file ∧ prefixNames bucket objPrefix <+: e.names ∧
      ([slash] <:+ objPrefix → e.names ≠ prefixNames bucket objPrefix) := by
  unfold foundFiles
  split
  · next hfile =>
    refine iff_of_false (by simp) ?_
    rintro ⟨he, -, hbelow, hne⟩
    -- below a file there is nothing else
    exact hne hfile.1 (names_eq_of_file hfile.2 he hbelow)
  · next hfile =>
    rw [mem_filesAt_iff]
    refine ⟨fun ⟨he, htype, hbelow⟩ => ⟨he, htype, hbelow, fun hslash hnames => hfile ⟨hslash, ?_⟩⟩,
      fun ⟨he, htype, hbelow, _⟩ => ⟨he, htype, hbelow⟩⟩
    rw [← hnames, ← htype]
    exact he

/-- A file is an object with the prefix exactly if its names go on from those of the prefix. -/
theorem IsBucket.prefix_iff (h : IsBucket tree bucket) {e : Entry} (he : e ∈ tree.entries)
    (htype : e.type = .file) :
    (e ∈ bucketFiles tree bucket ∧ objPrefix <+: objectKey bucket e) ↔ ∃ c tail,
      e.names = bucketDir bucket ++ dirPart objPrefix ++ c :: tail ∧ lastPart objPrefix <+: c := by
  constructor
  · rintro ⟨hin, hpre⟩
    exact (prefix_objectKey_iff hin).mp hpre
  · rintro ⟨c, tail, hnames, hc⟩
    have hin : e ∈ bucketFiles tree bucket := by
      refine h.mem_bucketFiles he htype ?_
      rw [hnames, List.append_assoc]
      exact List.prefix_append _ _
    exact ⟨hin, (prefix_objectKey_iff hin).mpr ⟨c, tail, hnames, hc⟩⟩

/-- What is found for a clean prefix has the prefix. -/
theorem found_of_clean (hbucket : IsBucket tree bucket) (hclean : CleanPrefix objPrefix) {e : Entry}
    (he : e ∈ foundFiles tree bucket objPrefix) :
    e ∈ bucketFiles tree bucket ∧ objPrefix <+: objectKey bucket e := by
  obtain ⟨hd, hq⟩ := hclean
  unfold foundFiles at he
  split at he
  · exact absurd he (by simp)
  · next hslash =>
    obtain ⟨hmem, htype, hbelow⟩ := mem_filesAt_iff.mp he
    by_cases hnil : lastPart objPrefix = []
    · rw [prefixNames_of_empty hd (Or.inl hnil)] at hslash hbelow
      have hin : e ∈ bucketFiles tree bucket :=
        hbucket.mem_bucketFiles hmem htype ((List.prefix_append _ _).trans hbelow)
      refine ⟨hin, (prefix_objectKey_iff hin).mpr ?_⟩
      obtain ⟨rest, hrest⟩ := hbelow
      cases rest with
      | cons c tail => exact ⟨c, tail, hrest.symm, by rw [hnil]; exact List.nil_prefix⟩
      | nil =>
        -- the path itself is a file, so the prefix has to be empty, and the file is the bucket
        rw [List.append_nil] at hrest
        have hfile : ⟨bucketDir bucket ++ dirPart objPrefix, .file⟩ ∈ tree.entries := by
          rw [hrest, ← htype]
          exact hmem
        have hdir : dirPart objPrefix = [] := by
          by_contra hne
          exact hslash ⟨slash_suffix_iff.mpr ⟨hnil, hne⟩, hfile⟩
        obtain ⟨tail, hne, hnames⟩ := (mem_filesBelow_iff.mp hin).2.2
        rw [hdir, List.append_nil] at hrest
        rw [← hrest] at hnames
        exact absurd (List.self_eq_append_right.mp hnames) hne
    · have hv := hq.resolve_left hnil
      rw [prefixNames_of_valid hd hv] at hbelow
      have hin : e ∈ bucketFiles tree bucket := by
        refine hbucket.mem_bucketFiles hmem htype (List.IsPrefix.trans ?_ hbelow)
        rw [List.append_assoc]
        exact List.prefix_append _ _
      obtain ⟨tail, htail⟩ := hbelow
      refine ⟨hin, (prefix_objectKey_iff hin).mpr ⟨lastPart objPrefix, tail, ?_, List.prefix_rfl⟩⟩
      rw [← htail]
      simp

/-- For a clean prefix, an object with the prefix is found exactly if the last element of the prefix
is the whole of its name. -/
theorem mem_found_of_clean (hclean : CleanPrefix objPrefix)
    {e : Entry} (he : e ∈ bucketFiles tree bucket) {c : GoString} {tail : List GoString}
    (hnames : e.names = bucketDir bucket ++ dirPart objPrefix ++ c :: tail) :
    e ∈ foundFiles tree bucket objPrefix ↔ lastPart objPrefix = [] ∨ c = lastPart objPrefix := by
  obtain ⟨hd, hq⟩ := hclean
  obtain ⟨hmem, htype, -⟩ := mem_filesBelow_iff.mp he
  by_cases hnil : lastPart objPrefix = []
  · simp only [hnil, true_or, iff_true]
    have hbelow : prefixNames bucket objPrefix <+: e.names := by
      rw [prefixNames_of_empty hd (Or.inl hnil), hnames]
      exact List.prefix_append _ _
    rw [foundFiles, if_neg]
    · exact mem_filesAt_iff.mpr ⟨hmem, htype, hbelow⟩
    · rintro ⟨-, hfile⟩
      have hsame := names_eq_of_file hfile hmem hbelow
      rw [prefixNames_of_empty hd (Or.inl hnil), hnames] at hsame
      exact absurd (congrArg List.length hsame) (by simp)
  · have hv := hq.resolve_left hnil
    have hslash : ¬ ([slash] <:+ objPrefix ∧ ⟨prefixNames bucket objPrefix, .file⟩ ∈ tree.entries) :=
      fun h => hnil (slash_suffix_iff.mp h.1).1
    rw [foundFiles, if_neg hslash, mem_filesAt_iff, prefixNames_of_valid hd hv, hnames,
      List.prefix_append_right_inj, List.cons_prefix_cons]
    simp [hmem, htype, hnil, eq_comm]

/-- An object with a prefix that is not clean is found: its names do not go on from `.` or `..`, and
nothing else is left for the last element. -/
theorem found_of_not_clean (hb : ∀ c ∈ bucketDir bucket, ValidName c)
    (hclean : ¬ CleanPrefix objPrefix) {e : Entry} (he : e ∈ bucketFiles tree bucket)
    (hpre : objPrefix <+: objectKey bucket e) : e ∈ foundFiles tree bucket objPrefix := by
  obtain ⟨c, tail, hnames, hc⟩ := (prefix_objectKey_iff he).mp hpre
  obtain ⟨hmem, htype, -⟩ := mem_filesBelow_iff.mp he
  have hd : ∀ d ∈ dirPart objPrefix, ValidName d := by
    intro d hd
    refine tree.valid e hmem d ?_
    rw [hnames]
    simp [hd]
  have hq : lastPart objPrefix ≠ [] ∧ ¬ ValidName (lastPart objPrefix) := by
    refine ⟨fun h => hclean ⟨hd, Or.inl h⟩, fun h => hclean ⟨hd, Or.inr h⟩⟩
  have hdots : lastPart objPrefix = lit "." ∨ lastPart objPrefix = lit ".." := by
    by_contra hcon
    push Not at hcon
    exact hq.2 ⟨hq.1, lastPart_no_slash objPrefix, hcon.1, hcon.2⟩
  have hbelow : prefixNames bucket objPrefix <+: bucketDir bucket ++ dirPart objPrefix := by
    rcases hdots with h | h
    · rw [prefixNames_of_empty hd (Or.inr h)]
    · exact prefixNames_of_dotdot hb hd h
  rw [foundFiles, if_neg fun h => hq.1 (slash_suffix_iff.mp h.1).1]
  refine mem_filesAt_iff.mpr ⟨hmem, htype, hbelow.trans ?_⟩
  rw [hnames]
  exact List.prefix_append _ _

/-- **When `ListObjects` obeys prefix semantics.**  In a bucket, for any prefix, without delimiter and
with `maxKeys` larger than the number of objects, the names returned are the keys that start with
the prefix exactly if the path of the prefix stands for it. -/
theorem listObjects_prefix_iff (tree : RefTree) (getRefs : GetRefs RefError)
    (hserves : ServesRefs tree getRefs) (hlook : ServesLookup tree getRefs) (bucket : GoString)
    (hbucket : IsBucket tree bucket) (objPrefix : GoString) (maxKeys : ℤ)
    (hmax : (bucketFiles tree bucket).length < maxKeys) (fuel : ℕ)
    (hfuel : tree.entries.length + 2 ≤ fuel) :
    ∃ info, listObjects getRefs fuel bucket objPrefix [] [] maxKeys = some (.ok info) ∧
      (ListsPrefix tree bucket objPrefix (info.objects.map ListedObject.name) ↔
        PathStandsForPrefix tree bucket objPrefix) := by
  obtain ⟨info, taken, left, hrun, hnames, hfound, hend⟩ :=
    listObjects_names hserves hlook objPrefix hbucket.valid
      (lt_of_le_of_lt (Int.natCast_nonneg _) hmax) hfuel
  refine ⟨info, hrun, ?_⟩
  rw [hnames, PathStandsForPrefix]
  by_cases hclean : CleanPrefix objPrefix
  · rw [if_pos hclean, listsPrefix_iff hmax hfound hend
      (Or.inl fun e he => found_of_clean hbucket hclean he)]
    constructor
    · intro hiff e he c tail hn hne hc
      have hin := (hiff e).mpr ⟨he, (prefix_objectKey_iff he).mpr ⟨c, tail, hn, hc⟩⟩
      exact ((mem_found_of_clean hclean he hn).mp hin).resolve_left hne
    · intro hall e
      refine ⟨found_of_clean hbucket hclean, fun ⟨he, hpre⟩ => ?_⟩
      obtain ⟨c, tail, hn, hc⟩ := (prefix_objectKey_iff he).mp hpre
      rw [mem_found_of_clean hclean he hn]
      by_cases hnil : lastPart objPrefix = []
      · exact Or.inl hnil
      · exact Or.inr (hall e he c tail hn hnil hc)
  · have hsub : ∀ e ∈ bucketFiles tree bucket, objPrefix <+: objectKey bucket e →
        e ∈ foundFiles tree bucket objPrefix :=
      fun e he hpre => found_of_not_clean hbucket.valid hclean he hpre
    rw [if_neg hclean, listsPrefix_iff hmax hfound hend (Or.inr hsub)]
    constructor
    · intro hiff e he htype hbelow hne
      have hfound := (hiff e).mp (mem_foundFiles_iff.mpr ⟨he, htype, hbelow, hne⟩)
      exact (hbucket.prefix_iff he htype).mp hfound
    · intro hall e
      refine ⟨fun hin => ?_, fun ⟨he, hpre⟩ => hsub e he hpre⟩
      obtain ⟨he, htype, hbelow, hne⟩ := mem_foundFiles_iff.mp hin
      exact (hbucket.prefix_iff he htype).mpr (hall e he htype hbelow hne)

end Prefixes

/-! ### An allocation -/

/-- An allocation that answers as expected: a request from before the path is a lookup, any other one
is for a page of a listing. -/
def serveRefs (tree : RefTree) : GetRefs RefError := fun remotePath offsetPath type level limit =>
  if offsetPath < remotePath then
    if remotePath = absPath [] then .ok ⟨[⟨remotePath, .dir, remotePath⟩], remotePath⟩
    else
      match tree.entries.filter fun e => decide (e.path = remotePath) && decide (e.level = level) with
      | [] => .error (.zerror (lit "consensus_failed") (lit "path not found"))
      | e :: _ => .ok ⟨[e.toRef], e.path⟩
  else
    let refs := ((tree.matching remotePath offsetPath type level).take limit.toNat).map Entry.toRef
    .ok ⟨refs, (refs.getLast?.map ORef.path).getD offsetPath⟩

theorem serveRefs_servesRefs (tree : RefTree) : ServesRefs tree (serveRefs tree) := by
  intro remotePath offsetPath type level limit hfrom _
  refine ⟨_, if_neg hfrom, rfl, ?_⟩
  intro last hlast
  show Option.getD (Option.map _ _) _ = _
  rw [hlast, Option.map_some, Option.getD_some]

theorem serveRefs_servesLookup (tree : RefTree) : ServesLookup tree (serveRefs tree) := by
  have hbefore : ∀ names : List GoString, ([] : GoString) < absPath names :=
    fun names => List.nil_lt_cons slash (relPath names)
  refine ⟨?_, ?_, Or.inl ?_⟩
  · intro e he
    have hne : e.path ≠ absPath [] := by
      intro h
      exact relPath_ne_nil (tree.names_ne_nil e he) (tree.valid e he) (List.cons.inj h).2
    have hnodup : (tree.entries.filter fun x =>
        decide (x.path = e.path) && decide (x.level = e.level)).Nodup :=
      (tree.sorted.filter _).imp fun hlt h => absurd (h ▸ hlt) (lt_irrefl _)
    have hfilter : tree.entries.filter (fun x =>
        decide (x.path = e.path) && decide (x.level = e.level)) = [e] := by
      refine eq_singleton_of_nodup hnodup (by simp [he]) fun x hx => ?_
      obtain ⟨hx, hpath⟩ : x ∈ tree.entries ∧ x.path = e.path ∧ x.level = e.level := by
        simpa using hx
      refine entry_unique hx he ?_
      have hs := congrArg split hpath.1
      rw [Entry.path, Entry.path, split_absPath (tree.names_ne_nil x hx) (tree.valid x hx),
        split_absPath (tree.names_ne_nil e he) (tree.valid e he)] at hs
      exact (List.cons.inj hs).2
    refine ⟨⟨[e.toRef], e.path⟩, ?_, rfl⟩
    have hlt : ([] : GoString) < e.path := hbefore e.names
    rw [serveRefs, if_pos hlt, if_neg hne, hfilter]
  · intro names hne hv hnone
    have hroot : absPath names ≠ absPath [] := fun h => relPath_ne_nil hne hv (List.cons.inj h).2
    have hfilter : tree.entries.filter (fun x =>
        decide (x.path = absPath names) && decide (x.level = names.length + 1)) = [] := by
      rw [List.filter_eq_nil_iff]
      intro x hx hcond
      have hpath : x.path = absPath names := (by simpa using hcond : _ ∧ _).1
      have hs := congrArg split hpath
      rw [Entry.path, split_absPath (tree.names_ne_nil x hx) (tree.valid x hx),
        split_absPath hne hv] at hs
      exact hnone x hx (List.cons.inj hs).2
    have herr : serveRefs tree (absPath names) [] none (names.length + 1) 1 =
        .error (.zerror (lit "consensus_failed") (lit "path not found")) := by
      rw [serveRefs, if_pos (hbefore names), if_neg hroot, hfilter]
    exact Or.inr ⟨_, herr, by decide⟩
  · have hok : serveRefs tree (absPath []) [] none 1 1 =
        .ok ⟨[⟨absPath [], .dir, absPath []⟩], absPath []⟩ := by
      rw [serveRefs, if_pos (hbefore []), if_pos rfl]
    exact ⟨_, _, hok, rfl, rfl⟩

/-- The bucket `b` with the file `abc` and a directory `d` with one file. -/
def prefixTree : RefTree where
  entries :=
    [⟨[lit "b"], .dir⟩, ⟨[lit "b", lit "abc"], .file⟩, ⟨[lit "b", lit "d"], .dir⟩,
      ⟨[lit "b", lit "d", lit "x"], .file⟩]
  sorted := by decide
  names_ne_nil := by decide
  valid := by decide
  parents := by decide

/-- The prefix `d/` is listed as it should be. -/
theorem listObjects_prefix_dir :
    ∃ info, listObjects (serveRefs prefixTree) 6 (lit "b") (lit "d/") [] [] 3 = some (.ok info) ∧
      ListsPrefix prefixTree (lit "b") (lit "d/") (info.objects.map ListedObject.name) := by
  obtain ⟨info, hrun, hiff⟩ := listObjects_prefix_iff prefixTree (serveRefs prefixTree)
    (serveRefs_servesRefs prefixTree) (serveRefs_servesLookup prefixTree) (lit "b")
    (Or.inr (by decide)) (lit "d/") 3 (by decide) 6 (by decide)
  refine ⟨info, hrun, hiff.mpr ?_⟩
  rw [PathStandsForPrefix, if_pos (by decide)]
  intro e _ c tail _ hne
  exact absurd (by decide) hne

/-- **The prefix `ab` lists nothing although the bucket has the object `abc`.** -/
theorem listObjects_prefix_partial :
    listObjects (serveRefs prefixTree) 6 (lit "b") (lit "ab") [] [] 3 = some (.ok .empty) ∧
      ¬ ListsPrefix prefixTree (lit "b") (lit "ab") (ListObjectsInfo.empty.objects.map
        ListedObject.name) := by
  refine ⟨by decide, fun h => ?_⟩
  have hmem : lit "abc" ∈ ListObjectsInfo.empty.objects.map ListedObject.name :=
    (h.2 (lit "abc")).mpr ⟨⟨[lit "b", lit "abc"], .file⟩, by decide, by decide, by decide⟩
  exact absurd hmem (by decide)

end Zs3Server.Gateway.ListObjects
