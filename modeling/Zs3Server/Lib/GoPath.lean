import Zs3Server.Lib.ByteString

/-!
# Slash-separated paths

The functions of `path/filepath` (for Unix) and `strings.Split` on paths, by their documented
behaviour, and the clean paths on which they are simple: the absolute path `absPath names` and the
relative path `relPath names` of a list of valid names.

* `split`, `clean`, `join` — as in `strings` and `filepath`;
* `split_absPath` — the names of a path;
* `clean_absPath`, `clean_relPath` — clean paths are clean;
* `join_absPath`, `join_relPath` — joining clean paths appends their names;
* `trimPrefix_absPath` — what is left of a path below a directory;
* `absPath_slash_prefix_iff` — the paths below a directory;
* `absPath_lt` — a directory comes before everything below it.
-/

namespace Zs3Server.Lib.GoPath

open Lib.ByteString

/-- The separator. -/
def slash : UInt8 := 47

/-- `strings.Split(s, "/")`. -/
def split (s : GoString) : List GoString := s.splitOn slash

/-- The relative path of some names; the empty string if there are none. -/
def relPath (names : List GoString) : GoString := [slash].intercalate names

/-- The absolute path of some names. -/
def absPath (names : List GoString) : GoString := slash :: relPath names

/-- What `..` does to the names before it (the last one first): it takes one away, or stays where
there is none and the path is relative. -/
def backUp (rooted : Bool) : List GoString → List GoString
  | [] => if rooted then [] else [lit ".."]
  | top :: rest => if top = lit ".." then lit ".." :: top :: rest else rest

/-- The names left when `.` and empty elements are dropped and `..` is followed; `out` holds the names
so far, the last one first. -/
def cleanNames (rooted : Bool) (out : List GoString) : List GoString → List GoString
  | [] => out.reverse
  | c :: cs =>
    if c = [] ∨ c = lit "." then cleanNames rooted out cs
    else if c = lit ".." then cleanNames rooted (backUp rooted out) cs
    else cleanNames rooted (c :: out) cs

/-- `filepath.Clean`. -/
def clean (path : GoString) : GoString :=
  if path.head? = some slash then absPath (cleanNames true [] (split path))
  else if cleanNames false [] (split path) = [] then lit "."
  else relPath (cleanNames false [] (split path))

/-- `filepath.Join`: leading empty elements are skipped. -/
def join (elems : List GoString) : GoString :=
  match elems.dropWhile List.isEmpty with
  | [] => []
  | es => clean ([slash].intercalate es)

/-- A name that can stand in a path: not empty, without separator, not `.` or `..`. -/
structure ValidName (name : GoString) : Prop where
  ne_nil : name ≠ []
  no_slash : slash ∉ name
  ne_dot : name ≠ lit "."
  ne_dotdot : name ≠ lit ".."

instance (name : GoString) : Decidable (ValidName name) :=
  decidable_of_iff (name ≠ [] ∧ slash ∉ name ∧ name ≠ lit "." ∧ name ≠ lit "..")
    ⟨fun ⟨h₁, h₂, h₃, h₄⟩ => ⟨h₁, h₂, h₃, h₄⟩, fun ⟨h₁, h₂, h₃, h₄⟩ => ⟨h₁, h₂, h₃, h₄⟩⟩

/-! ### Putting paths together -/

theorem relPath_append {a b : List GoString} (ha : a ≠ []) (hb : b ≠ []) :
    relPath (a ++ b) = relPath a ++ slash :: relPath b := by
  induction a with
  | nil => exact absurd rfl ha
  | cons x a ih =>
    cases a with
    | nil =>
      obtain ⟨y, b, rfl⟩ := List.exists_cons_of_ne_nil hb
      simp [relPath, List.intercalate_cons_cons]
    | cons y a =>
      have h := ih (by simp)
      simp only [relPath, List.cons_append, List.intercalate_cons_cons] at h ⊢
      rw [h]
      simp [List.append_assoc]

theorem absPath_append {a b : List GoString} (ha : a ≠ []) (hb : b ≠ []) :
    absPath (a ++ b) = absPath a ++ slash :: relPath b := by
  rw [absPath, relPath_append ha hb, absPath, List.cons_append]

/-- What is left of a path below a directory, without the separator. -/
theorem trimPrefix_absPath {a b : List GoString} (ha : a ≠ []) (hb : b ≠ []) :
    trimPrefix (absPath (a ++ b)) (absPath a ++ [slash]) = relPath b := by
  have h : absPath (a ++ b) = (absPath a ++ [slash]) ++ relPath b := by
    rw [absPath_append ha hb, List.append_assoc, List.singleton_append]
  rw [h, trimPrefix_append]

theorem relPath_ne_nil {names : List GoString} (hne : names ≠ []) (hv : ∀ c ∈ names, ValidName c) :
    relPath names ≠ [] := by
  obtain ⟨c, cs, rfl⟩ := List.exists_cons_of_ne_nil hne
  have hc := (hv c List.mem_cons_self).ne_nil
  cases cs with
  | nil => simpa [relPath] using hc
  | cons d ds => simp [relPath, List.intercalate_cons_cons, hc]

/-! ### Taking paths apart -/

theorem split_relPath {names : List GoString} (hne : names ≠ []) (hv : ∀ c ∈ names, ValidName c) :
    split (relPath names) = names :=
  List.splitOn_intercalate slash (fun c hc => (hv c hc).no_slash) hne

theorem split_absPath {names : List GoString} (hne : names ≠ []) (hv : ∀ c ∈ names, ValidName c) :
    split (absPath names) = [] :: names := by
  have habs : absPath names = [slash].intercalate ([] :: names) := by
    obtain ⟨c, cs, rfl⟩ := List.exists_cons_of_ne_nil hne
    rw [List.intercalate_cons_cons]
    rfl
  rw [split, habs]
  refine List.splitOn_intercalate slash ?_ (by simp)
  intro c hc
  rcases List.mem_cons.mp hc with rfl | hc
  · simp
  · exact (hv c hc).no_slash

/-- The elements of a string, joined again. -/
theorem relPath_split (s : GoString) : relPath (split s) = s := List.intercalate_splitOn slash

theorem split_ne_nil (s : GoString) : split s ≠ [] := List.splitOn_ne_nil slash s

theorem split_append_slash (s t : GoString) : split (s ++ slash :: t) = split s ++ split t :=
  List.splitOn_append_cons_self s t

theorem split_of_no_slash {s : GoString} (h : slash ∉ s) : split s = [s] :=
  List.splitOn_eq_singleton h

/-- A string without a separator goes into the first element of what follows it. -/
theorem split_append_left {q t c : GoString} {cs : List GoString} (hq : slash ∉ q)
    (ht : split t = c :: cs) : split (q ++ t) = (q ++ c) :: cs := by
  by_cases hs : slash ∈ t
  · obtain ⟨front, back, rfl, hfront⟩ := List.eq_append_cons_of_mem hs
    rw [split_append_slash, split_of_no_slash hfront] at ht
    obtain ⟨rfl, rfl⟩ := List.cons.inj ht
    rw [← List.append_assoc, split_append_slash, split_of_no_slash (by simp [hq, hfront])]
    rfl
  · rw [split_of_no_slash hs] at ht
    obtain ⟨rfl, rfl⟩ := List.cons.inj ht
    exact split_of_no_slash (by simp [hq, hs])

theorem no_slash_of_mem_split {c : GoString} : ∀ {s : GoString}, c ∈ split s → slash ∉ c := by
  -- by induction on the length: the first element ends at the first separator
  intro s
  induction hn : s.length using Nat.strongRecOn generalizing s with
  | _ n ih =>
    intro hc
    by_cases hs : slash ∈ s
    · obtain ⟨front, back, rfl, hfront⟩ := List.eq_append_cons_of_mem hs
      rw [split_append_slash, split_of_no_slash hfront] at hc
      rcases List.mem_append.mp hc with h | h
      · rw [List.mem_singleton.mp h]
        exact hfront
      · exact ih back.length (by simp at hn; omega) rfl h
    · rw [split_of_no_slash hs] at hc
      rw [List.mem_singleton.mp hc]
      exact hs

theorem split_append {q : GoString} (hq : slash ∉ q) (t : GoString) :
    ∃ c tail, split (q ++ t) = (q ++ c) :: tail ∧ slash ∉ c := by
  obtain ⟨c, tail, ht⟩ := List.exists_cons_of_ne_nil (split_ne_nil t)
  exact ⟨c, tail, split_append_left hq ht, no_slash_of_mem_split (by rw [ht]; simp)⟩

/-- Elements in front of a string are split off first. -/
theorem split_relPath_concat (s t : GoString) :
    ∀ {es : List GoString}, (∀ d ∈ es, slash ∉ d) →
      split (relPath (es ++ [s]) ++ t) = es ++ split (s ++ t) := by
  intro es
  induction es with
  | nil => intro _; simp [relPath]
  | cons d es ih =>
    intro hes
    have hcons : relPath (d :: es ++ [s]) = d ++ slash :: relPath (es ++ [s]) := by
      rw [show d :: es ++ [s] = [d] ++ (es ++ [s]) from rfl, relPath_append (by simp) (by simp)]
      simp [relPath]
    rw [hcons, List.append_assoc, List.cons_append, split_append_slash,
      split_of_no_slash (hes d List.mem_cons_self),
      ih fun x hx => hes x (List.mem_cons_of_mem d hx)]
    rfl

/-- A string without a separator goes into the last element of what stands before it. -/
theorem split_append_right {q t c : GoString} {cs : List GoString} (hq : slash ∉ q)
    (ht : split t = cs ++ [c]) : split (t ++ q) = cs ++ [c ++ q] := by
  have hno : ∀ d ∈ cs ++ [c], slash ∉ d := fun d hd => no_slash_of_mem_split (ht ▸ hd)
  have hc : slash ∉ c ++ q := by
    rw [List.mem_append]
    exact not_or.mpr ⟨hno c (by simp), hq⟩
  have h := split_relPath_concat c q fun d hd => hno d (List.mem_append_left [c] hd)
  rwa [← ht, relPath_split, split_of_no_slash hc] at h

/-- An empty element stands at one end of the string or between two separators. -/
theorem nil_mem_split {s : GoString} (h : [] ∈ split s) :
    s = [] ∨ s.head? = some slash ∨ [slash] <:+ s ∨ contains s (lit "//") = true := by
  obtain ⟨a, b, hab⟩ := List.append_of_mem h
  have hs : s = relPath (a ++ [] :: b) := by rw [← hab, relPath_split]
  have hrest : ∀ d b, relPath ([] :: d :: b) = slash :: relPath (d :: b) := by
    intro d b
    rw [relPath, List.intercalate_cons_cons]
    rfl
  by_cases ha : a = []
  · subst ha
    cases b with
    | nil => exact Or.inl hs
    | cons d b => exact Or.inr (Or.inl (by rw [hs, List.nil_append, hrest]; rfl))
  · rw [relPath_append ha (by simp)] at hs
    refine Or.inr (Or.inr ?_)
    cases b with
    | nil => exact Or.inl ⟨relPath a, hs.symm⟩
    | cons d b =>
      refine Or.inr ?_
      rw [hs, hrest]
      exact contains_append (relPath a) (lit "//") (relPath (d :: b))

/-- **String prefixes of paths.**  A path starts with a string exactly if its names start with all
the elements of the string but the last, and the next name starts with the last one. -/
theorem relPath_prefix_iff {ds names : List GoString} {q : GoString} (hds : ∀ d ∈ ds, slash ∉ d)
    (hq : slash ∉ q) (hne : names ≠ []) (hv : ∀ c ∈ names, ValidName c) :
    relPath (ds ++ [q]) <+: relPath names ↔ ∃ c tail, names = ds ++ c :: tail ∧ q <+: c := by
  constructor
  · rintro ⟨t, ht⟩
    obtain ⟨c, tail, hc, -⟩ := split_append hq t
    refine ⟨q ++ c, tail, ?_, List.prefix_append q c⟩
    rw [← split_relPath hne hv, ← ht, split_relPath_concat q t hds, hc]
  · rintro ⟨c, tail, rfl, ⟨c', rfl⟩⟩
    have hlast : q <+: relPath ((q ++ c') :: tail) := by
      cases tail with
      | nil => simp [relPath]
      | cons x tail => simp [relPath, List.intercalate_cons_cons]
    by_cases hnil : ds = []
    · subst hnil
      simpa [relPath] using hlast
    · rw [relPath_append hnil (by simp), relPath_append hnil (by simp),
        List.prefix_append_right_inj, List.cons_prefix_cons]
      exact ⟨rfl, by simpa [relPath] using hlast⟩

/-- The paths that continue a directory's path after a separator are those below it. -/
theorem absPath_slash_prefix_iff {a names : List GoString} (ha : a ≠ []) (hne : names ≠ [])
    (hva : ∀ c ∈ a, ValidName c) (hv : ∀ c ∈ names, ValidName c) :
    absPath a ++ [slash] <+: absPath names ↔ ∃ b, b ≠ [] ∧ names = a ++ b := by
  constructor
  · rintro ⟨t, ht⟩
    refine ⟨split t, List.splitOn_ne_nil slash t, ?_⟩
    have hs : split (absPath names) = split (absPath a) ++ split t := by
      rw [← ht, List.append_assoc]
      exact List.splitOn_append_cons_self (absPath a) t
    rw [split_absPath hne hv, split_absPath ha hva, List.cons_append] at hs
    exact (List.cons.inj hs).2
  · rintro ⟨b, hb, rfl⟩
    refine ⟨relPath b, ?_⟩
    rw [absPath_append ha hb, List.append_assoc, List.singleton_append]

/-- A path ends in its last name. -/
theorem absPath_concat (names : List GoString) (c : GoString) :
    ∃ front, absPath (names ++ [c]) = front ++ slash :: c := by
  cases names with
  | nil => exact ⟨[], by simp [absPath, relPath]⟩
  | cons d ds =>
    refine ⟨absPath (d :: ds), ?_⟩
    rw [absPath_append (by simp) (by simp)]
    simp [relPath]

/-- A clean path does not end in a separator. -/
theorem trimSuffix_absPath {names : List GoString} (hne : names ≠ [])
    (hv : ∀ c ∈ names, ValidName c) : trimSuffix (absPath names) [slash] = absPath names := by
  obtain ⟨front, c, rfl⟩ := List.eq_nil_or_concat names |>.resolve_left hne
  have hc := hv c (by simp)
  obtain ⟨lead, hlead⟩ := absPath_concat front c
  obtain ⟨c', x, rfl⟩ := List.eq_nil_or_concat c |>.resolve_left hc.ne_nil
  rw [trimSuffix, if_neg]
  intro hsuf
  obtain ⟨t, ht⟩ := List.isSuffixOf_iff_suffix.mp hsuf
  -- otherwise the last name would end in one
  have ht' : t ++ [slash] = (lead ++ slash :: c') ++ [x] := by
    rw [ht, List.concat_eq_append, hlead]
    simp
  have hlast : [slash] = [x] := (List.append_inj' ht' rfl).2
  exact hc.no_slash (by simp [List.singleton_inj.mp hlast])

/-! ### Cleaning -/

theorem cleanNames_valid (rooted : Bool) {names : List GoString} (hv : ∀ c ∈ names, ValidName c) :
    ∀ out, cleanNames rooted out names = out.reverse ++ names := by
  induction names with
  | nil =>
    intro out
    simp [cleanNames]
  | cons c cs ih =>
    intro out
    have hc := hv c List.mem_cons_self
    rw [cleanNames, if_neg (by simp [hc.ne_nil, hc.ne_dot]), if_neg hc.ne_dotdot,
      ih fun d hd => hv d (List.mem_cons_of_mem c hd)]
    simp

theorem cleanNames_append (rooted : Bool) (a b : List GoString) :
    ∀ out, cleanNames rooted out (a ++ b) =
      cleanNames rooted (cleanNames rooted out a).reverse b := by
  induction a with
  | nil =>
    intro out
    simp [cleanNames]
  | cons c a ih =>
    intro out
    rw [List.cons_append, cleanNames, cleanNames]
    split
    · exact ih out
    · split
      · exact ih _
      · exact ih _

/-- Without `..` the names in front stay. -/
theorem prefix_cleanNames {cs : List GoString} (rooted : Bool) (hcs : ∀ c ∈ cs, c ≠ lit "..") :
    ∀ out, out.reverse <+: cleanNames rooted out cs := by
  induction cs with
  | nil =>
    intro out
    exact List.prefix_refl _
  | cons c cs ih =>
    intro out
    have ih := ih fun d hd => hcs d (List.mem_cons_of_mem c hd)
    rw [cleanNames, if_neg (hcs c List.mem_cons_self)]
    split
    · exact ih out
    · have hcons := ih (c :: out)
      rw [List.reverse_cons] at hcons
      exact (List.prefix_append _ _).trans hcons

/-- What is left of a rooted path are valid names. -/
theorem validName_of_mem_cleanNames {cs : List GoString} (hcs : ∀ c ∈ cs, slash ∉ c) :
    ∀ out, (∀ c ∈ out, ValidName c) → ∀ c ∈ cleanNames true out cs, ValidName c := by
  induction cs with
  | nil =>
    intro out hout c hc
    exact hout c (List.mem_reverse.mp hc)
  | cons d cs ih =>
    intro out hout
    have ih' := ih fun c hc => hcs c (List.mem_cons_of_mem d hc)
    rw [cleanNames]
    split
    · exact ih' out hout
    · next hd =>
      push Not at hd
      split
      · refine ih' _ ?_
        cases out with
        | nil => simp [backUp]
        | cons top rest =>
          have htop : top ≠ lit ".." := (hout top List.mem_cons_self).ne_dotdot
          rw [backUp, if_neg htop]
          exact fun c hc => hout c (List.mem_cons_of_mem top hc)
      · next hdd =>
        refine ih' _ fun c hc => ?_
        rcases List.mem_cons.mp hc with rfl | hc
        · exact ⟨hd.1, hcs c List.mem_cons_self, hd.2, hdd⟩
        · exact hout c hc

theorem clean_absPath {names : List GoString} (hne : names ≠ []) (hv : ∀ c ∈ names, ValidName c) :
    clean (absPath names) = absPath names := by
  have hhead : (absPath names).head? = some slash := rfl
  rw [clean, if_pos hhead, split_absPath hne hv, cleanNames, if_pos (Or.inl rfl),
    cleanNames_valid true hv]
  rfl

theorem clean_relPath {names : List GoString} (hne : names ≠ []) (hv : ∀ c ∈ names, ValidName c) :
    clean (relPath names) = relPath names := by
  have hhead : (relPath names).head? ≠ some slash := by
    obtain ⟨c, cs, rfl⟩ := List.exists_cons_of_ne_nil hne
    have hc := hv c List.mem_cons_self
    obtain ⟨x, c, rfl⟩ := List.exists_cons_of_ne_nil hc.ne_nil
    have hx : x ≠ slash := fun hx => hc.no_slash (hx ▸ List.mem_cons_self)
    cases cs <;> simpa [relPath, List.intercalate_cons_cons] using hx
  have hnames : cleanNames false [] (split (relPath names)) = names := by
    rw [split_relPath hne hv, cleanNames_valid false hv]
    rfl
  rw [clean, if_neg hhead, hnames, if_neg hne]

/-! ### Joining -/

theorem join_absPath {a b : List GoString} (ha : a ≠ []) (hb : b ≠ [])
    (hv : ∀ c ∈ a ++ b, ValidName c) : join [absPath a, relPath b] = absPath (a ++ b) := by
  have h : [slash].intercalate [absPath a, relPath b] = absPath (a ++ b) := by
    rw [absPath_append ha hb, List.intercalate_cons_cons]
    simp
  have hdrop : [absPath a, relPath b].dropWhile List.isEmpty = [absPath a, relPath b] := rfl
  rw [join, hdrop]
  show clean ([slash].intercalate [absPath a, relPath b]) = _
  rw [h, clean_absPath (by simp [ha]) hv]

/-- Joining any string to the root and some names. -/
theorem join_root {a : List GoString} (hv : ∀ c ∈ a, ValidName c) (s : GoString) :
    join (lit "/" :: a ++ [s]) = absPath (cleanNames true a.reverse (split s)) := by
  have hdrop : (lit "/" :: a ++ [s]).dropWhile List.isEmpty = lit "/" :: a ++ [s] := rfl
  have hinter : [slash].intercalate (lit "/" :: a ++ [s]) =
      slash :: slash :: relPath (a ++ [s]) := by
    cases a with
    | nil => rfl
    | cons c a => rfl
  have hsplit : split (relPath (a ++ [s])) = a ++ split s := by
    have h := split_relPath_concat s [] fun d (hd : d ∈ a) => (hv d hd).no_slash
    rwa [List.append_nil, List.append_nil] at h
  have hnames : split (slash :: slash :: relPath (a ++ [s])) = [] :: [] :: (a ++ split s) := by
    rw [show slash :: slash :: relPath (a ++ [s]) = [] ++ slash :: ([] ++ slash :: relPath (a ++ [s]))
      from rfl, split_append_slash, split_append_slash, hsplit]
    rfl
  rw [join, hdrop]
  show clean ([slash].intercalate (lit "/" :: a ++ [s])) = _
  have hhead : (slash :: slash :: relPath (a ++ [s])).head? = some slash := rfl
  rw [hinter, clean, if_pos hhead, hnames, cleanNames, if_pos (Or.inl rfl), cleanNames,
    if_pos (Or.inl rfl), cleanNames_append, cleanNames_valid true hv]
  rfl

theorem join_relPath {a b : List GoString} (hb : b ≠ []) (hv : ∀ c ∈ a ++ b, ValidName c) :
    join [relPath a, relPath b] = relPath (a ++ b) := by
  have hvb : ∀ c ∈ b, ValidName c := fun c hc => hv c (List.mem_append_right a hc)
  have hbne := relPath_ne_nil hb hvb
  cases a with
  | nil =>
    have hempty : (relPath b).isEmpty = false := by simpa using hbne
    have hdrop : [relPath [], relPath b].dropWhile List.isEmpty = [relPath b] := by
      rw [List.dropWhile_cons_of_pos rfl, List.dropWhile_cons_of_neg (by simp [hempty])]
    rw [join, hdrop]
    show clean ([slash].intercalate [relPath b]) = _
    rw [List.nil_append, List.intercalate_singleton, clean_relPath hb hvb]
  | cons c cs =>
    have hva : ∀ d ∈ c :: cs, ValidName d := fun d hd => hv d (List.mem_append_left b hd)
    have hempty : (relPath (c :: cs)).isEmpty = false := by
      simpa using relPath_ne_nil (List.cons_ne_nil c cs) hva
    have h : [slash].intercalate [relPath (c :: cs), relPath b] = relPath (c :: cs ++ b) := by
      rw [relPath_append (by simp) hb, List.intercalate_cons_cons]
      simp
    have hdrop : [relPath (c :: cs), relPath b].dropWhile List.isEmpty =
        [relPath (c :: cs), relPath b] := by
      rw [List.dropWhile_cons_of_neg (by simp [hempty])]
    rw [join, hdrop]
    show clean ([slash].intercalate [relPath (c :: cs), relPath b]) = _
    rw [h, clean_relPath (by simp) hv]

/-! ### The order of paths -/

theorem lt_append_cons (a : GoString) (x : UInt8) (b : GoString) : a < a ++ x :: b := by
  induction a with
  | nil => exact List.nil_lt_cons x b
  | cons y a ih => exact List.cons_lt_cons_self.mpr ih

/-- A directory comes before everything below it. -/
theorem absPath_lt {a b : List GoString} (ha : a ≠ []) (hb : b ≠ []) :
    absPath a < absPath (a ++ b) := by
  rw [absPath_append ha hb]
  exact lt_append_cons _ _ _

end Zs3Server.Lib.GoPath
