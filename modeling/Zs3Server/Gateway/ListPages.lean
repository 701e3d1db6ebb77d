import Zs3Server.Gateway.ListRefs

/-!
# The pages of a listing

A call of `listRegularRefs` takes entries from the front of what is left of the listing: directories
become common prefixes, files become refs, and the call stops when it has `maxRefs` refs or when
nothing is left.  The page limit never exceeds what is missing to `maxRefs`, so that the entry that
fills the listing is the last one of its page: the marker names the place where the next call goes
on, and nothing is skipped or repeated.

* `Collects`, `Collects.takeRefs` — what is collected, and the refs of one page;
* `Collects.listDirectory` — the pages of a directory, by induction on what is left;
* `listRegularRefs_spec` — one call;
* `listing_pages_partition` — all the calls of a listing.
-/

namespace Zs3Server.Gateway.ListPages

open Lib
open Lib.ByteString
open Lib.GoPath
open Lib.BinaryHeap (Heap)
open Gateway.ListRefs

/-! ### What an entry becomes -/

/-- The ref listed for a file, under its path below the bucket. -/
def listedRef (e : Entry) : Option ORef :=
  match e.type with
  | .file => some { e.toRef with name := relPath e.names.tail }
  | .dir => none

/-- The common prefix listed for a directory. -/
def listedPrefix (e : Entry) : Option GoString :=
  match e.type with
  | .file => none
  | .dir => some (relPath e.names.tail ++ [slash])

section Entries

variable {tree : RefTree} {dir : List GoString} {e : Entry}

theorem getCommonPrefix_absPath (hdir : dir ≠ []) (hv : ∀ c ∈ dir, ValidName c) :
    getCommonPrefix (absPath dir) = relPath dir.tail := by
  have hpos := List.length_pos_iff.mpr hdir
  simp only [getCommonPrefix, trimSuffix_absPath hdir hv, split_absPath hdir hv, List.length_cons]
  rw [if_neg (by omega), List.drop_succ_cons, List.drop_one]

/-- What is left of an entry's path below the directory. -/
theorem trimPrefix_path (hdir : dir ≠ []) {rest : List GoString} (hrest : rest ≠ [])
    (he : e.names = dir ++ rest) : trimPrefix e.path (absPath dir ++ [slash]) = relPath rest := by
  rw [Entry.path, he, trimPrefix_absPath hdir hrest]

/-- The name of an entry is its path below the bucket. -/
theorem join_name (hdir : dir ≠ []) (hv : ∀ c ∈ e.names, ValidName c) (hbelow : e.Below dir) :
    join [getCommonPrefix (absPath dir), trimPrefix e.path (absPath dir ++ [slash])] =
      relPath e.names.tail := by
  obtain ⟨rest, hrest, he⟩ := hbelow
  have htail : e.names.tail = dir.tail ++ rest := by
    rw [he, List.tail_append_of_ne_nil hdir]
  have hvd : ∀ c ∈ dir, ValidName c := fun c hc => hv c (he ▸ List.mem_append_left rest hc)
  rw [getCommonPrefix_absPath hdir hvd, trimPrefix_path hdir hrest he, htail,
    join_relPath hrest fun c hc => hv c (List.mem_of_mem_tail (htail ▸ hc))]

/-- The path of an entry is found again from its marker. -/
theorem startOffset_marker (hdir : dir ≠ []) (hv : ∀ c ∈ e.names, ValidName c)
    (hbelow : e.Below dir) :
    startOffset (absPath dir) (trimPrefix e.path (absPath dir ++ [slash])) = e.path := by
  obtain ⟨rest, hrest, he⟩ := hbelow
  have hvr : ∀ c ∈ rest, ValidName c := fun c hc => hv c (he ▸ List.mem_append_right dir hc)
  rw [trimPrefix_path hdir hrest he, startOffset, if_pos (relPath_ne_nil hrest hvr),
    join_absPath hdir hrest (he ▸ hv), Entry.path, he]

/-- A directory comes before what is below it. -/
theorem lt_path (hdir : dir ≠ []) (hbelow : e.Below dir) : absPath dir < e.path := by
  obtain ⟨rest, hrest, he⟩ := hbelow
  rw [Entry.path, he]
  exact absPath_lt hdir hrest

end Entries

/-! ### The refs of one page -/

/-- The listing so far: what became of the entries taken. -/
structure Collected (s : ListState) (taken : List Entry) : Prop where
  refs : s.refs = taken.filterMap listedRef
  prefixes : s.prefixes = taken.filterMap listedPrefix
  dirMap : s.dirMap = []

/-- The listing goes on: it is not full yet. -/
structure Going (maxRefs : ℤ) (s : ListState) : Prop where
  not_truncated : s.isTruncated = false
  lt_maxRefs : (s.refs.length : ℤ) < maxRefs
  one_le_limit : 1 ≤ s.listPageLimit

/-- What taking the entries `page` does: `s'` has collected them, and if it is truncated, then at the
last of them. -/
structure Takes (maxRefs : ℤ) (s s' : ListState) (taken page : List Entry) : Prop where
  collected : Collected s' (taken ++ page)
  directories : s'.directories = s.directories
  going : s'.isTruncated = false → Going maxRefs s'
  full : s'.isTruncated = true → maxRefs ≤ s'.refs.length ∧
    ∃ e, page.getLast? = some e ∧ s'.markedPath = e.path

section Page

variable {tree : RefTree} {dir : List GoString} {isDelimited : Bool} {maxRefs : ℤ} {s : ListState}
  {taken page : List Entry} {e : Entry}

theorem keepRef_spec (htype : e.type = .file) (hs : Collected s taken) (hgo : Going maxRefs s) :
    Takes maxRefs s (keepRef maxRefs (relPath e.names.tail) s e.toRef) taken [e] ∧
      (keepRef maxRefs (relPath e.names.tail) s e.toRef).listPageLimit = s.listPageLimit := by
  set s₁ : ListState := { s with refs := s.refs ++ [{ e.toRef with name := relPath e.names.tail }] }
    with hs₁
  have hcol : Collected s₁ (taken ++ [e]) := by
    refine ⟨?_, ?_, hs.dirMap⟩
    · rw [List.filterMap_append, ← hs.refs, hs₁]
      simp [listedRef, htype]
    · rw [List.filterMap_append, ← hs.prefixes, hs₁]
      simp [listedPrefix, htype]
  by_cases hfull : maxRefs ≠ 0 ∧ (s₁.refs.length : ℤ) ≥ maxRefs
  · have hkeep : keepRef maxRefs (relPath e.names.tail) s e.toRef =
        { s₁ with markedPath := e.path, isTruncated := true } := if_pos hfull
    rw [hkeep]
    exact ⟨⟨⟨hcol.refs, hcol.prefixes, hcol.dirMap⟩, rfl, fun h => absurd h (by simp),
      fun _ => ⟨hfull.2, e, rfl, rfl⟩⟩, rfl⟩
  · have hkeep : keepRef maxRefs (relPath e.names.tail) s e.toRef = s₁ := if_neg hfull
    have hpos : maxRefs ≠ 0 := by
      have := hgo.lt_maxRefs
      omega
    rw [hkeep]
    refine ⟨⟨hcol, rfl, fun _ => ⟨hgo.not_truncated, ?_, hgo.one_le_limit⟩, fun h => ?_⟩, rfl⟩
    · exact not_le.mp fun hle => hfull ⟨hpos, hle⟩
    · exact absurd (hgo.not_truncated.symm.trans h) (by simp)

/-- **One ref.**  A file is kept; a directory is a common prefix, as it occurs in delimited listings
only. -/
theorem takeRef_spec (hdir : dir ≠ []) (hv : ∀ c ∈ dir, ValidName c)
    (he : e ∈ tree.scope dir isDelimited) (hs : Collected s taken) (hgo : Going maxRefs s) :
    Takes maxRefs s (takeRef maxRefs isDelimited (absPath dir) s e.toRef) taken [e] ∧
      (takeRef maxRefs isDelimited (absPath dir) s e.toRef).listPageLimit = s.listPageLimit := by
  obtain ⟨hmem, hbelow, hkind⟩ := (RefTree.mem_scope_iff hdir hv).mp he
  have hname := join_name hdir (tree.valid e hmem) hbelow
  cases htype : e.type with
  | file =>
    have htake : takeRef maxRefs isDelimited (absPath dir) s e.toRef =
        keepRef maxRefs (relPath e.names.tail) s e.toRef := by
      simp only [takeRef, Entry.toRef, htype, hname]
    rw [htake]
    exact keepRef_spec htype hs hgo
  | dir =>
    have hdel : isDelimited = true := by
      by_contra hdel
      rw [if_neg hdel, htype] at hkind
      exact absurd hkind (by simp)
    have htake : takeRef maxRefs isDelimited (absPath dir) s e.toRef =
        { s with prefixes := s.prefixes ++ [relPath e.names.tail ++ [slash]] } := by
      simp only [takeRef, Entry.toRef, htype, hname, hs.dirMap, hdel, List.not_mem_nil, if_false,
        if_true]
    rw [htake]
    refine ⟨⟨⟨?_, ?_, hs.dirMap⟩, rfl, fun _ => ⟨hgo.1, hgo.2, hgo.3⟩, fun h => ?_⟩, rfl⟩
    · simp [hs.refs, listedRef, htype]
    · simp [hs.prefixes, listedPrefix, htype]
    · exact absurd (hgo.not_truncated.symm.trans h) (by simp)

/-- A ref taken adds at most one. -/
theorem Takes.length_le {s' : ListState} (h : Takes maxRefs s s' taken page) (hs : Collected s taken) :
    s'.refs.length ≤ s.refs.length + page.length := by
  rw [h.collected.refs, hs.refs, List.filterMap_append, List.length_append]
  exact Nat.add_le_add_left (List.length_filterMap_le _ _) _

theorem Takes.trans {s₁ s₂ : ListState} {page₂ : List Entry} (h₁ : Takes maxRefs s s₁ taken page)
    (h₂ : Takes maxRefs s₁ s₂ (taken ++ page) page₂) :
    Takes maxRefs s s₂ taken (page ++ page₂) := by
  refine ⟨?_, h₂.directories.trans h₁.directories, h₂.going, fun h => ?_⟩
  · rw [← List.append_assoc]
    exact h₂.collected
  · obtain ⟨hle, e, he, hmark⟩ := h₂.full h
    exact ⟨hle, e, by rw [List.getLast?_append, he]; rfl, hmark⟩

end Page

/-! ### Taking pages -/

/-- **What is collected**: `Rel s page` relates a state to the entries that were taken.  The rules say
when the listing goes on and what one ref adds. -/
structure Collects (maxRefs : ℤ) (isDelimited : Bool) (path : GoString) (Ok : Entry → Prop)
    (Rel : ListState → List Entry → Prop) : Prop where
  going : ∀ {s page}, Rel s page → s.isTruncated = false → Going maxRefs s
  full : ∀ {s page}, Rel s page → s.isTruncated = true → maxRefs ≤ s.refs.length
  limit : ∀ {s page limit}, Rel s page → 1 ≤ limit → Rel { s with listPageLimit := limit } page
  take : ∀ {s page e}, Rel s page → s.isTruncated = false → Ok e →
    Rel (takeRef maxRefs isDelimited path s e.toRef) (page ++ [e]) ∧
      (takeRef maxRefs isDelimited path s e.toRef).listPageLimit = s.listPageLimit ∧
      (takeRef maxRefs isDelimited path s e.toRef).refs.length ≤ s.refs.length + 1

section Collects

variable {maxRefs : ℤ} {isDelimited : Bool} {path : GoString} {Ok : Entry → Prop}
  {Rel : ListState → List Entry → Prop}

/-- **The refs of a page.**  A page that fits is taken to its end. -/
theorem Collects.takeRefs (h : Collects maxRefs isDelimited path Ok Rel) :
    ∀ (page : List Entry) {s : ListState} {taken : List Entry}, (∀ e ∈ page, Ok e) → Rel s taken →
      s.isTruncated = false → (s.refs.length + page.length : ℤ) ≤ maxRefs →
      Rel (takeRefs maxRefs isDelimited path s (page.map Entry.toRef)) (taken ++ page) ∧
        (takeRefs maxRefs isDelimited path s (page.map Entry.toRef)).listPageLimit =
          s.listPageLimit := by
  intro page
  induction page with
  | nil =>
    intro s taken _ hs _ _
    rw [List.append_nil]
    exact ⟨hs, rfl⟩
  | cons e page ih =>
    intro s taken hok hs hgo hroom
    obtain ⟨htake, hlimit, hlen⟩ := h.take hs hgo (hok e List.mem_cons_self)
    rw [List.map_cons, ListRefs.takeRefs]
    set s₁ := takeRef maxRefs isDelimited path s e.toRef
    rw [List.length_cons] at hroom
    cases htr : s₁.isTruncated with
    | true =>
      -- the listing is full, and the page fitted: `e` was its last ref
      obtain rfl : page = [] := by
        have hfull := h.full htake htr
        exact List.length_eq_zero_iff.mp (by push_cast at hroom; omega)
      simp only [if_true]
      exact ⟨htake, hlimit⟩
    | false =>
      simp only [Bool.false_eq_true, if_false]
      obtain ⟨hrest, hlimit₂⟩ := ih (fun x hx => hok x (List.mem_cons_of_mem e hx)) htake htr
        (by push_cast at hroom; omega)
      rw [List.append_assoc] at hrest
      exact ⟨hrest, hlimit₂.trans hlimit⟩

theorem nextLimit_bounds {s : ListState} (hgo : Going maxRefs s) :
    1 ≤ nextLimit maxRefs s ∧ s.refs.length + nextLimit maxRefs s ≤ maxRefs := by
  have hlt := hgo.lt_maxRefs
  have hlimit := hgo.one_le_limit
  unfold nextLimit
  split <;> omega

variable {ε : Type*} {getRefs : GetRefs ε} {fileType : Option RefType}

/-- **The pages of a directory.**  With enough fuel the loop takes entries until the listing is full or
nothing is left.  `At rest offset` says that the entries `rest` come after the offset. -/
theorem Collects.listDirectory (h : Collects maxRefs isDelimited path Ok Rel)
    (At : List Entry → GoString → Prop)
    (hserve : ∀ {rest offset limit}, At rest offset → 1 ≤ limit →
      ∃ oResult, getRegularRefs getRefs path offset fileType limit = .ok oResult ∧
        oResult.refs = (rest.take limit.toNat).map Entry.toRef ∧
        ∀ e, (rest.take limit.toNat).getLast? = some e → oResult.offsetPath = e.path)
    (hadvance : ∀ {rest offset page left e}, At rest offset → page ++ left = rest →
      page.getLast? = some e → At left e.path)
    (hmem : ∀ {rest offset e}, At rest offset → e ∈ rest → Ok e) :
    ∀ (fuel : ℕ) {s : ListState} {taken rest : List Entry} {offset : GoString},
      rest.length < fuel → At rest offset → Rel s taken → s.isTruncated = false →
      ∃ s' page left, listDirectory getRefs fileType maxRefs isDelimited path fuel offset s =
          some (.ok s') ∧
        page ++ left = rest ∧ Rel s' (taken ++ page) ∧ (s'.isTruncated = false → left = []) := by
  intro fuel
  induction fuel with
  | zero =>
    intro s taken rest offset hfuel
    exact absurd hfuel (Nat.not_lt_zero _)
  | succ fuel ih =>
    intro s taken rest offset hfuel hat hs hgo
    obtain ⟨hone, hfits⟩ := nextLimit_bounds (h.going hs hgo)
    obtain ⟨oResult, hok, hrefs, hlast⟩ := hserve hat hone
    set limit := nextLimit maxRefs s with hlimit
    set s₀ : ListState := { s with listPageLimit := limit } with hs₀
    have hs₀' : Rel s₀ taken := h.limit hs hone
    have hsplit : rest.take limit.toNat ++ rest.drop limit.toNat = rest := List.take_append_drop _ _
    have hnat : (limit.toNat : ℤ) = limit := Int.toNat_of_nonneg (by omega)
    have hlen : (rest.take limit.toNat).length ≤ limit.toNat := List.length_take_le _ _
    rw [ListRefs.listDirectory]
    simp only [hok, ← hlimit, ← hs₀]
    by_cases hnil : oResult.refs = []
    · -- an empty page: nothing is left
      have hrest : rest = [] := by
        rw [hrefs, List.map_eq_nil_iff, List.take_eq_nil_iff] at hnil
        rcases hnil with h | h
        · omega
        · exact h
      rw [if_pos hnil]
      refine ⟨s₀, [], [], rfl, by simp [hrest], ?_, fun _ => rfl⟩
      rw [List.append_nil]
      exact hs₀'
    · obtain ⟨htakes, hkeep⟩ := h.takeRefs (rest.take limit.toNat)
        (fun e he => hmem hat (List.mem_of_mem_take he)) hs₀' hgo
        (by show (s.refs.length + _ : ℤ) ≤ _; omega)
      rw [← hrefs] at htakes hkeep
      rw [if_neg hnil]
      have hsize : oResult.refs.length = min limit.toNat rest.length := by
        rw [hrefs, List.length_map, List.length_take]
      set s₁ := ListRefs.takeRefs maxRefs isDelimited path s₀ oResult.refs
      by_cases hstop : s₁.isTruncated = true ∨ (oResult.refs.length : ℤ) < s₁.listPageLimit
      · rw [if_pos hstop]
        refine ⟨s₁, _, _, rfl, hsplit, htakes, fun hnt => ?_⟩
        -- a short page is the last one
        have hshort : (oResult.refs.length : ℤ) < limit := by
          have h := hstop.resolve_left (by simp [hnt])
          rwa [hkeep] at h
        exact List.drop_eq_nil_of_le (by omega)
      · rw [if_neg hstop]
        have hpage : rest.take limit.toNat ≠ [] := by
          intro h
          exact hnil (by rw [hrefs, h, List.map_nil])
        have hmore : 0 < rest.length := by
          refine List.length_pos_iff.mpr fun h => hpage ?_
          rw [h, List.take_nil]
        obtain ⟨e, he⟩ : ∃ e, (rest.take limit.toNat).getLast? = some e :=
          ⟨_, List.getLast?_eq_some_getLast hpage⟩
        have hnt : s₁.isTruncated = false := by simpa using fun h => hstop (Or.inl h)
        rw [hlast e he]
        obtain ⟨s', page, left, hrun, hleft, htakes₂, hend⟩ :=
          ih (by rw [List.length_drop]; omega) (hadvance hat hsplit he) htakes hnt
        refine ⟨s', rest.take limit.toNat ++ page, left, hrun, ?_, ?_, hend⟩
        · rw [List.append_assoc, hleft, hsplit]
        · rw [← List.append_assoc]
          exact htakes₂

end Collects

/-! ### One call -/

section Call

variable {ε : Type*} {getRefs : GetRefs ε} {tree : RefTree} {dir : List GoString} {maxRefs : ℤ}
  {delimiter : GoString}

/-- Where a listing is: `seen` and `rest` are the entries in scope before and after the offset. -/
structure ListPos (tree : RefTree) (dir : List GoString) (delimiter : GoString)
    (seen rest : List Entry) (offset : GoString) : Prop where
  cursor : Paging.Cursor Entry.path (tree.scope dir (decide (delimiter ≠ []))) seen rest offset
  offset : OffsetIn tree dir (decide (delimiter ≠ [])) offset

theorem ListPos.mem_scope {seen rest : List Entry} {offset : GoString}
    (h : ListPos tree dir delimiter seen rest offset) {e : Entry} (he : e ∈ rest) :
    e ∈ tree.scope dir (decide (delimiter ≠ [])) := by
  rw [← h.cursor.split]
  exact List.mem_append_right seen he

/-- After a page the listing is at the page's last entry. -/
theorem ListPos.advance {seen rest page left : List Entry} {offset : GoString}
    (h : ListPos tree dir delimiter seen rest offset) (hpage : page ++ left = rest) {e : Entry}
    (he : page.getLast? = some e) : ListPos tree dir delimiter (seen ++ page) left e.path := by
  refine ⟨h.cursor.advance (tree.scope_sorted dir _) hpage he, Or.inr ⟨e, ?_, rfl⟩⟩
  exact h.mem_scope (hpage ▸ List.mem_append_left left (List.mem_of_getLast? he))

/-- Listed refs and common prefixes are collected from a state `s`. -/
theorem takes_collects (tree : RefTree) {s : ListState} {taken : List Entry} (hdir : dir ≠ [])
    (hv : ∀ c ∈ dir, ValidName c) (isDelimited : Bool) :
    Collects maxRefs isDelimited (absPath dir) (· ∈ tree.scope dir isDelimited)
      (fun s' page => Takes maxRefs s s' taken page) where
  going := fun h => h.going
  full := fun h htr => (h.full htr).1
  limit := fun h hone => ⟨⟨h.collected.refs, h.collected.prefixes, h.collected.dirMap⟩, h.directories,
    fun hnt => ⟨hnt, (h.going hnt).lt_maxRefs, hone⟩, h.full⟩
  take := by
    intro s' page e h hnt he
    obtain ⟨htake, hlimit⟩ := takeRef_spec hdir hv he h.collected (h.going hnt)
    exact ⟨h.trans htake, hlimit, htake.length_le h.collected⟩

theorem listDirectory_spec (hserves : ServesRefs tree getRefs) (hdir : dir ≠ [])
    (hv : ∀ c ∈ dir, ValidName c) (fuel : ℕ) {s : ListState} {taken seen rest : List Entry}
    {offset : GoString} (hfuel : rest.length < fuel)
    (hpos : ListPos tree dir delimiter seen rest offset) (hs : Collected s taken)
    (hgo : Going maxRefs s) :
    ∃ s' page left, listDirectory getRefs (listFileType false delimiter) maxRefs
        (decide (delimiter ≠ [])) (absPath dir) fuel offset s = some (.ok s') ∧
      page ++ left = rest ∧ Takes maxRefs s s' taken page ∧
      (s'.isTruncated = false → left = []) := by
  have hstart : Takes maxRefs s s taken [] := by
    refine ⟨?_, rfl, fun _ => hgo, fun h => ?_⟩
    · rw [List.append_nil]
      exact hs
    · exact absurd (hgo.not_truncated.symm.trans h) (by simp)
  refine (takes_collects tree hdir hv _).listDirectory
    (fun rest offset => ∃ seen, ListPos tree dir delimiter seen rest offset) ?_ ?_ ?_ fuel hfuel ⟨seen, hpos⟩ hstart hgo.not_truncated
  · rintro rest offset limit ⟨seen, hpos⟩ hone
    exact getRegularRefs_spec hserves hdir hv hpos.offset hpos.cursor hone
  · rintro rest offset page left e ⟨seen, hpos⟩ hsplit he
    exact ⟨_, hpos.advance hsplit he⟩
  · rintro rest offset e ⟨seen, hpos⟩ he
    exact hpos.mem_scope he

/-- Only the directory itself is queued. -/
theorem init_pop (path : GoString) : ∃ directories : Heap GoString,
    (ListState.init path).directories.pop = some (path, directories) ∧ directories.pop = none :=
  Heap.pop_singleton (by simp [ListState.init])

/-- The position of a listing that goes on from a marker. -/
def MarkerAt (tree : RefTree) (dir : List GoString) (delimiter marker : GoString)
    (seen rest : List Entry) : Prop :=
  ListPos tree dir delimiter seen rest (startOffset (absPath dir) marker)

/-- A listing starts before its first entry. -/
theorem markerAt_nil (hdir : dir ≠ []) (hv : ∀ c ∈ dir, ValidName c) :
    MarkerAt tree dir delimiter [] [] (tree.scope dir (decide (delimiter ≠ []))) := by
  refine ⟨Paging.Cursor.start fun e he => ?_, Or.inl rfl⟩
  exact lt_path hdir ((RefTree.mem_scope_iff hdir hv).mp he).2.1

/-- What a page shows of the entries it takes. -/
structure Shows (page : ListPage) (taken : List Entry) : Prop where
  refs : page.refs = taken.filterMap listedRef
  prefixes : page.prefixes = taken.filterMap listedPrefix

/-- **One call of `listRegularRefs`.** -/
theorem listRegularRefs_spec (hserves : ServesRefs tree getRefs) (hdir : dir ≠ [])
    (hv : ∀ c ∈ dir, ValidName c) (hmax : 1 ≤ maxRefs) {remotePath marker : GoString}
    (hremote : clean remotePath = absPath dir) {seen rest : List Entry} {fuel : ℕ}
    (hfuel : rest.length + 1 < fuel) (hat : MarkerAt tree dir delimiter marker seen rest) :
    ∃ page taken left, listRegularRefs getRefs fuel remotePath marker (listFileType false delimiter)
        maxRefs (decide (delimiter ≠ [])) = some (.ok page) ∧ taken ++ left = rest ∧
      Shows page taken ∧ (page.isTruncated = false → left = []) ∧
      (page.isTruncated = true → taken ≠ [] ∧
        MarkerAt tree dir delimiter page.marker (seen ++ taken) left) := by
  obtain ⟨fuel, rfl⟩ : ∃ k, fuel = k + 1 + 1 := ⟨fuel - 2, by omega⟩
  obtain ⟨directories, hpop, hempty⟩ := init_pop (absPath dir)
  set s₀ : ListState := { ListState.init (absPath dir) with directories := directories } with hs₀
  have hcol : Collected s₀ [] := ⟨rfl, rfl, rfl⟩
  have hgo : Going maxRefs s₀ := by
    refine ⟨rfl, ?_, ?_⟩
    · show ((0 : ℕ) : ℤ) < maxRefs
      omega
    · show (1 : ℤ) ≤ 1000
      omega
  obtain ⟨s', taken, left, hrun, hsplit, htakes, hend⟩ :=
    listDirectory_spec hserves hdir hv (fuel + 1 + 1) (by omega) hat hcol hgo
  have hlists : listDirectories getRefs (listFileType false delimiter) maxRefs
      (decide (delimiter ≠ [])) (fuel + 1 + 1) marker (.init (absPath dir)) = some (.ok s') := by
    rw [listDirectories, if_neg (by simp [ListState.init]), hpop]
    simp only [← hs₀, hrun]
    -- the queue is empty, or the listing is full
    rw [listDirectories]
    split
    · rfl
    · rw [htakes.directories, hempty]
  refine ⟨s'.page (absPath dir), taken, left, ?_, hsplit, ⟨?_, ?_⟩, hend, fun htr => ?_⟩
  · rw [listRegularRefs, hremote, hlists]
    rfl
  · exact htakes.collected.refs
  · exact htakes.collected.prefixes
  · obtain ⟨-, e, he, hmark⟩ := htakes.full htr
    have hmem : e ∈ taken := List.mem_of_getLast? he
    obtain ⟨hentry, hbelow, -⟩ := (RefTree.mem_scope_iff hdir hv).mp
      (hat.mem_scope (hsplit ▸ List.mem_append_left left hmem))
    have hmarker : (s'.page (absPath dir)).marker = trimPrefix e.path (absPath dir ++ [slash]) := by
      rw [← hmark]
      exact if_pos htr
    refine ⟨List.ne_nil_of_mem hmem, ?_⟩
    rw [MarkerAt, hmarker, startOffset_marker hdir (tree.valid e hentry) hbelow]
    exact hat.advance hsplit he


end Call

/-! ### The whole listing -/

section Listing

variable {ε : Type*} {getRefs : GetRefs ε} {tree : RefTree} {dir : List GoString}
  {delimiter : GoString}

/-- The pages of a listing show the entries in scope, once and in order. -/
theorem listPages_shows (hserves : ServesRefs tree getRefs) (hdir : dir ≠ [])
    (hv : ∀ c ∈ dir, ValidName c) {maxRefs : ℤ} (hmax : 1 ≤ maxRefs) {remotePath : GoString}
    (hremote : clean remotePath = absPath dir) {fuel : ℕ} (hfuel : tree.entries.length + 2 ≤ fuel) :
    ∃ pages taken, listPages getRefs remotePath (listFileType false delimiter) maxRefs
        (decide (delimiter ≠ [])) fuel = some pages ∧ List.Forall₂ Shows pages taken ∧
      taken.flatten = tree.scope dir (decide (delimiter ≠ [])) := by
  have hscope : (tree.scope dir (decide (delimiter ≠ []))).length ≤ tree.entries.length :=
    List.length_filter_le _ _
  obtain ⟨fuel, rfl⟩ : ∃ k, fuel = k + 1 := ⟨fuel - 1, by omega⟩
  refine Paging.collect_covers (A := MarkerAt tree dir delimiter) ?_ fuel []
    [] _ (by omega) (markerAt_nil hdir hv)
  intro marker seen rest hat
  have hrest : rest.length + 1 < fuel + 1 := by
    rw [← hat.cursor.split, List.length_append] at hscope
    omega
  obtain ⟨page, taken, left, hcall, hsplit, hshows, hend, hmore⟩ :=
    listRegularRefs_spec hserves hdir hv hmax hremote hrest hat
  refine ⟨page, taken, left, ?_, hsplit, hshows, fun hnext => hend ?_, fun m hnext => ?_⟩
  · rw [hcall]
    rfl
  · simpa using hnext
  · cases htr : page.isTruncated with
    | false => simp [htr] at hnext
    | true =>
      obtain rfl : page.marker = m := by simpa [htr] using hnext
      exact hmore htr

/-- Different direct children have different common prefixes. -/
theorem relPath_tail_injective {e e' : Entry} (he : e ∈ tree.entries) (he' : e' ∈ tree.entries)
    (hdir : dir ≠ []) (hc : e.ChildOf dir) (hc' : e'.ChildOf dir)
    (h : relPath e.names.tail = relPath e'.names.tail) : e.path = e'.path := by
  obtain ⟨c, hn⟩ := hc
  obtain ⟨c', hn'⟩ := hc'
  have htail : e.names.tail = dir.tail ++ [c] := by rw [hn, List.tail_append_of_ne_nil hdir]
  have htail' : e'.names.tail = dir.tail ++ [c'] := by rw [hn', List.tail_append_of_ne_nil hdir]
  have hs := congrArg split h
  rw [split_relPath (by simp [htail]) fun d hd => tree.valid e he d (List.mem_of_mem_tail hd),
    split_relPath (by simp [htail']) fun d hd => tree.valid e' he' d (List.mem_of_mem_tail hd),
    htail, htail'] at hs
  rw [Entry.path, Entry.path, hn, hn', (List.append_inj' hs rfl).2]

theorem listedRef_eq_some_iff {e : Entry} {ref : ORef} :
    listedRef e = some ref ↔ e.type = .file ∧ ref = ⟨e.path, .file, relPath e.names.tail⟩ := by
  cases htype : e.type <;> simp [listedRef, Entry.toRef, htype, eq_comm]

theorem listedPrefix_eq_some_iff {e : Entry} {p : GoString} :
    listedPrefix e = some p ↔ e.type = .dir ∧ p = relPath e.names.tail ++ [slash] := by
  cases htype : e.type <;> simp [listedPrefix, htype, eq_comm]

theorem listedRefs_sorted (tree : RefTree) (dir : List GoString) (isDelimited : Bool) :
    (((tree.scope dir isDelimited).filterMap listedRef).map ORef.path).Pairwise (· < ·) := by
  rw [List.pairwise_map, List.pairwise_filterMap]
  refine (tree.scope_sorted dir isDelimited).imp ?_
  intro e e' hlt ref href ref' href'
  rw [(listedRef_eq_some_iff.mp href).2, (listedRef_eq_some_iff.mp href').2]
  exact hlt

theorem listedPrefixes_nodup (hdir : dir ≠ []) (hv : ∀ c ∈ dir, ValidName c) (isDelimited : Bool) :
    ((tree.scope dir isDelimited).filterMap listedPrefix).Nodup := by
  rw [List.Nodup, List.pairwise_filterMap]
  refine (tree.scope_sorted dir isDelimited).imp_of_mem ?_
  rintro e e' he he' hlt p hp _ hp' rfl
  obtain ⟨htype, rfl⟩ := listedPrefix_eq_some_iff.mp hp
  obtain ⟨htype', heq⟩ := listedPrefix_eq_some_iff.mp hp'
  obtain ⟨hmem, -, hkind⟩ := (RefTree.mem_scope_iff hdir hv).mp he
  obtain ⟨hmem', -, hkind'⟩ := (RefTree.mem_scope_iff hdir hv).mp he'
  cases isDelimited with
  | false => exact absurd (htype.symm.trans hkind) (by simp)
  | true =>
    have hpath := relPath_tail_injective hmem hmem' hdir hkind hkind' (List.append_cancel_right heq)
    exact absurd hlt (hpath ▸ lt_irrefl _)

theorem mem_listedRefs_iff (hdir : dir ≠ []) (hv : ∀ c ∈ dir, ValidName c) {ref : ORef} :
    ref ∈ (tree.scope dir (decide (delimiter ≠ []))).filterMap listedRef ↔
      ∃ e ∈ tree.entries, e.type = .file ∧
        (if delimiter ≠ [] then e.ChildOf dir else e.Below dir) ∧
        ref = ⟨e.path, .file, relPath e.names.tail⟩ := by
  rw [List.mem_filterMap]
  refine exists_congr fun e => ?_
  rw [RefTree.mem_scope_iff hdir hv, listedRef_eq_some_iff, and_assoc]
  refine and_congr_right fun _ => ?_
  by_cases hd : delimiter = []
  · simp only [hd, ne_eq, not_true_eq_false, decide_false, Bool.false_eq_true, if_false]
    tauto
  · have hbelow : e.ChildOf dir → e.Below dir := fun h => (Entry.childOf_iff.mp h).1
    simp only [hd, ne_eq, not_false_eq_true, decide_true, if_true]
    tauto

theorem mem_listedPrefixes_iff (hdir : dir ≠ []) (hv : ∀ c ∈ dir, ValidName c) {p : GoString} :
    p ∈ (tree.scope dir (decide (delimiter ≠ []))).filterMap listedPrefix ↔
      delimiter ≠ [] ∧ ∃ e ∈ tree.entries, e.type = .dir ∧ e.ChildOf dir ∧
        p = relPath e.names.tail ++ [slash] := by
  rw [List.mem_filterMap]
  constructor
  · rintro ⟨e, he, hp⟩
    obtain ⟨hmem, -, hkind⟩ := (RefTree.mem_scope_iff hdir hv).mp he
    obtain ⟨htype, rfl⟩ := listedPrefix_eq_some_iff.mp hp
    have hd : delimiter ≠ [] := by
      rintro rfl
      exact absurd (htype.symm.trans (show e.type = .file by simpa using hkind)) (by simp)
    rw [if_pos (decide_eq_true hd)] at hkind
    exact ⟨hd, e, hmem, htype, hkind, rfl⟩
  · rintro ⟨hd, e, hmem, htype, hchild, rfl⟩
    refine ⟨e, ?_, listedPrefix_eq_some_iff.mpr ⟨htype, rfl⟩⟩
    refine (RefTree.mem_scope_iff hdir hv).mpr ⟨hmem, (Entry.childOf_iff.mp hchild).1, ?_⟩
    rwa [if_pos (decide_eq_true hd)]

/-- **Listing pages partition the listing.**  A client lists the directory `dir` of a bucket, from the
empty marker and on with the marker of each truncated page.  With enough fuel it ends, and over all
its pages every file in scope is listed once, in the order of the paths, every direct sub-directory
is a common prefix once if the listing is delimited, and there is nothing else. -/
theorem listing_pages_partition (tree : RefTree) (getRefs : GetRefs ε)
    (hserves : ServesRefs tree getRefs) (dir : List GoString) (hdir : ⟨dir, .dir⟩ ∈ tree.entries)
    (remotePath : GoString) (hremote : clean remotePath = absPath dir) (delimiter : GoString)
    (maxRefs : ℤ) (hmax : 1 ≤ maxRefs) (fuel : ℕ) (hfuel : tree.entries.length + 2 ≤ fuel) :
    ∃ pages, listPages getRefs remotePath (listFileType false delimiter) maxRefs
        (decide (delimiter ≠ [])) fuel = some pages ∧
      ((pages.flatMap ListPage.refs).map ORef.path).Pairwise (· < ·) ∧
      (∀ ref, ref ∈ pages.flatMap ListPage.refs ↔
        ∃ e ∈ tree.entries, e.type = .file ∧
          (if delimiter ≠ [] then e.ChildOf dir else e.Below dir) ∧
          ref = ⟨e.path, .file, relPath e.names.tail⟩) ∧
      (pages.flatMap ListPage.prefixes).Nodup ∧
      ∀ p, p ∈ pages.flatMap ListPage.prefixes ↔
        delimiter ≠ [] ∧ ∃ e ∈ tree.entries, e.type = .dir ∧ e.ChildOf dir ∧
          p = relPath e.names.tail ++ [slash] := by
  have hne : dir ≠ [] := tree.names_ne_nil _ hdir
  have hv : ∀ c ∈ dir, ValidName c := tree.valid _ hdir
  obtain ⟨pages, taken, hrun, hshows, hall⟩ :=
    listPages_shows hserves hne hv hmax hremote hfuel
  have hrefs := Paging.flatMap_of_shows (fun _ _ h => h.refs) hshows
  have hprefixes := Paging.flatMap_of_shows (fun _ _ h => h.prefixes) hshows
  rw [hall] at hrefs hprefixes
  refine ⟨pages, hrun, ?_, fun ref => ?_, ?_, fun p => ?_⟩
  · rw [hrefs]
    exact listedRefs_sorted tree dir _
  · rw [hrefs]
    exact mem_listedRefs_iff hne hv
  · rw [hprefixes]
    exact listedPrefixes_nodup hne hv _
  · rw [hprefixes]
    exact mem_listedPrefixes_iff hne hv

end Listing

/-- The bucket `b` with the files `a`, `e` and a directory `d` with one file. -/
def sampleTree : RefTree where
  entries :=
    [⟨[lit "b"], .dir⟩, ⟨[lit "b", lit "a"], .file⟩, ⟨[lit "b", lit "d"], .dir⟩,
      ⟨[lit "b", lit "d", lit "x"], .file⟩, ⟨[lit "b", lit "e"], .file⟩]
  sorted := by decide
  names_ne_nil := by decide
  valid := by decide
  parents := by decide

/-- The delimited listing of the bucket, one file a page. -/
theorem listing_pages_sample :
    ∃ pages, listPages sampleTree.getRefs (lit "/b/") (listFileType false (lit "/")) 1
        (decide (lit "/" ≠ [])) 7 = some pages ∧
      ((pages.flatMap ListPage.refs).map ORef.path).Pairwise (· < ·) ∧
      (∀ ref, ref ∈ pages.flatMap ListPage.refs ↔
        ∃ e ∈ sampleTree.entries, e.type = .file ∧
          (if lit "/" ≠ [] then e.ChildOf [lit "b"] else e.Below [lit "b"]) ∧
          ref = ⟨e.path, .file, relPath e.names.tail⟩) ∧
      (pages.flatMap ListPage.prefixes).Nodup ∧
      ∀ p, p ∈ pages.flatMap ListPage.prefixes ↔
        lit "/" ≠ [] ∧ ∃ e ∈ sampleTree.entries, e.type = .dir ∧ e.ChildOf [lit "b"] ∧
          p = relPath e.names.tail ++ [slash] :=
  listing_pages_partition sampleTree sampleTree.getRefs sampleTree.servesRefs [lit "b"] (by decide)
    (lit "/b/") (by decide) (lit "/") 1 (by decide) 7 (by decide)

end Zs3Server.Gateway.ListPages
