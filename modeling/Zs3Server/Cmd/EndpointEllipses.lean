import Zs3Server.Lib.ByteString

/-!
# Erasure sets from ellipses arguments

The drives named on the command line are spread over erasure sets of one size.  `getSetIndexes`
finds the size: a supported divisor of all the totals which spreads the drives evenly over the
ellipses, or the size the operator asks for.  `endpointSet.Get` then slices the endpoints.

* `getSetIndexes_ok` — what a size that is returned satisfies;
* `sets_partition` — the slices are the endpoints, in order and in sets of that size;
* `chosen_symmetric_iff` — when the size is symmetric for every ellipsis: only the last one read is
  looked at.
-/

namespace Zs3Server.Cmd.EndpointEllipses

open Lib.ByteString

/-- `ellipses.Pattern`. -/
structure Pattern where
  pre : GoString
  suf : GoString
  seq : List GoString
  deriving DecidableEq

abbrev ArgPattern := List Pattern

structure EndpointSet where
  argPatterns : List ArgPattern
  endpoints : List GoString
  setIndexes : List (List ℕ)

inductive SetIndexesError where
  | invalidArgument
  -- Incorrect number of endpoints provided %s
  | incorrectNumber (args : List GoString)
  -- ..., number of disks %d is not divisible by any supported erasure set sizes %d
  | notDivisible (args : List GoString) (commonSize : ℕ)
  -- Invalid set drive count. Acceptable values for %d number drives are %d
  | invalidSetDriveCount (commonSize : ℕ) (setCounts : List ℕ)
  -- No symmetric distribution detected with input endpoints provided %s, ...
  | noSymmetry (args : List GoString) (commonSize : ℕ)
  deriving DecidableEq

def setSizes : List ℕ := [4, 5, 6, 7, 8, 9, 10, 11, 12, 13, 14, 15, 16]

/-- The loop inside `getDivisibleSize`. -/
def gcdLoop (x y : ℕ) : ℕ := if y = 0 then x else gcdLoop y (x % y)
termination_by y
decreasing_by exact Nat.mod_lt x (by omega)

def getDivisibleSize (totalSizes : List ℕ) : ℕ := totalSizes.tail.foldl gcdLoop (totalSizes.headD 0)

def isValidSetSize (count : ℕ) : Bool := decide (count ≥ 4 ∧ count ≤ 16)

/-- Called with one count at least. -/
def commonSetDriveCount (divisibleSize : ℕ) (setCounts : List ℕ) : ℕ :=
  if divisibleSize < setCounts.getLastD 0 then divisibleSize
  else
    (setCounts.foldl (fun (acc : ℕ × ℕ) cnt =>
      if divisibleSize % cnt = 0 ∧ divisibleSize / cnt ≤ acc.1 then (divisibleSize / cnt, cnt)
      else acc) (divisibleSize / setCounts.headD 0, 0)).2

/-- One round of the symmetry loop; `none` is the division by an empty sequence. -/
def symmetryWith (ss : ℕ) (p : Pattern) : Option Bool :=
  if p.seq.length > ss then some (p.seq.length % ss == 0)
  else if p.seq.length = 0 then none
  else some (ss % p.seq.length == 0)

/-- Every round overwrites the flag. -/
def symmetry (ss : ℕ) (argPatterns : List ArgPattern) : Option Bool :=
  argPatterns.flatten.foldlM (fun _ p => symmetryWith ss p) false

/-- The keys of `newSetCounts`; no patterns at all (`nil`) let every count through. -/
def newSetCounts (argPatterns : Option (List ArgPattern)) : List ℕ → Option (List ℕ)
  | [] => some []
  | ss :: rest => do
    let flag ← symmetry ss (argPatterns.getD [])
    let counts ← newSetCounts argPatterns rest
    if flag || argPatterns.isNone then some (ss :: counts) else some counts

/-- The keys come out of a map, each once, and are sorted. -/
def possibleSetCountsWithSymmetry (setCounts : List ℕ) (argPatterns : Option (List ArgPattern)) :
    Option (List ℕ) :=
  (newSetCounts argPatterns setCounts).map fun counts => counts.dedup.insertionSort (· ≤ ·)

def possibleSetCounts (setSize : ℕ) : List ℕ := setSizes.filter fun s => setSize % s == 0

/-- The end of `getSetIndexes`, with the size decided. -/
def assignSets (args : List GoString) (totalSizes : List ℕ) (commonSize setSize : ℕ) :
    Except SetIndexesError (List (List ℕ)) :=
  if isValidSetSize setSize then .ok (totalSizes.map fun t => List.replicate (t / setSize) setSize)
  else .error (.notDivisible args commonSize)

/-- `none` is a panic. -/
def getSetIndexes (args : List GoString) (totalSizes : List ℕ) (customSetDriveCount : ℕ)
    (argPatterns : Option (List ArgPattern)) : Option (Except SetIndexesError (List (List ℕ))) :=
  if totalSizes = [] ∨ args = [] then some (.error .invalidArgument)
  else if ∃ t ∈ totalSizes, t < 4 ∨ t < customSetDriveCount then some (.error (.incorrectNumber args))
  else
    let commonSize := getDivisibleSize totalSizes
    let setCounts := possibleSetCounts commonSize
    if setCounts = [] then some (.error (.notDivisible args commonSize))
    else if customSetDriveCount > 0 then
      if customSetDriveCount ∈ setCounts then
        some (assignSets args totalSizes commonSize customSetDriveCount)
      else some (.error (.invalidSetDriveCount commonSize setCounts))
    else
      (possibleSetCountsWithSymmetry setCounts argPatterns).map fun symmetric =>
        if symmetric = [] then .error (.noSymmetry args commonSize)
        else assignSets args totalSizes commonSize (commonSetDriveCount commonSize symmetric)

section Endpoints

/- `ArgPattern.Expand` of the ellipses package: the labels of each endpoint. -/
variable (expand : ArgPattern → List (List GoString))

def getEndpoints (s : EndpointSet) : List GoString :=
  if s.endpoints ≠ [] then s.endpoints
  else s.argPatterns.flatMap fun argPattern => (expand argPattern).map List.flatten

/-- The rounds of `Get` from offset `k` on; `none` is a slice out of range. -/
def getLoop (endpoints : List GoString) : List ℕ → ℕ → Option (List (List GoString))
  | [], _ => some []
  | n :: rest, k =>
    if n + k ≤ endpoints.length then
      (getLoop endpoints rest (n + k)).map ((endpoints.drop k).take n :: ·)
    else none

/-- `endpointSet.Get`. -/
def get (s : EndpointSet) : Option (List (List GoString)) :=
  getLoop (getEndpoints expand s) s.setIndexes.flatten 0

end Endpoints

/-! ## Common divisors -/

theorem gcdLoop_eq (x y : ℕ) : gcdLoop x y = Nat.gcd x y := by
  induction x, y using gcdLoop.induct with
  | case1 x => simp [gcdLoop]
  | case2 x y hy ih =>
    rw [gcdLoop, if_neg hy, ih, Nat.gcd_comm x y, Nat.gcd_rec y x, Nat.gcd_comm]

theorem dvd_foldl_gcdLoop (s : ℕ) (rest : List ℕ) (x : ℕ) :
    s ∣ rest.foldl gcdLoop x ↔ s ∣ x ∧ ∀ t ∈ rest, s ∣ t := by
  induction rest generalizing x with
  | nil => simp
  | cons t rest ih =>
    rw [List.foldl_cons, ih, gcdLoop_eq, Nat.dvd_gcd_iff, List.forall_mem_cons, and_assoc]

/-- A size that is supported and divides every total. -/
def Common (totalSizes : List ℕ) (s : ℕ) : Prop := s ∈ setSizes ∧ ∀ t ∈ totalSizes, s ∣ t

theorem getDivisibleSize_pos {totalSizes : List ℕ} (hne : totalSizes ≠ [])
    (hpos : ∀ t ∈ totalSizes, 0 < t) : 0 < getDivisibleSize totalSizes := by
  obtain ⟨t, rest, rfl⟩ := List.exists_cons_of_ne_nil hne
  have hdvd : getDivisibleSize (t :: rest) ∣ t :=
    ((dvd_foldl_gcdLoop _ rest t).mp (Nat.dvd_refl _)).1
  exact Nat.pos_of_dvd_of_pos hdvd (hpos t List.mem_cons_self)

theorem mem_possibleSetCounts {totalSizes : List ℕ} (hne : totalSizes ≠ []) (s : ℕ) :
    s ∈ possibleSetCounts (getDivisibleSize totalSizes) ↔ Common totalSizes s := by
  obtain ⟨t, rest, rfl⟩ := List.exists_cons_of_ne_nil hne
  rw [possibleSetCounts, List.mem_filter, beq_iff_eq, ← Nat.dvd_iff_mod_eq_zero, Common,
    getDivisibleSize, dvd_foldl_gcdLoop, List.forall_mem_cons]
  rfl

theorem mem_setSizes (s : ℕ) : s ∈ setSizes ↔ 4 ≤ s ∧ s ≤ 16 := by
  constructor
  · intro h
    have hall : ∀ s ∈ setSizes, 4 ≤ s ∧ s ≤ 16 := by decide
    exact hall s h
  · intro h
    obtain ⟨h4, h16⟩ := h
    interval_cases s <;> decide

/-! ## The selection -/

/-- Over ascending divisors every round improves on the one before, so the last one stays. -/
theorem foldl_ascending (size : ℕ) (counts : List ℕ) (prev : ℕ × ℕ)
    (hasc : counts.Pairwise (· < ·)) (hdvd : ∀ c ∈ counts, 0 < c ∧ c ∣ size)
    (hprev : ∀ c ∈ counts, size / c ≤ prev.1) :
    (counts.foldl (fun (acc : ℕ × ℕ) cnt =>
      if size % cnt = 0 ∧ size / cnt ≤ acc.1 then (size / cnt, cnt) else acc) prev).2 =
        counts.getLastD prev.2 := by
  induction counts generalizing prev with
  | nil => rfl
  | cons c rest ih =>
    obtain ⟨hlt, hrest⟩ := List.pairwise_cons.mp hasc
    obtain ⟨hc, hcd⟩ := hdvd c List.mem_cons_self
    have hround : size % c = 0 ∧ size / c ≤ prev.1 :=
      ⟨Nat.dvd_iff_mod_eq_zero.mp hcd, hprev c List.mem_cons_self⟩
    rw [List.foldl_cons, if_pos hround, ih _ hrest (fun x hx => hdvd x (List.mem_cons_of_mem _ hx))
      (fun x hx => Nat.div_le_div_left (hlt x hx).le hc)]
    cases rest with
    | nil => rfl
    | cons d rest => simp only [List.getLastD_cons]

/-- **The count that is taken** is the last one, where all divide the size and they ascend. -/
theorem commonSetDriveCount_eq {size : ℕ} (hsize : 0 < size) {counts : List ℕ}
    (hasc : counts.Pairwise (· < ·)) (hdvd : ∀ c ∈ counts, 0 < c ∧ c ∣ size) (hne : counts ≠ []) :
    commonSetDriveCount size counts = counts.getLast hne := by
  obtain ⟨c, rest, rfl⟩ := List.exists_cons_of_ne_nil hne
  have hlast : (c :: rest).getLastD 0 = (c :: rest).getLast hne := by
    rw [List.getLastD_eq_getLast?, List.getLast?_eq_some_getLast hne, Option.getD_some]
  have hle : ¬ size < (c :: rest).getLastD 0 := by
    rw [hlast, Nat.not_lt]
    exact Nat.le_of_dvd hsize (hdvd _ (List.getLast_mem hne)).2
  have hfirst : ∀ x ∈ c :: rest, size / x ≤ size / c := by
    intro x hx
    rcases List.mem_cons.mp hx with rfl | hx
    · exact Nat.le_refl _
    · exact Nat.div_le_div_left ((List.pairwise_cons.mp hasc).1 x hx).le (hdvd c (by simp)).1
  rw [commonSetDriveCount, if_neg hle, foldl_ascending size _ _ hasc hdvd hfirst, hlast]

theorem isGreatest_getLast {counts : List ℕ} (hasc : counts.Pairwise (· < ·)) (hne : counts ≠ []) :
    IsGreatest {s | s ∈ counts} (counts.getLast hne) := by
  refine ⟨List.getLast_mem hne, ?_⟩
  intro s hs
  have hsplit := List.dropLast_append_getLast hne
  rw [← hsplit] at hasc
  have hs' : s ∈ counts.dropLast ++ [counts.getLast hne] := by rwa [hsplit]
  rcases List.mem_append.mp hs' with h | h
  · exact ((List.pairwise_append.mp hasc).2.2 s h _ (by simp)).le
  · exact (List.mem_singleton.mp h).le

/-! ## Symmetry -/

/-- The drives spread evenly: one of the two numbers is a multiple of the other. -/
def Symmetric (s : ℕ) (p : Pattern) : Prop := s ∣ p.seq.length ∨ p.seq.length ∣ s

/-- The last ellipsis of the last argument that has one. -/
def lastPattern (argPatterns : List ArgPattern) : Option Pattern := argPatterns.flatten.getLast?

/-- What the loop lets through. -/
def Accepts (argPatterns : Option (List ArgPattern)) (s : ℕ) : Prop :=
  argPatterns = none ∨ ∃ p, lastPattern (argPatterns.getD []) = some p ∧ Symmetric s p

theorem symmetryWith_iff {ss : ℕ} (hss : 0 < ss) {p : Pattern} {flag : Bool}
    (h : symmetryWith ss p = some flag) : flag = true ↔ Symmetric ss p := by
  unfold symmetryWith at h
  unfold Symmetric
  split at h
  · next hlong =>
    obtain rfl := Option.some.inj h
    rw [beq_iff_eq, ← Nat.dvd_iff_mod_eq_zero]
    refine ⟨.inl, fun hsym => hsym.resolve_right ?_⟩
    intro hdvd
    exact absurd (Nat.le_of_dvd hss hdvd) (by omega)
  · next hshort =>
    split at h
    · cases h
    · next hpos =>
      obtain rfl := Option.some.inj h
      rw [beq_iff_eq, ← Nat.dvd_iff_mod_eq_zero]
      refine ⟨.inr, fun hsym => hsym.elim ?_ id⟩
      intro hdvd
      have hle := Nat.le_of_dvd (Nat.pos_of_ne_zero hpos) hdvd
      rw [show p.seq.length = ss by omega]

/-- The flag after the loop is that of its last round. -/
theorem foldlM_overwrite {f : Pattern → Option Bool} (l : List Pattern) {init flag : Bool}
    (h : l.foldlM (fun _ p => f p) init = some flag) :
    l = [] ∧ flag = init ∨ ∃ p, l.getLast? = some p ∧ f p = some flag := by
  induction l generalizing init with
  | nil => exact .inl ⟨rfl, (Option.some.inj h).symm⟩
  | cons p rest ih =>
    rw [List.foldlM_cons] at h
    obtain ⟨b, hb, hrest⟩ := Option.bind_eq_some_iff.mp h
    rcases ih hrest with hnil | hlast
    · obtain ⟨rfl, rfl⟩ := hnil
      exact .inr ⟨p, rfl, hb⟩
    · obtain ⟨q, hq, hflag⟩ := hlast
      refine .inr ⟨q, ?_, hflag⟩
      rw [List.getLast?_cons, hq]
      rfl

theorem symmetry_iff {ss : ℕ} (hss : 0 < ss) {argPatterns : List ArgPattern} {flag : Bool}
    (h : symmetry ss argPatterns = some flag) :
    flag = true ↔ ∃ p, lastPattern argPatterns = some p ∧ Symmetric ss p := by
  rw [lastPattern]
  rcases foldlM_overwrite _ h with hnil | hlast
  · obtain ⟨hnil, rfl⟩ := hnil
    simp [hnil]
  · obtain ⟨p, hp, hflag⟩ := hlast
    rw [hp, symmetryWith_iff hss hflag]
    simp

/-- **The filter**: the counts are kept in their order. -/
theorem newSetCounts_spec {argPatterns : Option (List ArgPattern)} {setCounts counts : List ℕ}
    (hpos : ∀ s ∈ setCounts, 0 < s) (h : newSetCounts argPatterns setCounts = some counts) :
    counts.Sublist setCounts ∧ ∀ s, s ∈ counts ↔ s ∈ setCounts ∧ Accepts argPatterns s := by
  induction setCounts generalizing counts with
  | nil =>
    obtain rfl := Option.some.inj h
    simp
  | cons ss rest ih =>
    obtain ⟨flag, hflag, h⟩ := Option.bind_eq_some_iff.mp h
    obtain ⟨tail, htail, h⟩ := Option.bind_eq_some_iff.mp h
    obtain ⟨hsub, hmem⟩ := ih (fun s hs => hpos s (List.mem_cons_of_mem _ hs)) htail
    have haccept : (flag || argPatterns.isNone) = true ↔ Accepts argPatterns ss := by
      rw [Bool.or_eq_true, symmetry_iff (hpos ss List.mem_cons_self) hflag, Option.isNone_iff_eq_none,
        Accepts, or_comm]
    split at h
    · next hkeep =>
      obtain rfl := Option.some.inj h
      refine ⟨hsub.cons_cons ss, fun s => ?_⟩
      have := haccept.mp hkeep
      simp only [List.mem_cons, hmem]
      constructor
      · intro hs
        rcases hs with rfl | hs
        · exact ⟨.inl rfl, this⟩
        · exact ⟨.inr hs.1, hs.2⟩
      · intro hs
        exact hs.1.imp id (fun h => ⟨h, hs.2⟩)
    · next hdrop =>
      obtain rfl := Option.some.inj h
      refine ⟨hsub.cons ss, fun s => ?_⟩
      rw [hmem, List.mem_cons]
      refine ⟨fun hs => ⟨.inr hs.1, hs.2⟩, fun hs => ⟨hs.1.resolve_left ?_, hs.2⟩⟩
      rintro rfl
      exact hdrop (haccept.mpr hs.2)

/-- The counts ascend already, so neither the map nor the sort changes them. -/
theorem possibleSetCountsWithSymmetry_spec {size : ℕ} {argPatterns : Option (List ArgPattern)}
    {counts : List ℕ}
    (h : possibleSetCountsWithSymmetry (possibleSetCounts size) argPatterns = some counts) :
    counts.Pairwise (· < ·) ∧
      ∀ s, s ∈ counts ↔ s ∈ possibleSetCounts size ∧ Accepts argPatterns s := by
  obtain ⟨kept, hkept, hsort⟩ := Option.map_eq_some_iff.mp h
  have hpos : ∀ s ∈ possibleSetCounts size, 0 < s := by
    intro s hs
    have := (mem_setSizes s).mp (List.mem_of_mem_filter hs)
    omega
  obtain ⟨hsub, hmem⟩ := newSetCounts_spec hpos hkept
  have hall : setSizes.Pairwise (· < ·) := by decide
  have hasc : kept.Pairwise (· < ·) := (hall.sublist List.filter_sublist).sublist hsub
  have hsame : counts = kept := by
    rw [← hsort, List.Nodup.dedup (hasc.imp fun hlt => Nat.ne_of_lt hlt)]
    exact List.Pairwise.insertionSort_eq (hasc.imp fun hlt => Nat.le_of_lt hlt)
  rw [hsame]
  exact ⟨hasc, hmem⟩

/-! ## What is returned -/

/-- A size that `getSetIndexes` may settle on. -/
structure Chosen (totalSizes : List ℕ) (customSetDriveCount : ℕ)
    (argPatterns : Option (List ArgPattern)) (size : ℕ) : Prop where
  nonempty : totalSizes ≠ []
  large : ∀ t ∈ totalSizes, 4 ≤ t
  common : Common totalSizes size
  custom : customSetDriveCount ≠ 0 → size = customSetDriveCount
  greatest : customSetDriveCount = 0 →
    IsGreatest {s | Common totalSizes s ∧ Accepts argPatterns s} size

theorem assignSets_ok {args : List GoString} {totalSizes : List ℕ} {commonSize size : ℕ}
    {setIndexes : List (List ℕ)} (h : assignSets args totalSizes commonSize size = .ok setIndexes) :
    setIndexes = totalSizes.map fun t => List.replicate (t / size) size := by
  unfold assignSets at h
  split at h
  · exact (Except.ok.inj h).symm
  · cases h

/-- **A size that is returned** divides every total; it is the custom one, or the greatest one the
symmetry loop lets through. -/
theorem getSetIndexes_ok {args : List GoString} {totalSizes : List ℕ} {customSetDriveCount : ℕ}
    {argPatterns : Option (List ArgPattern)} {setIndexes : List (List ℕ)}
    (h : getSetIndexes args totalSizes customSetDriveCount argPatterns = some (.ok setIndexes)) :
    ∃ size, Chosen totalSizes customSetDriveCount argPatterns size ∧
      setIndexes = totalSizes.map fun t => List.replicate (t / size) size := by
  unfold getSetIndexes at h
  split at h
  · cases h
  next hargs =>
  have hne : totalSizes ≠ [] := fun hnil => hargs (.inl hnil)
  split at h
  · cases h
  next hlarge =>
  have hfour : ∀ t ∈ totalSizes, 4 ≤ t := by
    intro t ht
    by_contra hlt
    exact hlarge ⟨t, ht, .inl (by omega)⟩
  have hmem := mem_possibleSetCounts hne
  dsimp only at h
  split at h
  · cases h
  split at h
  · next hcustom =>
    split at h
    · next hfound =>
      refine ⟨customSetDriveCount, ⟨hne, hfour, (hmem _).mp hfound, fun _ => rfl, fun h0 => ?_⟩,
        assignSets_ok (Option.some.inj h)⟩
      omega
    · cases h
  · next hauto =>
    obtain ⟨counts, hcounts, h⟩ := Option.map_eq_some_iff.mp h
    obtain ⟨hasc, hspec⟩ := possibleSetCountsWithSymmetry_spec hcounts
    split at h
    · cases h
    next hsome =>
    have hdvd : ∀ c ∈ counts, 0 < c ∧ c ∣ getDivisibleSize totalSizes := by
      intro c hc
      have hin := ((hspec c).mp hc).1
      have hsupported := (mem_setSizes c).mp (List.mem_of_mem_filter hin)
      refine ⟨by omega, ?_⟩
      simpa [Nat.dvd_iff_mod_eq_zero] using (List.mem_filter.mp hin).2
    have hsize := getDivisibleSize_pos hne fun t ht => Nat.lt_of_lt_of_le (by decide) (hfour t ht)
    have hlast := isGreatest_getLast hasc hsome
    rw [← commonSetDriveCount_eq hsize hasc hdvd hsome] at hlast
    have hset : {s | s ∈ counts} = {s | Common totalSizes s ∧ Accepts argPatterns s} := by
      ext s
      rw [Set.mem_ofPred_eq, Set.mem_ofPred_eq, hspec, hmem]
    rw [hset] at hlast
    exact ⟨_, ⟨hne, hfour, hlast.1.1, fun h0 => absurd h0 (by omega), fun _ => hlast⟩, assignSets_ok h⟩

/-- **The slices** from an offset on, where the endpoints suffice. -/
theorem getLoop_spec (endpoints : List GoString) (sizes : List ℕ) (k : ℕ)
    (hfits : sizes.sum + k ≤ endpoints.length) :
    ∃ sets, getLoop endpoints sizes k = some sets ∧ sets.map List.length = sizes ∧
      sets.flatten = (endpoints.drop k).take sizes.sum := by
  induction sizes generalizing k with
  | nil => exact ⟨[], rfl, rfl, by simp⟩
  | cons n rest ih =>
    rw [List.sum_cons] at hfits
    obtain ⟨sets, hloop, hlens, hflat⟩ := ih (n + k) (by omega)
    refine ⟨(endpoints.drop k).take n :: sets, ?_, ?_, ?_⟩
    · rw [getLoop, if_pos (by omega), hloop]
      rfl
    · rw [List.map_cons, hlens, List.length_take, List.length_drop, Nat.min_eq_left (by omega)]
    · rw [List.flatten_cons, hflat, List.sum_cons, List.take_add, List.drop_drop, Nat.add_comm k n]

/-- **Endpoint sets partition the drives.**  One size, supported or asked for, fills every total,
and the sets are consecutive slices of the endpoints which together are all of them. -/
theorem sets_partition (expand : ArgPattern → List (List GoString)) (args : List GoString)
    (totalSizes : List ℕ) (customSetDriveCount : ℕ) (argPatterns : Option (List ArgPattern))
    (s : EndpointSet)
    (hok : getSetIndexes args totalSizes customSetDriveCount argPatterns = some (.ok s.setIndexes))
    (hlen : (getEndpoints expand s).length = totalSizes.sum) :
    ∃ size, 4 ≤ size ∧ size ≤ 16 ∧ (customSetDriveCount ≠ 0 → size = customSetDriveCount) ∧
      (∀ sizes ∈ s.setIndexes, ∀ n ∈ sizes, n = size) ∧ s.setIndexes.map List.sum = totalSizes ∧
      ∃ sets, get expand s = some sets ∧ (∀ set ∈ sets, set.length = size) ∧
        sets.flatten = getEndpoints expand s := by
  obtain ⟨size, hchosen, hindexes⟩ := getSetIndexes_ok hok
  obtain ⟨h4, h16⟩ := (mem_setSizes size).mp hchosen.common.1
  have hsize : ∀ sizes ∈ s.setIndexes, ∀ n ∈ sizes, n = size := by
    intro sizes hsizes n hn
    rw [hindexes] at hsizes
    obtain ⟨t, -, rfl⟩ := List.mem_map.mp hsizes
    exact List.eq_of_mem_replicate hn
  have hsums : s.setIndexes.map List.sum = totalSizes := by
    rw [hindexes, List.map_map]
    refine (List.map_congr_left fun t ht => ?_).trans (List.map_id _)
    rw [Function.comp_apply, List.sum_replicate, smul_eq_mul, Nat.div_mul_cancel (hchosen.common.2 t ht)]
    rfl
  have htotal : s.setIndexes.flatten.sum = (getEndpoints expand s).length := by
    rw [List.sum_flatten, hsums, hlen]
  obtain ⟨sets, hget, hlens, hflat⟩ :=
    getLoop_spec (getEndpoints expand s) s.setIndexes.flatten 0 (by omega)
  refine ⟨size, h4, h16, hchosen.custom, hsize, hsums, sets, hget, ?_, ?_⟩
  · intro set hset
    have hmem : set.length ∈ s.setIndexes.flatten := by
      rw [← hlens]
      exact List.mem_map_of_mem hset
    obtain ⟨sizes, hsizes, hn⟩ := List.mem_flatten.mp hmem
    exact hsize sizes hsizes _ hn
  · rw [hflat, htotal, List.drop_zero, List.take_length]

/-- Every ellipsis takes all its values, the last one in an argument first. -/
def labels : ArgPattern → List (List GoString)
  | [] => [[]]
  | p :: rest => p.seq.flatMap fun v => (labels rest).map (· ++ [p.pre ++ v ++ p.suf])

/-- `http://n{1...2}/a{1...4} http://m{1...2}/b{1...4}`. -/
def twoArgs : List ArgPattern :=
  let two := [lit "1", lit "2"]
  let four := [lit "1", lit "2", lit "3", lit "4"]
  [[⟨lit "/a", [], four⟩, ⟨lit "http://n", [], two⟩], [⟨lit "/b", [], four⟩, ⟨lit "http://m", [], two⟩]]

/-- Sixteen drives of two arguments, in sets of four as asked for. -/
theorem sets_partition_sixteen : ∃ sets,
    get labels ⟨twoArgs, [], [[4, 4], [4, 4]]⟩ = some sets ∧ (∀ set ∈ sets, set.length = 4) ∧
      sets.flatten = getEndpoints labels ⟨twoArgs, [], [[4, 4], [4, 4]]⟩ := by
  obtain ⟨size, -, -, hcustom, -, -, sets, hget, hsize, hflat⟩ :=
    sets_partition labels [lit "http://n{1...2}/a{1...4}", lit "http://m{1...2}/b{1...4}"] [8, 8] 4
      (some twoArgs) ⟨twoArgs, [], [[4, 4], [4, 4]]⟩ (by decide +kernel) (by decide +kernel)
  exact ⟨sets, hget, hcustom (by decide) ▸ hsize, hflat⟩

/-- Each argument counts the product of its ellipses, in `uint64`. -/
def getTotalSizes (argPatterns : List ArgPattern) : List ℕ :=
  argPatterns.map fun argPattern =>
    argPattern.foldl (fun totalSize p => totalSize * p.seq.length % 2 ^ 64) 1

theorem foldl_total (argPattern : ArgPattern) (acc : ℕ) :
    argPattern.foldl (fun totalSize p => totalSize * p.seq.length % 2 ^ 64) (acc % 2 ^ 64) =
      acc * (argPattern.map fun p => p.seq.length).prod % 2 ^ 64 := by
  induction argPattern generalizing acc with
  | nil => simp
  | cons p rest ih =>
    rw [List.foldl_cons, Nat.mod_mul_mod, ih, List.map_cons, List.prod_cons, Nat.mul_assoc]

/-- **Parsed arguments have as many endpoints as they count**, where each ellipsis expands to all
its values and no product overflows. -/
theorem length_getEndpoints_parsed (expand : ArgPattern → List (List GoString))
    (hexpand : ∀ a, (expand a).length = (a.map fun p => p.seq.length).prod)
    (argPatterns : List ArgPattern)
    (hsmall : ∀ a ∈ argPatterns, (a.map fun p => p.seq.length).prod < 2 ^ 64)
    (setIndexes : List (List ℕ)) :
    (getEndpoints expand ⟨argPatterns, [], setIndexes⟩).length = (getTotalSizes argPatterns).sum := by
  rw [getEndpoints, if_neg (by simp), List.length_flatMap, getTotalSizes]
  congr 1
  refine List.map_congr_left fun a ha => ?_
  have htotal := foldl_total a 1
  rw [Nat.one_mul, Nat.mod_eq_of_lt (hsmall a ha)] at htotal
  rw [List.length_map, hexpand]
  exact htotal.symm

theorem length_labels (a : ArgPattern) : (labels a).length = (a.map fun p => p.seq.length).prod := by
  induction a with
  | nil => rfl
  | cons p rest ih => simp [labels, List.length_flatMap, ih]

theorem length_getEndpoints_parsed_two : (getEndpoints labels ⟨twoArgs, [], []⟩).length = 16 :=
  length_getEndpoints_parsed labels length_labels twoArgs (by decide +kernel) []

/-! ## Every ellipsis -/

/-- For every common size symmetric with the last ellipsis there is one as large that is symmetric
with all of them. -/
def LastDecides (totalSizes : List ℕ) (argPatterns : List ArgPattern) : Prop :=
  ∀ s p, Common totalSizes s → lastPattern argPatterns = some p → Symmetric s p →
    ∃ s', s ≤ s' ∧ Common totalSizes s' ∧ ∀ q ∈ argPatterns.flatten, Symmetric s' q

/-- **When the chosen size is symmetric for every ellipsis**: the loop keeps the answer of the last
one only, so the others must not ask for less. -/
theorem chosen_symmetric_iff (args : List GoString) (totalSizes : List ℕ)
    (argPatterns : List ArgPattern) (setIndexes : List (List ℕ))
    (hok : getSetIndexes args totalSizes 0 (some argPatterns) = some (.ok setIndexes)) :
    (∀ sizes ∈ setIndexes, ∀ s ∈ sizes, ∀ argPattern ∈ argPatterns, ∀ p ∈ argPattern,
      Symmetric s p) ↔ LastDecides totalSizes argPatterns := by
  obtain ⟨size, hchosen, rfl⟩ := getSetIndexes_ok hok
  obtain ⟨hin, hmax⟩ := hchosen.greatest rfl
  have haccepts : ∀ s, Accepts (some argPatterns) s ↔
      ∃ p, lastPattern argPatterns = some p ∧ Symmetric s p := by
    intro s
    simp [Accepts]
  -- every total has a set, so the size is one of the entries
  have hentries : (∀ sizes ∈ totalSizes.map (fun t => List.replicate (t / size) size), ∀ s ∈ sizes,
      ∀ argPattern ∈ argPatterns, ∀ p ∈ argPattern, Symmetric s p) ↔
        ∀ q ∈ argPatterns.flatten, Symmetric size q := by
    constructor
    · intro h q hq
      obtain ⟨t, rest, hts⟩ := List.exists_cons_of_ne_nil hchosen.nonempty
      have ht : t ∈ totalSizes := by simp [hts]
      have hpos : t / size ≠ 0 := by
        have hle := Nat.le_of_dvd (by have := hchosen.large t ht; omega) (hchosen.common.2 t ht)
        have := (mem_setSizes size).mp hchosen.common.1
        exact Nat.ne_of_gt (Nat.div_pos hle (by omega))
      obtain ⟨a, ha, hqa⟩ := List.mem_flatten.mp hq
      exact h _ (List.mem_map_of_mem ht) size (List.mem_replicate.mpr ⟨hpos, rfl⟩) a ha q hqa
    · intro h sizes hsizes s hs a ha p hp
      obtain ⟨t, -, rfl⟩ := List.mem_map.mp hsizes
      rw [List.eq_of_mem_replicate hs]
      exact h p (List.mem_flatten.mpr ⟨a, ha, hp⟩)
  rw [hentries]
  constructor
  · intro h s p hs hp hsym
    exact ⟨size, hmax ⟨hs, (haccepts s).mpr ⟨p, hp, hsym⟩⟩, hchosen.common, h⟩
  · intro h
    obtain ⟨p, hp, hsym⟩ := (haccepts size).mp hin.2
    obtain ⟨s', hle, hcommon, hall⟩ := h size p hchosen.common hp hsym
    have hge : s' ≤ size :=
      hmax ⟨hcommon, (haccepts s').mpr ⟨p, hp, hall p (List.mem_of_getLast? hp)⟩⟩
    rwa [Nat.le_antisymm hle hge]

/-- `{1...8}` alone: the size is 8. -/
theorem chosen_symmetric_eight :
    getSetIndexes [lit "d"] [8] 0 (some [[⟨[], [], List.replicate 8 []⟩]]) = some (.ok [[8]]) ∧
      ∀ sizes ∈ [[8]], ∀ s ∈ sizes, ∀ argPattern ∈ [[⟨[], [], List.replicate 8 []⟩]],
        ∀ p ∈ argPattern, Symmetric s p := by
  have hok : getSetIndexes [lit "d"] [8] 0 (some [[⟨[], [], List.replicate 8 []⟩]]) =
      some (.ok [[8]]) := by decide +kernel
  refine ⟨hok, (chosen_symmetric_iff _ _ _ _ hok).mpr ?_⟩
  intro s p hs hp hsym
  exact ⟨s, Nat.le_refl s, hs, by simpa [lastPattern, ← Option.some.inj hp] using hsym⟩

/-- Five drives on each of four hosts, with the hosts read last: sets of four, into which five
drives do not fit. -/
theorem sets_of_four_for_five :
    getSetIndexes [lit "d"] [20] 0
        (some [[⟨[], [], List.replicate 5 []⟩, ⟨[], [], List.replicate 4 []⟩]]) =
      some (.ok [List.replicate 5 4]) ∧ ¬ Symmetric 4 ⟨[], [], List.replicate 5 []⟩ := by
  refine ⟨by decide +kernel, ?_⟩
  unfold Symmetric
  decide

end Zs3Server.Cmd.EndpointEllipses
