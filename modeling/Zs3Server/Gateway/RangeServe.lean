import Zs3Server.Gateway.RangeRead
import Zs3Server.Cmd.HttpRange

/-!
# Serving an HTTP range: two interpreters of one specification

`GetObjectNInfo` turns a parsed range into the pair of positions that `getFileReader` takes, with its
own arithmetic: a suffix `-n` becomes the closed range `[n, 2n - 1]`, and an open-ended `a-` keeps
the sentinel `-1`.  The handler interprets the same specification with `GetOffsetLength`, which
gives the offset and the length the response announces.  The two agree on some ranges only:

* a closed range is served when its blocks are covered, or when it runs past the end of the object;
* an open-ended range is served when it starts at 0 or at the third chunk or later — in the first two
  chunks the whole object is handed out through the unseeked pipe;
* a suffix is served when it is exactly half of the object (and its blocks are covered), or so long
  that its arithmetic overflows into a request for the whole object.

`RangeServed` states these conditions and `getObjectNInfo_serves_iff` proves them exact.
-/

namespace Zs3Server.Gateway.RangeServe

open Lib.GoInt64 Lib.ByteString
open Cmd.HttpRange Gateway.RangeRead

/-! ### The model -/

/-- The positions `GetObjectNInfo` hands to `getFileReader`; no range asks for the whole object. -/
def requestedRange (rs : Option HTTPRangeSpec) : ℤ × ℤ :=
  match rs with
  | none => (1, 0)
  | some rs =>
    if rs.isSuffixLength then
      let rangeStart := wrap64 (-rs.start)
      -- take absolute value of difference between start and end
      let rangeEnd :=
        if wrap64 (rs.stop - rs.start) > 0 then wrap64 (rangeStart + wrap64 (rs.stop - rs.start))
        else wrap64 (rangeStart + wrap64 (rs.start - rs.stop))
      (rangeStart, rangeEnd)
    else (rs.start, rs.stop)

/-- `NewGetObjectReaderFromReader`: the reader as it is, unless the precondition check of the request
refuses the object. -/
def newGetObjectReaderFromReader (checkPrecondFn : Option (ObjectRef → Bool)) (oi : ObjectRef)
    (r : Reader) : Except GoString Reader :=
  match checkPrecondFn with
  | some f => if f oi then .error (lit "PreConditionFailed") else .ok r
  | none => .ok r

/-- `GetObjectNInfo`. -/
def getObjectNInfo (L : ShardLayout) (ref : Except GoString ObjectRef)
    (checkPrecondFn : Option (ObjectRef → Bool)) (download : ℤ → ℤ → Download)
    (rs : Option HTTPRangeSpec) : Except GoString Reader :=
  let (rangeStart, rangeEnd) := requestedRange rs
  match ref with
  | .error e => .error e
  | .ok oi =>
    match getFileReader L (.ok oi) download rangeStart rangeEnd with
    | .error e => .error e
    | .ok r => newGetObjectReaderFromReader checkPrecondFn oi r

/-! ### The positions of the three forms -/

theorem requestedRange_plain (a b : ℤ) : requestedRange (some ⟨false, a, b⟩) = (a, b) := rfl

theorem requestedRange_suffix {n : ℤ} (h1 : 1 ≤ n) (h2 : n < 2 ^ 63) :
    requestedRange (some ⟨true, -n, -1⟩) = (n, wrap64 (2 * n - 1)) := by
  unfold requestedRange
  simp only [if_true, neg_neg]
  rw [wrap64_of_mem (x := n) ⟨by omega, h2⟩, wrap64_of_mem (x := -1 - -n) ⟨by omega, by omega⟩,
    wrap64_of_mem (x := -n - -1) ⟨by omega, by omega⟩]
  split
  · rw [show n + (-1 - -n) = 2 * n - 1 by ring]
  · rw [show n + (-n - -1) = 2 * n - 1 by omega]

/-! ### What the stream of each form is -/

section
variable {L : ShardLayout} {isEncrypted : Bool} {sdk : List UInt8 → ℤ → ℤ → Download}

/-- A range that asks for the whole object yields it through the pipe. -/
theorem getFileReader_whole (hsdk : DownloadsBlocks (effectiveChunkSize L isEncrypted) sdk)
    (content : List UInt8) (size : ℤ) {a b : ℤ} (hba : b < a) (hb : b ≠ -1) :
    getFileReader L (.ok ⟨size, isEncrypted⟩) (sdk content) a b = .ok ⟨content, none⟩ := by
  unfold getFileReader blockRange
  simp only [if_pos hba, if_neg (show ¬ b ≥ a by omega), if_neg hb, hsdk content 1 0 le_rfl,
    and_self, if_true]
  simp [blockBytes]

/-- An open-ended range that starts in the first two chunks yields the whole object as well. -/
theorem getFileReader_open_near (hsdk : DownloadsBlocks (effectiveChunkSize L isEncrypted) sdk)
    (content : List UInt8) (size : ℤ) {a : ℤ} (ha : 0 ≤ a)
    (hnear : a < 2 * effectiveChunkSize L isEncrypted) :
    getFileReader L (.ok ⟨size, isEncrypted⟩) (sdk content) a (-1) = .ok ⟨content, none⟩ := by
  obtain ⟨hc, -⟩ := effectiveChunkSize_bounds L isEncrypted
  have hq : a / effectiveChunkSize L isEncrypted < 2 := Int.ediv_lt_of_lt_mul hc hnear
  have hq0 : 0 ≤ a / effectiveChunkSize L isEncrypted := Int.ediv_nonneg ha hc.le
  have hfb : firstBlock (effectiveChunkSize L isEncrypted) a = 1 := by
    rw [firstBlock_eq ha]
    split <;> omega
  unfold getFileReader blockRange
  simp only [hfb, if_true, hsdk content 1 0 le_rfl, and_self]
  simp [blockBytes]

/-- An open-ended range that starts later is sought to its start. -/
theorem getFileReader_open_far (hsdk : DownloadsBlocks (effectiveChunkSize L isEncrypted) sdk)
    (content : List UInt8) {a : ℤ} (hs : (content.length : ℤ) < 2 ^ 63)
    (hfar : 2 * effectiveChunkSize L isEncrypted ≤ a) (has : a < content.length) :
    getFileReader L (.ok ⟨content.length, isEncrypted⟩) (sdk content) a (-1) =
      .ok ⟨content.drop a.toNat, none⟩ := by
  obtain ⟨hc, -⟩ := effectiveChunkSize_bounds L isEncrypted
  set chunk := effectiveChunkSize L isEncrypted with hchunk
  have ha : 0 ≤ a := by omega
  obtain ⟨hf1, hf2⟩ := firstBlock_bounds hc ha
  have hq : 2 ≤ a / chunk := (Int.le_ediv_iff_mul_le hc).mpr hfar
  have hfb : ¬ firstBlock chunk a = 1 := by
    rw [firstBlock_eq ha]
    split <;> omega
  have hpos : 0 ≤ (firstBlock chunk a - 1) * chunk := by nlinarith
  have hoff : wrap64 (a - (firstBlock chunk a - 1) * chunk) =
      a - (firstBlock chunk a - 1) * chunk := wrap64_of_mem ⟨by omega, by omega⟩
  have hlen : wrap64 ((content.length : ℤ) - a) = content.length - a :=
    wrap64_of_mem ⟨by omega, by omega⟩
  unfold getFileReader blockRange
  simp only [← hchunk, if_true, hsdk content _ _ hf1, hoff, hlen]
  rw [if_neg (fun h => hfb h.1), if_neg (by omega)]
  unfold blockBytes
  rw [if_pos rfl, List.drop_drop,
    show ((firstBlock chunk a - 1) * chunk).toNat + (a - (firstBlock chunk a - 1) * chunk).toNat
      = a.toNat by omega,
    List.take_of_length_le (by rw [List.length_drop]; omega)]

/-! ### When a range is served -/

/-- **The stream of a range specification serves its window**: for every object of the size, the
stream is handed out and its first `len` bytes are the object's bytes from `off` on. -/
def ServesRange (L : ShardLayout) (isEncrypted : Bool) (sdk : List UInt8 → ℤ → ℤ → Download)
    (checkPrecondFn : Option (ObjectRef → Bool)) (s : ℕ) (rs : HTTPRangeSpec) (off len : ℤ) : Prop :=
  ∀ content : List UInt8, content.length = s →
    ∃ r, getObjectNInfo L (.ok ⟨s, isEncrypted⟩) checkPrecondFn (sdk content) (some rs) = .ok r ∧
      r.bytes.take len.toNat = (content.drop off.toNat).take len.toNat

/-- **The ranges that are served**, by their form. -/
def RangeServed (chunk s : ℤ) (rs : HTTPRangeSpec) : Prop :=
  if rs.isSuffixLength then
    (s = 2 * -rs.start ∧ ClosedRangeCovered chunk (-rs.start) (s - 1)) ∨
      (2 ^ 62 < -rs.start ∧ s ≤ -rs.start)
  else if rs.stop = -1 then rs.start = 0 ∨ 2 * chunk ≤ rs.start
  else ClosedRangeCovered chunk rs.start rs.stop ∨
    (rs.start ≠ 0 ∧ s ≤ rs.stop ∧ rs.stop + chunk ≤ 2 ^ 63)

/-- An object whose only non-zero byte is at position `k`. -/
def markedObject (s k : ℕ) : List UInt8 := (List.range s).map fun i => if i = k then 1 else 0

theorem markedObject_length (s k : ℕ) : (markedObject s k).length = s := by
  simp [markedObject]

theorem markedObject_getElem? {s j : ℕ} (k : ℕ) (hj : j < s) :
    (markedObject s k)[j]? = some (if j = k then 1 else 0) := by
  simp [markedObject, hj]

/-- Two windows that agree start with the same byte. -/
theorem head_of_window_eq {x y : List UInt8} {n : ℕ} (hn : 0 < n) (h : x.take n = y.take n) :
    x[0]? = y[0]? := by
  have h0 := congrArg (fun l : List UInt8 => l[0]?) h
  simpa [List.getElem?_take, hn] using h0

/-- A stream that starts at `p` does not serve a window that starts elsewhere. -/
theorem not_window_of_offset_ne {s p q n : ℕ} (hn : 0 < n) (hq : q < s) (hpq : p ≠ q)
    {stream : List UInt8} (hstream : stream[0]? = none ∨ stream[0]? = (markedObject s p)[p]?)
    (hp : p < s) : stream.take n ≠ ((markedObject s p).drop q).take n := by
  intro h
  have h0 := head_of_window_eq hn h
  rw [List.getElem?_drop, Nat.add_zero, markedObject_getElem? p hq, if_neg (Ne.symm hpq)] at h0
  rcases hstream with hs | hs
  · rw [hs] at h0
    exact absurd h0 (by simp)
  · rw [hs, markedObject_getElem? p hp, if_pos rfl] at h0
    exact absurd h0 (by decide)

variable {checkPrecondFn : Option (ObjectRef → Bool)} {s : ℕ}

/-- The request's precondition check lets the object through. -/
def PrecondPasses (checkPrecondFn : Option (ObjectRef → Bool)) (oi : ObjectRef) : Prop :=
  ∀ f, checkPrecondFn = some f → f oi = false

theorem getObjectNInfo_of_reader (hpre : PrecondPasses checkPrecondFn ⟨s, isEncrypted⟩)
    {download : ℤ → ℤ → Download} {rs : HTTPRangeSpec} {a b : ℤ} {r : Reader}
    (hreq : requestedRange (some rs) = (a, b))
    (hr : getFileReader L (.ok ⟨s, isEncrypted⟩) download a b = .ok r) :
    getObjectNInfo L (.ok ⟨s, isEncrypted⟩) checkPrecondFn download (some rs) = .ok r := by
  unfold getObjectNInfo
  simp only [hreq, hr]
  unfold newGetObjectReaderFromReader
  cases hf : checkPrecondFn with
  | none => rfl
  | some f => simp [hpre f hf]

/-- Once the stream is known, serving the range is an equation of windows. -/
theorem servesRange_iff (hpre : PrecondPasses checkPrecondFn ⟨s, isEncrypted⟩)
    {rs : HTTPRangeSpec} {a b off len : ℤ} (hreq : requestedRange (some rs) = (a, b))
    {stream : List UInt8 → List UInt8}
    (hstream : ∀ content : List UInt8, content.length = s →
      getFileReader L (.ok ⟨s, isEncrypted⟩) (sdk content) a b = .ok ⟨stream content, none⟩) :
    ServesRange L isEncrypted sdk checkPrecondFn s rs off len ↔
      ∀ content : List UInt8, content.length = s →
        (stream content).take len.toNat = (content.drop off.toNat).take len.toNat := by
  constructor
  · intro h content hlen
    obtain ⟨r, hr, hw⟩ := h content hlen
    rw [getObjectNInfo_of_reader hpre hreq (hstream content hlen)] at hr
    obtain rfl := Except.ok.inj hr
    exact hw
  · intro h content hlen
    exact ⟨_, getObjectNInfo_of_reader hpre hreq (hstream content hlen), h content hlen⟩

/-- A range that is neither covered nor past the end lacks bytes: it ends before it starts, its length
wraps, or its last byte is missing. -/
theorem closed_range_short {chunk a b : ℤ} (hc : 0 < chunk) (hc' : chunk ≤ 2 ^ 62)
    (hs : (s : ℤ) < 2 ^ 63) (ha : 0 ≤ a) (hab : a ≤ b) (hb : b < 2 ^ 63)
    (hcov : ¬ ClosedRangeCovered chunk a b)
    (hpast : ¬ (a ≠ 0 ∧ s ≤ b ∧ b + chunk ≤ 2 ^ 63)) :
    closedEndBlock chunk a b * chunk ≤ 0 ∨ wrap64 (b - a + 1) ≤ 0 ∨
      (b < s ∧ closedEndBlock chunk a b * chunk ≤ b) := by
  by_cases h0 : a = 0
  · by_cases hlast : b + 1 < 2 ^ 63
    · have ho : 2 ^ 63 ≤ b + chunk := by
        by_contra hlt
        exact hcov (.inl ⟨h0, by omega⟩)
      exact .inl (closedEnd_of_overflow hc hc' hb (.inl ⟨h0, hlast, ho⟩))
    · rw [wrap64_of_ge (by omega) (by omega)]
      exact .inr (.inl (by omega))
  · by_cases ho : b + chunk ≤ 2 ^ 63
    · have hbs : b < s := by
        by_contra hle
        exact hpast ⟨h0, by omega, ho⟩
      exact .inr (.inr ⟨hbs, end_le_of_not_covered hcov hc hc' ha hab (by omega)⟩)
    · exact .inl (closedEnd_of_overflow hc hc' hb (.inr ⟨h0, by omega⟩))

/-- A closed range is served when its blocks are covered or it runs past the end. -/
theorem servesRange_closed_iff (hsdk : DownloadsBlocks (effectiveChunkSize L isEncrypted) sdk)
    (hpre : PrecondPasses checkPrecondFn ⟨s, isEncrypted⟩) (hs : (s : ℤ) < 2 ^ 63)
    {rs : HTTPRangeSpec} {a b len : ℤ} (hreq : requestedRange (some rs) = (a, b))
    (ha : 0 ≤ a) (hab : a ≤ b) (hb : b < 2 ^ 63) (has : a < s)
    (hlen : len = min b (s - 1) - a + 1) :
    ServesRange L isEncrypted sdk checkPrecondFn s rs a len ↔
      ClosedRangeCovered (effectiveChunkSize L isEncrypted) a b ∨
        (a ≠ 0 ∧ s ≤ b ∧ b + effectiveChunkSize L isEncrypted ≤ 2 ^ 63) := by
  obtain ⟨hc, hc'⟩ := effectiveChunkSize_bounds L isEncrypted
  rw [servesRange_iff hpre hreq (fun content _ => getFileReader_closed hsdk content s ha hab hb)]
  set chunk := effectiveChunkSize L isEncrypted
  constructor
  · intro h
    by_contra hno
    obtain ⟨hcov, hpast⟩ := not_or.mp hno
    -- the stream is shorter than the window
    have hwin := congrArg List.length (h (List.replicate s 0) List.length_replicate)
    simp only [List.length_take, List.length_drop, List.length_replicate] at hwin
    rcases closed_range_short hc hc' hs ha hab hb hcov hpast with hend | hwrap | ⟨hbs, hend⟩
    · omega
    · omega
    · omega
  · intro hok content hcl
    have hw : wrap64 (b - a + 1) = b - a + 1 := by
      refine wrap64_of_mem ⟨by omega, ?_⟩
      rcases hok with (⟨h0, ho⟩ | ⟨h0, -, ho⟩) | ⟨h0, -, ho⟩ <;> omega
    rw [hw, List.take_take]
    rcases hok with hcov | ⟨h0, hsb, ho⟩
    · have hend := hcov.lt_end hc ha hab
      rw [min_eq_left (by omega), window_take content (by omega)]
    · have hend := le_closedEnd hc h0 (ha.trans hab) ho
      rw [List.take_of_length_le (l := content) (by omega), min_eq_left (by omega)]

/-- An open-ended range is served at 0 and from the third chunk on. -/
theorem servesRange_open_iff (hsdk : DownloadsBlocks (effectiveChunkSize L isEncrypted) sdk)
    (hpre : PrecondPasses checkPrecondFn ⟨s, isEncrypted⟩) (hs : (s : ℤ) < 2 ^ 63)
    {a : ℤ} (ha : 0 ≤ a) (has : a < s) :
    ServesRange L isEncrypted sdk checkPrecondFn s ⟨false, a, -1⟩ a (s - a) ↔
      a = 0 ∨ 2 * effectiveChunkSize L isEncrypted ≤ a := by
  obtain ⟨hc, -⟩ := effectiveChunkSize_bounds L isEncrypted
  by_cases hnear : a < 2 * effectiveChunkSize L isEncrypted
  · rw [servesRange_iff hpre (requestedRange_plain a (-1))
      (fun content _ => getFileReader_open_near hsdk content s ha hnear)]
    constructor
    · intro h
      by_contra hno
      refine not_window_of_offset_ne (s := s) (p := 0) (q := a.toNat) (n := ((s : ℤ) - a).toNat)
        (by omega) (by omega) (by omega) (Or.inr rfl) (by omega) (h _ (markedObject_length s 0))
    · rintro (rfl | hfar) content _
      · rfl
      · omega
  · have hfar : ∀ content : List UInt8, content.length = s →
        getFileReader L (.ok ⟨s, isEncrypted⟩) (sdk content) a (-1) =
          .ok ⟨content.drop a.toNat, none⟩ := by
      intro content hcl
      subst hcl
      exact getFileReader_open_far hsdk content hs (by omega) has
    rw [servesRange_iff hpre (requestedRange_plain a (-1)) hfar]
    exact ⟨fun _ => Or.inr (by omega), fun _ _ _ => rfl⟩

/-- A suffix is served when it is half of the object, or longer than `2^62` and than the object. -/
theorem servesRange_suffix_iff (hsdk : DownloadsBlocks (effectiveChunkSize L isEncrypted) sdk)
    (hpre : PrecondPasses checkPrecondFn ⟨s, isEncrypted⟩) (hs0 : 0 < s) (hs : (s : ℤ) < 2 ^ 63)
    {n : ℤ} (h1 : 1 ≤ n) (h2 : n < 2 ^ 63) :
    ServesRange L isEncrypted sdk checkPrecondFn s ⟨true, -n, -1⟩ (max (s - n) 0) (min n s) ↔
      (s = 2 * n ∧ ClosedRangeCovered (effectiveChunkSize L isEncrypted) n (s - 1)) ∨
        (2 ^ 62 < n ∧ s ≤ n) := by
  have hreq := requestedRange_suffix h1 h2
  by_cases hbig : 2 ^ 62 < n
  · -- the end position wraps below the start: the whole object
    rw [wrap64_of_ge (x := 2 * n - 1) (by omega) (by omega)] at hreq
    rw [servesRange_iff hpre hreq
      (fun content _ => getFileReader_whole hsdk content s (by omega) (by omega))]
    constructor
    · intro h
      by_contra hno
      have hns : n < s := by
        by_contra hc
        exact hno (Or.inr ⟨hbig, by omega⟩)
      refine not_window_of_offset_ne (s := s) (p := 0) (q := (max ((s : ℤ) - n) 0).toNat)
        (n := (min n (s : ℤ)).toNat) (by omega) (by omega) (by omega) (Or.inr rfl) hs0
        (h _ (markedObject_length s 0))
    · rintro (⟨hsn, -⟩ | ⟨-, hsn⟩) content _
      · omega
      · rw [show max ((s : ℤ) - n) 0 = 0 by omega]
        rfl
  · rw [wrap64_of_mem (x := 2 * n - 1) ⟨by omega, by omega⟩] at hreq
    by_cases hhalf : (s : ℤ) = 2 * n
    · rw [show max ((s : ℤ) - n) 0 = n by omega,
        servesRange_closed_iff hsdk hpre hs hreq (by omega) (by omega) (by omega) (by omega)
          (show min n (s : ℤ) = min (2 * n - 1) (s - 1) - n + 1 by omega),
        show 2 * n - 1 = (s : ℤ) - 1 by omega]
      constructor
      · rintro (hcov | ⟨-, hle, -⟩)
        · exact Or.inl ⟨hhalf, hcov⟩
        · omega
      · rintro (⟨-, hcov⟩ | ⟨hlt, -⟩)
        · exact Or.inl hcov
        · exact absurd hlt hbig
    · rw [servesRange_iff hpre hreq
        (fun content _ => getFileReader_closed hsdk content s (by omega) (by omega) (by omega))]
      constructor
      · intro h
        exfalso
        by_cases hns : n < s
        · -- the stream starts at `n`, the window at `s - n`
          refine not_window_of_offset_ne (s := s) (p := n.toNat)
            (q := (max ((s : ℤ) - n) 0).toNat) (n := (min n (s : ℤ)).toNat) (by omega) (by omega)
            (by omega) ?_ (by omega) (h _ (markedObject_length s n.toNat))
          rw [List.getElem?_take, List.getElem?_drop, List.getElem?_take]
          split
          · split
            · exact Or.inr rfl
            · exact Or.inl rfl
          · exact Or.inl rfl
        · have hwin := congrArg List.length (h (List.replicate s 0) List.length_replicate)
          simp only [List.length_take, List.length_drop, List.length_replicate] at hwin
          omega
      · rintro (⟨hsn, -⟩ | ⟨hlt, -⟩)
        · exact absurd hsn hhalf
        · exact absurd hlt hbig

/-- **The gateway serves exactly these ranges.**  For every object size, block layout and range
specification accepted by the parser whose window against the size is `(off, len)`, the stream
handed back starts at `off` and its first `len` bytes are the object's, for every object of the
size, if and only if the range is one of `RangeServed`. -/
theorem getObjectNInfo_serves_iff (L : ShardLayout) (isEncrypted : Bool)
    (sdk : List UInt8 → ℤ → ℤ → Download)
    (hsdk : DownloadsBlocks (effectiveChunkSize L isEncrypted) sdk)
    (checkPrecondFn : Option (ObjectRef → Bool)) (s : ℕ)
    (hpre : PrecondPasses checkPrecondFn ⟨s, isEncrypted⟩) (hs0 : 0 < s) (hs : (s : ℤ) < 2 ^ 63)
    (rangeString : GoString) (rs : HTTPRangeSpec) (hrs : parseRequestRangeSpec rangeString = .ok rs)
    (off len : ℤ) (hwin : getOffsetLength (some rs) s = .ok (off, len)) :
    ServesRange L isEncrypted sdk checkPrecondFn s rs off len ↔
      RangeServed (effectiveChunkSize L isEncrypted) s rs := by
  cases parseRequestRangeSpec_forms hrs with
  | @closed a b ha hab hb =>
    have has : a < s := by
      by_contra hc
      rw [getOffsetLength_past_end (by omega) (by omega)] at hwin
      exact absurd hwin (by simp)
    rw [getOffsetLength_closed ha hab has] at hwin
    obtain ⟨rfl, hlen⟩ := Prod.mk.inj (Except.ok.inj hwin)
    rw [servesRange_closed_iff hsdk hpre hs (requestedRange_plain a b) ha hab hb has hlen.symm]
    unfold RangeServed
    rw [if_neg (by simp), if_neg (by simp only; omega)]
  | @openEnded a ha hb =>
    have has : a < s := by
      by_contra hc
      rw [getOffsetLength_past_end (by omega) (by omega)] at hwin
      exact absurd hwin (by simp)
    rw [getOffsetLength_open ha has] at hwin
    obtain ⟨rfl, rfl⟩ := Prod.mk.inj (Except.ok.inj hwin)
    rw [servesRange_open_iff hsdk hpre hs ha has]
    unfold RangeServed
    rw [if_neg (by simp), if_pos rfl]
  | @suffix n h1 h2 =>
    rw [getOffsetLength_suffix (by omega)] at hwin
    obtain ⟨rfl, rfl⟩ := Prod.mk.inj (Except.ok.inj hwin)
    rw [servesRange_suffix_iff hsdk hpre hs0 hs h1 h2]
    unfold RangeServed
    simp only [if_true, neg_neg]

end

/-- The header `bytes=2-30` on an object of 100 bytes is served. -/
theorem getObjectNInfo_serves_closed :
    RangeServed (effectiveChunkSize oneShard false) 100 ⟨false, 2, 30⟩ ∧
      (ServesRange oneShard false (blockSdk (effectiveChunkSize oneShard false)) none 100
        ⟨false, 2, 30⟩ 2 29 ↔ RangeServed (effectiveChunkSize oneShard false) (100 : ℕ)
          ⟨false, 2, 30⟩) := by
  refine ⟨Or.inl (Or.inr ⟨by decide, by decide, by decide⟩), ?_⟩
  exact getObjectNInfo_serves_iff oneShard false _ (blockSdk_downloads _) none 100
    (fun f hf => absurd hf (by simp)) (by norm_num) (by norm_num) (lit "bytes=2-30") _ (by decide)
    2 29 (by decide)

/-- **The header `bytes=5-` on an object of 10 bytes is not served**: the window is `[5, 10)`, the
stream starts at offset 0. -/
theorem getObjectNInfo_open_starts_at_zero :
    parseRequestRangeSpec (lit "bytes=5-") = .ok ⟨false, 5, -1⟩ ∧
      getOffsetLength (some ⟨false, 5, -1⟩) 10 = .ok (5, 5) ∧
      ¬ ServesRange oneShard false (blockSdk (effectiveChunkSize oneShard false)) none 10
        ⟨false, 5, -1⟩ 5 5 := by
  refine ⟨by decide, by decide, ?_⟩
  intro h
  obtain ⟨r, hr, hw⟩ := h [0, 1, 2, 3, 4, 5, 6, 7, 8, 9] rfl
  have hr' : getObjectNInfo oneShard (.ok ⟨(10 : ℕ), false⟩) none
      (blockSdk (effectiveChunkSize oneShard false) [0, 1, 2, 3, 4, 5, 6, 7, 8, 9])
      (some ⟨false, 5, -1⟩) = .ok ⟨[0, 1, 2, 3, 4, 5, 6, 7, 8, 9], none⟩ := by decide
  rw [hr'] at hr
  obtain rfl := Except.ok.inj hr
  exact absurd hw (by decide)

end Zs3Server.Gateway.RangeServe
