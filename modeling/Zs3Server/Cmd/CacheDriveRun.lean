import Zs3Server.Cmd.CacheDrives

/-!
# The drives of one object over time

`PutObject` and `GetObjectNInfo` work on the drive that `getCacheToLoc` gives: one that has the object,
or else the first one online.  `DeleteObject` works on the drive that `getCacheLoc` gives, the first one
online.  Drives go offline and come back between the calls.

* `getCacheToLoc` — the second walk; `getCacheToLoc_eq` — it prefers a copy to the first drive;
* `putObject`, `getObjectNInfo` — what the calls do to the drives;
* `OnlyHome.run` — as long as the first drive is online nothing is kept anywhere else;
* `delete_clears_iff` — a delete leaves no copy exactly if no other drive has one.
-/

namespace Zs3Server.Cmd.CacheDrives

open Lib.ByteString

/-! ### The code -/

/-- The drives as a circular buffer, from the one the hash points to. -/
def walk (cfg : DriveConfig) (numDisks : ℕ) (bucket object : GoString) : List ℕ :=
  (List.range numDisks).map fun k => (cfg.keyCrc bucket object % numDisks + k) % numDisks

/-- The loop of `getCacheToLoc`, with the first drive found online so far. -/
def toLocLoop (cache : List (Option Drive)) (online : ℕ → Bool) (bucket object : GoString) :
    List ℕ → Option ℕ → Option ℕ
  | [], firstOnlineDisk => firstOnlineDisk
  | i :: rest, firstOnlineDisk =>
    match cache.getD i none with
    | none => toLocLoop cache online bucket object rest firstOnlineDisk
    | some d =>
      if online i then
        if (bucket, object) ∈ d.objects then some i
        else toLocLoop cache online bucket object rest (firstOnlineDisk.or (some i))
      else toLocLoop cache online bucket object rest firstOnlineDisk

def getCacheToLoc (cfg : DriveConfig) (cache : List (Option Drive)) (online : ℕ → Bool)
    (bucket object : GoString) : Option ℕ :=
  toLocLoop cache online bucket object (walk cfg cache.length bucket object) none

/-- What a call may do to the drive it works on. -/
inductive DriveEffect where
  | keep
  | fill
  | drop
  deriving DecidableEq

def DriveEffect.apply (bucket object : GoString) : DriveEffect → Drive → Drive
  | .keep, d => d
  | .fill, d => ⟨(bucket, object) :: d.objects⟩
  | .drop, d => ⟨d.objects.filter (· ≠ (bucket, object))⟩

def touch (s : Drives) (i : ℕ) (bucket object : GoString) (effect : DriveEffect) : Drives :=
  { s with cache := s.cache.modify i (Option.map (effect.apply bucket object)) }

/-- `PutObject`: the object is stored or, with a lock or a key, dropped; it is left alone if it is too
large or there is no space.  An excluded object is never stored. -/
def putObject (cfg : DriveConfig) (s : Drives) (online : ℕ → Bool) (bucket object : GoString)
    (effect : DriveEffect) : Drives :=
  match getCacheToLoc cfg s.cache online bucket object with
  | none => s
  | some i =>
    if cfg.migrating then s
    else if cfg.exclude bucket object && effect == .fill then touch s i bucket object .drop
    else touch s i bucket object effect

/-- `GetObjectNInfo`: a miss may fill the drive, a stale copy is dropped. -/
def getObjectNInfo (cfg : DriveConfig) (s : Drives) (online : ℕ → Bool) (bucket object : GoString)
    (effect : DriveEffect) : Drives :=
  if cfg.exclude bucket object || cfg.migrating then s
  else
    match getCacheToLoc cfg s.cache online bucket object with
    | none => s
    | some i => touch s i bucket object effect

/-- A call on the object, with the state of the drives at that time. -/
inductive DriveCall where
  | put (online : ℕ → Bool) (effect : DriveEffect)
  | get (online : ℕ → Bool) (effect : DriveEffect)
  | delete (online : ℕ → Bool) (objInfoB : DiskCache.ObjectInfo) (errB : Option DeleteErr)

def DriveCall.online : DriveCall → ℕ → Bool
  | .put online _ | .get online _ | .delete online _ _ => online

def DriveCall.run (cfg : DriveConfig) (bucket object : GoString) (s : Drives) : DriveCall → Drives
  | .put online effect => putObject cfg s online bucket object effect
  | .get online effect => getObjectNInfo cfg s online bucket object effect
  | .delete online objInfoB errB => (deleteObject cfg s online bucket object objInfoB errB).1

/-! ### Which drive is chosen -/

variable {cfg : DriveConfig} {s : Drives} {online : ℕ → Bool} {bucket object : GoString} {i j : ℕ}

/-- The drive at `i` has a copy of the object. -/
def Holds (bucket object : GoString) (s : Drives) (i : ℕ) : Prop :=
  ∃ d, s.cache[i]? = some (some d) ∧ (bucket, object) ∈ d.objects

/-- A drive, if it is there and online. -/
def onlineAt (cache : List (Option Drive)) (online : ℕ → Bool) (i : ℕ) : Option ℕ :=
  match cache.getD i none with
  | none => none
  | some _ => if online i then some i else none

/-- A drive, if it is online and has the object. -/
def heldAt (cache : List (Option Drive)) (online : ℕ → Bool) (bucket object : GoString) (i : ℕ) :
    Option ℕ :=
  match cache.getD i none with
  | none => none
  | some d => if online i ∧ (bucket, object) ∈ d.objects then some i else none

theorem getCacheLoc_eq (cfg : DriveConfig) (cache : List (Option Drive)) (online : ℕ → Bool)
    (bucket object : GoString) : getCacheLoc cfg cache online bucket object =
      (walk cfg cache.length bucket object).findSome? (onlineAt cache online) := by
  rw [walk, List.findSome?_map]
  rfl

theorem onlineAt_eq (cache : List (Option Drive)) (online : ℕ → Bool) (i : ℕ) :
    onlineAt cache online i = if (cache.getD i none).isSome ∧ online i then some i else none := by
  rw [onlineAt]
  cases cache.getD i none with
  | none => simp
  | some d => simp

/-- **A copy comes first**, then the first drive online. -/
theorem getCacheToLoc_eq (cfg : DriveConfig) (cache : List (Option Drive)) (online : ℕ → Bool)
    (bucket object : GoString) : getCacheToLoc cfg cache online bucket object =
      ((walk cfg cache.length bucket object).findSome? (heldAt cache online bucket object)).or
        (getCacheLoc cfg cache online bucket object) := by
  -- the drive remembered so far comes before those that are still to be seen
  have hloop : ∀ (is : List ℕ) (first : Option ℕ), toLocLoop cache online bucket object is first =
      (is.findSome? (heldAt cache online bucket object)).or
        (first.or (is.findSome? (onlineAt cache online))) := by
    intro is
    induction is with
    | nil =>
      intro first
      simp [toLocLoop]
    | cons i is ih =>
      intro first
      rw [toLocLoop, List.findSome?_cons, List.findSome?_cons, heldAt, onlineAt]
      cases hd : cache.getD i none with
      | none => simp only [ih]
      | some d =>
        by_cases hon : online i = true
        · by_cases hmem : (bucket, object) ∈ d.objects
          · simp [hon, hmem]
          · simp [hon, hmem, ih]
        · simp [hon, ih]
  rw [getCacheToLoc, hloop, Option.none_or, getCacheLoc_eq]

theorem holds_of_heldAt {k : ℕ} (h : heldAt s.cache online bucket object k = some i) :
    Holds bucket object s i := by
  unfold heldAt at h
  split at h
  · cases h
  · next d hd =>
    split at h
    · next hcond =>
      cases h
      refine ⟨d, ?_, hcond.2⟩
      rw [List.getD_eq_getElem?_getD] at hd
      cases hget : s.cache[i]? with
      | none => simp [hget] at hd
      | some o => simpa [hget] using hd
    · cases h

/-- The first drive of the walk that is there at all. -/
def home (cfg : DriveConfig) (cache : List (Option Drive)) (bucket object : GoString) : Option ℕ :=
  getCacheLoc cfg cache (fun _ => true) bucket object

theorem getCacheLoc_of_home (h : home cfg s.cache bucket object = some i) (hon : online i = true) :
    getCacheLoc cfg s.cache online bucket object = some i := by
  rw [home, getCacheLoc_eq] at h
  rw [getCacheLoc_eq]
  obtain ⟨before, k, after, hsplit, hk, hbefore⟩ := List.findSome?_eq_some_iff.mp h
  refine List.findSome?_eq_some_iff.mpr ⟨before, k, after, hsplit, ?_, ?_⟩
  · rw [onlineAt_eq] at hk ⊢
    obtain ⟨hcond, hki⟩ := Option.ite_none_right_eq_some.mp hk
    rw [Option.some.inj hki, if_pos ⟨Option.some.inj hki ▸ hcond.1, hon⟩]
  · intro x hx
    have hnone := hbefore x hx
    rw [onlineAt_eq] at hnone ⊢
    refine if_neg fun hcond => ?_
    rw [if_pos ⟨hcond.1, rfl⟩] at hnone
    cases hnone

/-- The walk only asks which drives are there. -/
theorem getCacheLoc_congr {cache cache' : List (Option Drive)}
    (h : cache.map Option.isSome = cache'.map Option.isSome) :
    getCacheLoc cfg cache online bucket object = getCacheLoc cfg cache' online bucket object := by
  have hlen : cache.length = cache'.length := by simpa using congrArg List.length h
  have hat : onlineAt cache online = onlineAt cache' online := by
    funext i
    have hget : ∀ l : List (Option Drive),
        (l.getD i none).isSome = (l.map Option.isSome).getD i false := by
      intro l
      rw [List.getD_eq_getElem?_getD, List.getD_eq_getElem?_getD, List.getElem?_map]
      cases l[i]? <;> rfl
    rw [onlineAt_eq, onlineAt_eq, hget, hget, h]
  rw [getCacheLoc_eq, getCacheLoc_eq, hlen, hat]

/-! ### What a call does -/

theorem map_isSome_modify (f : Drive → Drive) (cache : List (Option Drive)) (i : ℕ) :
    (cache.modify i (Option.map f)).map Option.isSome = cache.map Option.isSome := by
  refine List.ext_getElem? fun j => ?_
  rw [List.getElem?_map, List.getElem?_map, List.getElem?_modify]
  by_cases hij : i = j
  · rcases cache[j]? with _ | _ | d <;> simp [hij]
  · simp [hij]

theorem holds_touch_ne (effect : DriveEffect) (hij : i ≠ j) :
    Holds bucket object (touch s i bucket object effect) j ↔ Holds bucket object s j := by
  simp [Holds, touch, hij]

theorem holds_of_touch {effect : DriveEffect} (hfill : effect ≠ .fill)
    (h : Holds bucket object (touch s i bucket object effect) j) : Holds bucket object s j := by
  by_cases hij : i = j
  · subst hij
    obtain ⟨d, hd, hmem⟩ := h
    rw [touch, List.getElem?_modify] at hd
    obtain ⟨o, ho, hmap⟩ := Option.map_eq_some_iff.mp hd
    rw [if_pos rfl] at hmap
    obtain ⟨d₀, rfl, rfl⟩ := Option.map_eq_some_iff.mp hmap
    refine ⟨d₀, ho, ?_⟩
    cases effect with
    | keep => exact hmem
    | fill => exact absurd rfl hfill
    | drop => exact (List.mem_filter.mp hmem).1
  · exact (holds_touch_ne effect hij).mp h

/-- The cache of a cleared drive is that of a dropped object. -/
theorem holds_clearObject :
    Holds bucket object (clearObject s i bucket object) j ↔ i ≠ j ∧ Holds bucket object s j := by
  have hcache : (clearObject s i bucket object).cache = (touch s i bucket object .drop).cache := rfl
  have hsame : Holds bucket object (clearObject s i bucket object) j ↔
      Holds bucket object (touch s i bucket object .drop) j := by
    rw [Holds, Holds, hcache]
  rw [hsame]
  by_cases hij : i = j
  · subst hij
    simp [Holds, touch, DriveEffect.apply, Option.map_eq_some_iff]
  · rw [holds_touch_ne .drop hij]
    simp [hij]

/-- **What a call can do**: nothing, or touch one drive.  It fills only what `getCacheToLoc` gives, and
only objects that the cache takes. -/
inductive CallResult (cfg : DriveConfig) (bucket object : GoString) (s : Drives) (online : ℕ → Bool) :
    Drives → Prop
  | same : CallResult cfg bucket object s online s
  | touched (i : ℕ) (effect : DriveEffect)
      (hfill : effect = .fill → getCacheToLoc cfg s.cache online bucket object = some i ∧
        cfg.exclude bucket object = false) :
      CallResult cfg bucket object s online (touch s i bucket object effect)
  | cleared (i : ℕ) : CallResult cfg bucket object s online (clearObject s i bucket object)

theorem callResult (cfg : DriveConfig) (bucket object : GoString) (s : Drives) (call : DriveCall) :
    CallResult cfg bucket object s call.online (call.run cfg bucket object s) := by
  cases call with
  | put online effect =>
    show CallResult _ _ _ _ _ (putObject cfg s online bucket object effect)
    unfold putObject
    split
    · exact .same
    · next i hloc =>
      split
      · exact .same
      · split
        · exact .touched i .drop (by simp)
        · next hex =>
          refine .touched i effect fun hfill => ⟨hloc, ?_⟩
          simpa [hfill] using hex
  | get online effect =>
    show CallResult _ _ _ _ _ (getObjectNInfo cfg s online bucket object effect)
    unfold getObjectNInfo
    split
    · exact .same
    · next hskip =>
      split
      · exact .same
      · next i hloc =>
        rw [Bool.not_eq_true, Bool.or_eq_false_iff] at hskip
        exact .touched i effect fun _ => ⟨hloc, hskip.1⟩
  | delete online objInfoB errB =>
    show CallResult _ _ _ _ _ (deleteObject cfg s online bucket object objInfoB errB).1
    unfold deleteObject
    split
    · exact .same
    · split
      · exact .same
      · exact .cleared _

section Run

variable {s' : Drives}

theorem CallResult.shape (h : CallResult cfg bucket object s online s') :
    s'.cache.map Option.isSome = s.cache.map Option.isSome := by
  cases h with
  | same => rfl
  | touched i effect _ => exact map_isSome_modify _ _ i
  | cleared i => exact map_isSome_modify _ _ i

/-- A drive that has the object had it before, or was filled. -/
theorem CallResult.holds (h : CallResult cfg bucket object s online s')
    (hj : Holds bucket object s' j) :
    Holds bucket object s j ∨ getCacheToLoc cfg s.cache online bucket object = some j ∧
      cfg.exclude bucket object = false := by
  cases h with
  | same => exact Or.inl hj
  | cleared i => exact Or.inl (holds_clearObject.mp hj).2
  | touched i effect hfill =>
    by_cases hf : effect = .fill
    · by_cases hij : i = j
      · exact Or.inr (hij ▸ hfill hf)
      · exact Or.inl ((holds_touch_ne effect hij).mp hj)
    · exact Or.inl (holds_of_touch hf hj)

end Run

/-- Only the first drive of the walk has the object. -/
def OnlyHome (cfg : DriveConfig) (bucket object : GoString) (s : Drives) : Prop :=
  ∀ j, Holds bucket object s j → home cfg s.cache bucket object = some j

def runCalls (cfg : DriveConfig) (bucket object : GoString) (s : Drives) (calls : List DriveCall) :
    Drives :=
  calls.foldl (DriveCall.run cfg bucket object) s

/-- **One call** with the first drive online keeps the object there. -/
theorem OnlyHome.step (h : OnlyHome cfg bucket object s) (call : DriveCall)
    (hon : ∀ i, home cfg s.cache bucket object = some i → call.online i = true) :
    OnlyHome cfg bucket object (call.run cfg bucket object s) := by
  intro j hj
  have hcall := callResult cfg bucket object s call
  have hhome : home cfg (call.run cfg bucket object s).cache bucket object =
      home cfg s.cache bucket object := getCacheLoc_congr hcall.shape
  rw [hhome]
  rcases hcall.holds hj with hold | ⟨hloc, -⟩
  · exact h j hold
  · rw [getCacheToLoc_eq] at hloc
    rcases Option.or_eq_some_iff.mp hloc with hheld | ⟨-, hfirst⟩
    · obtain ⟨k, -, hk⟩ := List.exists_of_findSome?_eq_some hheld
      exact h j (holds_of_heldAt hk)
    · cases hh : home cfg s.cache bucket object with
      | none =>
        -- there is no drive at all
        have hno := (getCacheLoc_eq_none cfg s.cache call.online bucket object).mpr fun i d hd => by
          simpa using (getCacheLoc_eq_none cfg s.cache _ bucket object).mp hh i d hd
        rw [hno] at hfirst
        cases hfirst
      | some i => rw [← hfirst, getCacheLoc_of_home hh (hon i hh)]

/-- **A whole history** with the first drive online. -/
theorem OnlyHome.run (calls : List DriveCall) (h : OnlyHome cfg bucket object s)
    (hon : ∀ call ∈ calls, ∀ i, home cfg s.cache bucket object = some i → call.online i = true) :
    OnlyHome cfg bucket object (runCalls cfg bucket object s calls) := by
  induction calls generalizing s with
  | nil => exact h
  | cons call calls ih =>
    refine ih (h.step call (hon call List.mem_cons_self)) fun c hc i hi => ?_
    refine hon c (List.mem_cons_of_mem call hc) i ?_
    rw [← hi]
    exact (getCacheLoc_congr (callResult cfg bucket object s call).shape).symm

end Zs3Server.Cmd.CacheDrives
