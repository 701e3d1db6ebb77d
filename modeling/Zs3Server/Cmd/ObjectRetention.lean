import Zs3Server.Lib.StepSystem
import Zs3Server.Cmd.ObjectLock

/-!
# Retention over a history of requests

A version's retention is changed by `PutObjectRetention` and respected by the check before a deletion.  Under
compliance it must not get weaker while it lasts.  The check compares the new date with the stored one, and
the new date is then stored with the precision of its layout, a second.

* `enforceRetentionBypassForPut`, `putObjectRetention` — the check and the write;
* `enforceRetentionBypassForDelete` — the check before a deletion;
* `enforceAt_compliance_ok` — what is accepted under compliance;
* `protectedUntil_of_whole` — the protection in every history, for dates of whole seconds;
* `retention_protected_iff` — those are the only dates that are protected;
* `retention_shortened` — a date of half a second that is lost by writing it again.
-/

namespace Zs3Server.Cmd.ObjectLock

open Lib.ByteString
open Lib.GoMaps
open Lib.StepSystem
open Lib.GoTime (zeroTime second)

def rfc3339Nano : GoString := lit "2006-01-02T15:04:05.999999999Z07:00"

def RetMode.text : RetMode → GoString
  | .empty => []
  | .governance => lit "GOVERNANCE"
  | .compliance => lit "COMPLIANCE"
  | .unknown s => s

/-- `IsObjectLockGovernanceBypassSet`; no character other than a letter folds to one of `true`. -/
def isObjectLockGovernanceBypassSet (bypass : GoString) : Bool := toUpper bypass = lit "TRUE"

/-- `UTCNowNTP`, which fails where the time server does. -/
def utcNowNTP (time : ℤ) (ntpFails : Bool) : Option ℤ := if ntpFails then none else some time

/-! ### Changing a retention -/

/-- `ParseObjectRetention` after the body has been decoded. -/
def parseObjectRetention (now : Option ℤ) (ret : ObjectRetention) : Except LockError ObjectRetention :=
  if ret.mode ≠ .empty ∧ ¬ ret.mode.Valid then .error .unknownWORMModeDirective
  else if ret.mode.Valid ∧ ret.retainUntilDate = zeroTime then .error .malformedXML
  else if ¬ ret.mode.Valid ∧ ret.retainUntilDate ≠ zeroTime then .error .malformedXML
  else
    match now with
    | none => .error .pastObjectLockRetainDate
    | some t =>
      if ret.retainUntilDate ≠ zeroTime ∧ ret.retainUntilDate < t then .error .pastObjectLockRetainDate
      else .ok ret

/-- Who asks, and what the policies say about the bypass and about the change. -/
structure Caller where
  accessKey : GoString
  bypassAllowed : Bool
  retentionAllowed : Bool

def isPutRetentionAllowed (cred : Caller) (retMode : RetMode) (byPassSet : Bool) : APIErrorCode :=
  if cred.accessKey = [] then .accessDenied
  else if (if retMode = .governance ∧ byPassSet = true then cred.bypassAllowed else byPassSet) = true ∨
      cred.retentionAllowed = true then .none
  else .accessDenied

inductive PutRetentionError where
  | objectLocked
  | authentication
  deriving DecidableEq

/-- What follows from a permission; only `ErrAccessDenied` refuses. -/
def allowedBy (code : APIErrorCode) : Except PutRetentionError Unit :=
  if code = .accessDenied then .error .authentication else .ok ()

/-- The decision at a known time, against the retention in the metadata. -/
def enforceAt (t : ℤ) (ret : ObjectRetention) (byPassSet : Bool) (cred : Caller)
    (objRetention : ObjectRetention) : Except PutRetentionError Unit :=
  if ret.mode.Valid then
    if ret.retainUntilDate < t then allowedBy (isPutRetentionAllowed cred objRetention.mode byPassSet)
    else
      match ret.mode with
      | .governance =>
        if byPassSet = false ∧
            (objRetention.mode ≠ .governance ∨ objRetention.retainUntilDate < ret.retainUntilDate) then
          .error .objectLocked
        else allowedBy (isPutRetentionAllowed cred objRetention.mode byPassSet)
      | .compliance =>
        if objRetention.mode ≠ .compliance ∨ objRetention.retainUntilDate < ret.retainUntilDate then
          .error .objectLocked
        else allowedBy (isPutRetentionAllowed cred objRetention.mode false)
      | _ => .ok ()
  else allowedBy (isPutRetentionAllowed cred objRetention.mode byPassSet)

section Put

variable (T : TimeText)

def enforceRetentionBypassForPut (now : Option ℤ) (byPassSet : Bool) (cred : Caller) (m : Meta)
    (objRetention : ObjectRetention) : Except PutRetentionError Unit :=
  match now with
  | none => .error .objectLocked
  | some t => enforceAt t (getObjectRetentionMeta T m) byPassSet cred objRetention

def retentionTimestampKey : GoString := lit "x-minio-internal-objectlock-retention-timestamp"

/-- The metadata written by `PutObjectRetentionHandler`. -/
def writeRetention (stamp : ℤ) (m : Meta) (objRetention : ObjectRetention) : Meta :=
  (if objRetention.mode.Valid then
      (m.put amzObjectLockModeLower objRetention.mode.text).put amzObjectLockRetainUntilDateLower
        (T.format rfc3339 objRetention.retainUntilDate)
    else (m.put amzObjectLockModeLower []).put amzObjectLockRetainUntilDateLower []).put
      retentionTimestampKey (T.format rfc3339Nano stamp)

/-- A `PutObjectRetention` request: the decoded body, the header, the caller, and the clock when the body is
parsed and when it is checked. -/
structure PutRetention where
  body : Option ObjectRetention
  bypassGovernance : GoString
  cred : Caller
  parseTime : ℤ
  parseNtpFails : Bool
  time : ℤ
  ntpFails : Bool

/-- The metadata after a request, `none` if the request fails. -/
def putObjectRetention (m : Meta) (r : PutRetention) : Option Meta :=
  match r.body with
  | none => none
  | some body =>
    match parseObjectRetention (utcNowNTP r.parseTime r.parseNtpFails) body with
    | .error _ => none
    | .ok objRetention =>
      match enforceRetentionBypassForPut T (utcNowNTP r.time r.ntpFails)
          (isObjectLockGovernanceBypassSet r.bypassGovernance) r.cred m objRetention with
      | .error _ => none
      | .ok () => some (writeRetention T r.time m objRetention)

/-! ### Deleting -/

/-- The error of `GetObjectInfo`. -/
inductive GetError where
  | methodNotAllowed
  | notFound
  | other (n : ℕ)
  deriving DecidableEq

/-- A check before a deletion: the errors of `getOpts` and `GetObjectInfo`, what else is known of the version,
the header, the two permissions and the clock. -/
structure DeleteCheck where
  optsErr : Option GoError
  gerr : Option GetError
  deleteMarkerOrPurge : Bool
  bypassGovernance : GoString
  bypassPerm : APIErrorCode
  configPerm : APIErrorCode
  canceled : Bool
  time : ℤ
  ntpFails : Bool

def enforceRetentionBypassForDelete (m : Meta) (r : DeleteCheck) : APIErrorCode :=
  match r.optsErr with
  | some e => toAPIErrorCode r.canceled (some e)
  | none =>
    match r.gerr with
    | some .methodNotAllowed =>
      if r.deleteMarkerOrPurge then .none else toAPIErrorCode r.canceled (some (.other 0))
    | some .notFound => .none
    | some (.other n) => toAPIErrorCode r.canceled (some (.other n))
    | none =>
      if getObjectLegalHoldMeta m = .on then .objectLocked
      else
        match (getObjectRetentionMeta T m).mode with
        | .compliance =>
          match utcNowNTP r.time r.ntpFails with
          | none => .objectLocked
          | some t => if ¬ (getObjectRetentionMeta T m).retainUntilDate < t then .objectLocked else .none
        | .governance =>
          if isObjectLockGovernanceBypassSet r.bypassGovernance = false then
            match utcNowNTP r.time r.ntpFails with
            | none => .objectLocked
            | some t => if ¬ (getObjectRetentionMeta T m).retainUntilDate < t then .objectLocked else .none
          else if r.bypassPerm ≠ .none ∧ r.configPerm ≠ .none then .accessDenied
          else .none
        | _ => .none

/-! ### Histories -/

inductive Request where
  | put (r : PutRetention)
  | delete (r : DeleteCheck)

def Request.start : Request → ℤ
  | .put r => r.parseTime
  | .delete r => r.time

/-- The time at which a request is decided. -/
def Request.time : Request → ℤ
  | .put r => r.time
  | .delete r => r.time

/-- A version's metadata, and the time of the last request. -/
structure Version where
  userDefined : Meta
  now : ℤ

/-- A request at a time not before the last one. -/
def step (v : Version) (r : Request) : Option Version :=
  if v.now ≤ r.start ∧ r.start ≤ r.time then
    match r with
    | .put p => some ⟨(putObjectRetention T v.userDefined p).getD v.userDefined, p.time⟩
    | .delete d => some ⟨v.userDefined, d.time⟩
  else none

/-- What a request must not do while a retention until `D` lasts. -/
def Respects (D : ℤ) (v : Version) : Request → Prop
  | .put p => ∀ m, putObjectRetention T v.userDefined p = some m →
      (getObjectRetentionMeta T m).mode = .compliance ∧ D ≤ (getObjectRetentionMeta T m).retainUntilDate
  | .delete d => d.gerr = none → enforceRetentionBypassForDelete T v.userDefined d ≠ .none

/-- **Protection until `D`**: every request of every history that is decided by then. -/
def ProtectedUntil (D : ℤ) (v₀ : Version) : Prop :=
  ∀ v r v', Reaches (step T) (fun _ _ => True) v₀ v → step T v r = some v' → r.time ≤ D → Respects T D v r

/-! ### What is written can be read -/

/-- Formatting and parsing back rounds down to the second. -/
def RoundsDown : Prop := ∀ d, T.parse rfc3339 (T.format rfc3339 d) = some (d - d % second)

variable {T}

theorem parseRetMode_text {m : RetMode} (h : m.Valid) : parseRetMode m.text = m := by
  rcases h with rfl | rfl
  · decide
  · decide

theorem getObjectRetentionMeta_write (hT : RoundsDown T) {objRetention : ObjectRetention}
    (hvalid : objRetention.mode.Valid) (stamp : ℤ) (m : Meta) :
    getObjectRetentionMeta T (writeRetention T stamp m objRetention) =
      ⟨objRetention.mode, objRetention.retainUntilDate - objRetention.retainUntilDate % second⟩ := by
  have hmode : lookup (writeRetention T stamp m objRetention) amzObjectLockModeLower amzObjectLockMode =
      some objRetention.mode.text := by
    unfold lookup writeRetention
    rw [if_pos hvalid, get_put, if_neg (show amzObjectLockModeLower ≠ retentionTimestampKey by decide),
      get_put, if_neg (show amzObjectLockModeLower ≠ amzObjectLockRetainUntilDateLower by decide), get_put,
      if_pos rfl]
    rfl
  have hdate : lookup (writeRetention T stamp m objRetention) amzObjectLockRetainUntilDateLower
      amzObjectLockRetainUntilDate = some (T.format rfc3339 objRetention.retainUntilDate) := by
    unfold lookup writeRetention
    rw [if_pos hvalid, get_put,
      if_neg (show amzObjectLockRetainUntilDateLower ≠ retentionTimestampKey by decide), get_put, if_pos rfl]
    rfl
  unfold getObjectRetentionMeta
  rw [hmode, hdate]
  simp only [parseRetMode_text hvalid, hT objRetention.retainUntilDate, Option.getD_some]

/-! ### One request -/

theorem enforceAt_compliance {t : ℤ} {ret : ObjectRetention} (hmode : ret.mode = .compliance)
    (ht : t ≤ ret.retainUntilDate) (byPassSet : Bool) (cred : Caller) (objRetention : ObjectRetention) :
    enforceAt t ret byPassSet cred objRetention =
      if objRetention.mode ≠ .compliance ∨ objRetention.retainUntilDate < ret.retainUntilDate then
        .error .objectLocked
      else allowedBy (isPutRetentionAllowed cred objRetention.mode false) := by
  have hvalid : ret.mode.Valid := Or.inr hmode
  unfold enforceAt
  rw [if_pos hvalid, if_neg (not_lt.mpr ht), hmode]

/-- **Under compliance** only compliance for no shorter time is accepted. -/
theorem enforceAt_compliance_ok {t : ℤ} {ret objRetention : ObjectRetention} {byPassSet : Bool}
    {cred : Caller} (hmode : ret.mode = .compliance) (ht : t ≤ ret.retainUntilDate)
    (hok : enforceAt t ret byPassSet cred objRetention = .ok ()) :
    objRetention.mode = .compliance ∧ ret.retainUntilDate ≤ objRetention.retainUntilDate := by
  rw [enforceAt_compliance hmode ht] at hok
  by_cases hweaker : objRetention.mode ≠ .compliance ∨ objRetention.retainUntilDate < ret.retainUntilDate
  · rw [if_pos hweaker] at hok
    cases hok
  · push Not at hweaker
    exact hweaker

/-- What a request that succeeds has been through. -/
theorem putObjectRetention_some {m m' : Meta} {r : PutRetention} (h : putObjectRetention T m r = some m') :
    ∃ objRetention, r.ntpFails = false ∧
      enforceAt r.time (getObjectRetentionMeta T m) (isObjectLockGovernanceBypassSet r.bypassGovernance)
        r.cred objRetention = .ok () ∧
      m' = writeRetention T r.time m objRetention := by
  unfold putObjectRetention at h
  cases hbody : r.body with
  | none => rw [hbody] at h; cases h
  | some body =>
    rw [hbody] at h
    simp only at h
    cases hparse : parseObjectRetention (utcNowNTP r.parseTime r.parseNtpFails) body with
    | error e => rw [hparse] at h; cases h
    | ok objRetention =>
      rw [hparse] at h
      simp only at h
      cases henforce : enforceRetentionBypassForPut T (utcNowNTP r.time r.ntpFails)
          (isObjectLockGovernanceBypassSet r.bypassGovernance) r.cred m objRetention with
      | error e => rw [henforce] at h; cases h
      | ok u =>
        rw [henforce] at h
        cases hntp : r.ntpFails with
        | true =>
          rw [hntp] at henforce
          cases henforce
        | false =>
          rw [hntp] at henforce
          exact ⟨objRetention, rfl, henforce, (Option.some.inj h).symm⟩

/-- The metadata holds compliance, not before `D`. -/
def HoldsUntil (T : TimeText) (D : ℤ) (m : Meta) : Prop :=
  (getObjectRetentionMeta T m).mode = .compliance ∧ D ≤ (getObjectRetentionMeta T m).retainUntilDate

theorem holdsUntil_put (hT : RoundsDown T) {D : ℤ} (hD : D % second = 0) {m m' : Meta} {r : PutRetention}
    (hm : HoldsUntil T D m) (ht : r.time ≤ D) (h : putObjectRetention T m r = some m') :
    HoldsUntil T D m' := by
  obtain ⟨objRetention, -, hok, rfl⟩ := putObjectRetention_some h
  obtain ⟨hmode, hdate⟩ := enforceAt_compliance_ok hm.1 (ht.trans hm.2) hok
  unfold HoldsUntil
  rw [getObjectRetentionMeta_write hT (Or.inr hmode)]
  refine ⟨hmode, ?_⟩
  -- rounding down stops at whole seconds, of which `D` is one
  have hle := hm.2.trans hdate
  show D ≤ objRetention.retainUntilDate - objRetention.retainUntilDate % second
  unfold second at hD ⊢
  omega

theorem enforceDelete_of_holdsUntil {D : ℤ} {m : Meta} {r : DeleteCheck} (hm : HoldsUntil T D m)
    (ht : r.time ≤ D) (hgerr : r.gerr = none) : enforceRetentionBypassForDelete T m r ≠ .none := by
  unfold enforceRetentionBypassForDelete
  cases hopts : r.optsErr with
  | some e => exact toAPIErrorCode_ne_none r.canceled e
  | none =>
    rw [hgerr, hm.1]
    simp only
    split_ifs with hhold
    · intro hc
      cases hc
    · cases hntp : r.ntpFails with
      | true =>
        intro hc
        cases hc
      | false =>
        show (if ¬ (getObjectRetentionMeta T m).retainUntilDate < r.time then _ else _) ≠ _
        rw [if_pos (not_lt.mpr (ht.trans hm.2))]
        intro hc
        cases hc

/-! ### Histories -/

theorem step_some {v v' : Version} {r : Request} (h : step T v r = some v') :
    v.now ≤ r.time ∧ v'.now = r.time ∧
      v'.userDefined = match r with
        | .put p => (putObjectRetention T v.userDefined p).getD v.userDefined
        | .delete _ => v.userDefined := by
  unfold step at h
  split_ifs at h with htime
  cases r with
  | put p =>
    cases h
    exact ⟨htime.1.trans htime.2, rfl, rfl⟩
  | delete d =>
    cases h
    exact ⟨htime.1.trans htime.2, rfl, rfl⟩

/-- **The step.**  Until `D` no request takes away what the metadata holds. -/
theorem holdsUntil_step (hT : RoundsDown T) {D : ℤ} (hD : D % second = 0) {v v' : Version} {r : Request}
    (hv : v.now ≤ D → HoldsUntil T D v.userDefined) (h : step T v r = some v') (ht : v'.now ≤ D) :
    HoldsUntil T D v'.userDefined := by
  obtain ⟨hnow, hnow', hmeta⟩ := step_some h
  rw [hnow'] at ht
  have hm := hv (hnow.trans ht)
  rw [hmeta]
  cases r with
  | delete d => exact hm
  | put p =>
    simp only
    cases hput : putObjectRetention T v.userDefined p with
    | none => exact hm
    | some m' => exact holdsUntil_put hT hD hm ht hput

theorem respects_of_holdsUntil (hT : RoundsDown T) {D : ℤ} (hD : D % second = 0) {v : Version} {r : Request}
    (hm : HoldsUntil T D v.userDefined) (ht : r.time ≤ D) : Respects T D v r := by
  cases r with
  | put p =>
    intro m h
    exact holdsUntil_put hT hD hm ht h
  | delete d =>
    intro hgerr
    exact enforceDelete_of_holdsUntil hm ht hgerr

/-- **The run.**  A date of whole seconds is protected in every history. -/
theorem protectedUntil_of_whole (hT : RoundsDown T) {D : ℤ} (hD : D % second = 0) {v₀ : Version}
    (hv₀ : HoldsUntil T D v₀.userDefined) : ProtectedUntil T D v₀ := by
  intro v r v' hreach hstep ht
  have hinv : v.now ≤ D → HoldsUntil T D v.userDefined :=
    hreach.invariant (I := fun v => v.now ≤ D → HoldsUntil T D v.userDefined) (fun _ => hv₀)
      fun v₁ r v₂ hv₁ _ h => holdsUntil_step hT hD hv₁ h
  obtain ⟨hnow, -, -⟩ := step_some hstep
  exact respects_of_holdsUntil hT hD (hinv (hnow.trans ht)) ht

/-- Writing the same retention again, at its very end. -/
def rewriteAt (D : ℤ) : PutRetention where
  body := some ⟨.compliance, D⟩
  bypassGovernance := []
  cred := ⟨lit "user", false, true⟩
  parseTime := D
  parseNtpFails := false
  time := D
  ntpFails := false

theorem putObjectRetention_rewrite {D : ℤ} (hD : D % second ≠ 0) {m : Meta}
    (hm : getObjectRetentionMeta T m = ⟨.compliance, D⟩) :
    putObjectRetention T m (rewriteAt D) = some (writeRetention T D m ⟨.compliance, D⟩) := by
  have hzero : D ≠ zeroTime := by
    rintro rfl
    exact hD (by decide)
  have hparse : parseObjectRetention (utcNowNTP D false) ⟨.compliance, D⟩ = .ok ⟨.compliance, D⟩ := by
    unfold parseObjectRetention
    rw [if_neg (fun h => h.2 (Or.inr rfl)), if_neg (fun h => hzero h.2), if_neg (fun h => h.1 (Or.inr rfl))]
    exact if_neg fun h => lt_irrefl D h.2
  have henforce : enforceAt D ⟨.compliance, D⟩ false ⟨lit "user", false, true⟩ ⟨.compliance, D⟩ = .ok () := by
    rw [enforceAt_compliance rfl (le_refl D), if_neg]
    · rfl
    · rintro (h | h)
      · exact h rfl
      · exact lt_irrefl D h
  unfold putObjectRetention rewriteAt
  simp only [hparse]
  unfold enforceRetentionBypassForPut utcNowNTP
  simp only [hm]
  rw [show isObjectLockGovernanceBypassSet [] = false from by decide]
  simp [henforce]

/-- **Which dates are protected.**  A retention under compliance until `D` is protected in every history if and
only if it is over or `D` is a whole second. -/
theorem retention_protected_iff (T : TimeText) (hT : RoundsDown T) (m : Meta) (D now : ℤ)
    (hm : getObjectRetentionMeta T m = ⟨.compliance, D⟩) :
    ProtectedUntil T D ⟨m, now⟩ ↔ D < now ∨ D % second = 0 := by
  constructor
  · intro hprotected
    by_contra hnot
    push Not at hnot
    obtain ⟨hnow, hD⟩ := hnot
    have hstep : step T ⟨m, now⟩ (.put (rewriteAt D)) =
        some ⟨(putObjectRetention T m (rewriteAt D)).getD m, D⟩ := if_pos ⟨hnow, le_refl D⟩
    have hrespects := hprotected ⟨m, now⟩ _ _ Reaches.refl hstep (le_refl D) _ (putObjectRetention_rewrite hD hm)
    rw [getObjectRetentionMeta_write hT (Or.inr rfl)] at hrespects
    have hle : D ≤ D - D % second := hrespects.2
    have hpos : 0 ≤ D % second := Int.emod_nonneg D (by decide)
    omega
  · rintro (hover | hD)
    · intro v r v' hreach hstep ht
      -- no request is decided before `now`
      have hinv : now ≤ v.now := hreach.invariant (I := fun v => now ≤ v.now) (le_refl now)
        fun v₁ r v₂ hv₁ _ h => by
          obtain ⟨hle, heq, -⟩ := step_some h
          rw [heq]
          exact hv₁.trans hle
      obtain ⟨hle, -, -⟩ := step_some hstep
      omega
    · apply protectedUntil_of_whole hT hD
      show HoldsUntil T D m
      unfold HoldsUntil
      rw [hm]
      exact ⟨rfl, le_refl D⟩

end Put

/-! ### Half a second -/

def newYear2100 : GoString := lit "2100-01-01T00:00:00Z"

def newYear2100Half : GoString := lit "2100-01-01T00:00:00.500Z"

/-- The time package in the first second of 2100; the other seconds have some text each. -/
def aroundNewYear2100 : TimeText where
  parse _ value :=
    if value = newYear2100 then some year2100
    else if value = newYear2100Half then some (year2100 + 500000000)
    else some (Equiv.intEquivNat.symm value.length * second)
  format _ t :=
    if t - t % second = year2100 then newYear2100
    else List.replicate (Equiv.intEquivNat (t / second)) 0

theorem aroundNewYear2100_roundsDown : RoundsDown aroundNewYear2100 := by
  intro d
  unfold aroundNewYear2100
  simp only
  by_cases hd : d - d % second = year2100
  · rw [if_pos hd, if_pos rfl, hd]
  · rw [if_neg hd]
    have hother : ∀ (n : ℕ) (s : GoString), 50 ∈ s → List.replicate n (0 : UInt8) ≠ s := by
      intro n s hs heq
      rw [← heq] at hs
      exact absurd (List.eq_of_mem_replicate hs) (by decide)
    rw [if_neg (hother _ _ (by decide)), if_neg (hother _ _ (by decide)), List.length_replicate,
      Equiv.symm_apply_apply]
    congr 1
    have hsplit := Int.emod_add_mul_ediv d second
    rw [mul_comm (d / second) second]
    omega

/-- A version under compliance until the given text. -/
def lockedUntil (till : GoString) : Meta :=
  (GoMap.empty.put amzObjectLockModeLower (lit "COMPLIANCE")).put amzObjectLockRetainUntilDateLower till

theorem retention_protected_iff_newYear :
    ProtectedUntil aroundNewYear2100 year2100 ⟨lockedUntil newYear2100, 0⟩ :=
  (retention_protected_iff aroundNewYear2100 aroundNewYear2100_roundsDown (lockedUntil newYear2100) year2100 0
    (by decide)).mpr (Or.inr (by decide))

/-- A deletion checked at a given time. -/
def deleteAt (time : ℤ) : DeleteCheck where
  optsErr := none
  gerr := none
  deleteMarkerOrPurge := false
  bypassGovernance := []
  bypassPerm := .accessDenied
  configPerm := .accessDenied
  canceled := false
  time := time
  ntpFails := false

/-- **A retention that is shortened.**  It lasts until half a second after new year, is written again at new
year, and is over a tenth of a second later. -/
theorem retention_shortened :
    getObjectRetentionMeta aroundNewYear2100 (lockedUntil newYear2100Half) =
      ⟨.compliance, year2100 + 500000000⟩ ∧
    ∃ m, putObjectRetention aroundNewYear2100 (lockedUntil newYear2100Half)
        ⟨some ⟨.compliance, year2100 + 500000000⟩, [], ⟨lit "user", false, true⟩, year2100, false, year2100,
          false⟩ = some m ∧
      getObjectRetentionMeta aroundNewYear2100 m = ⟨.compliance, year2100⟩ ∧
      enforceRetentionBypassForDelete aroundNewYear2100 m (deleteAt (year2100 + 100000000)) = .none := by
  refine ⟨by decide, _, rfl, ?_, ?_⟩
  · decide
  · decide

end Zs3Server.Cmd.ObjectLock
