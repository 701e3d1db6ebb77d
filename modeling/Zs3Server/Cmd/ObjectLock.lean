import Zs3Server.Lib.ByteString
import Zs3Server.Lib.GoMaps
import Zs3Server.Lib.GoTime

/-!
# Object lock headers and metadata

An object is locked by a retention, that is a mode and a date, and by a legal hold.  Both come in request
headers and are kept in the object's metadata.

* `parseObjectLockRetentionHeaders`, `parseObjectLockLegalHoldHeaders` — the headers of a request;
* `getObjectRetentionMeta`, `getObjectLegalHoldMeta` — what the metadata holds;
* `checkPutObjectLockAllowed` — whether a request with lock headers may write, and the lock it gives;
* `put_lock_sound_iff` — for which requests it lets valid and authorised lock headers pass only;
* `put_lock_unsound` — a malformed and an unauthorised legal hold that pass.

The time package is a parameter: `parse` and `format` take the layout, times are nanoseconds since 1970.
-/

namespace Zs3Server.Cmd.ObjectLock

open Lib.ByteString
open Lib.GoMaps
open Lib.GoTime (zeroTime second)

/-- `time.Parse` and `Time.Format`. -/
structure TimeText where
  parse : (layout value : GoString) → Option ℤ
  format : (layout : GoString) → ℤ → GoString

def rfc3339 : GoString := lit "2006-01-02T15:04:05Z07:00"

inductive RetMode where
  | empty
  | governance
  | compliance
  | unknown (s : GoString)
  deriving DecidableEq

def RetMode.Valid (m : RetMode) : Prop := m = .governance ∨ m = .compliance

instance decidableValidMode (m : RetMode) : Decidable m.Valid := inferInstanceAs (Decidable (_ ∨ _))

inductive LegalHoldStatus where
  | empty
  | on
  | off
  deriving DecidableEq

def LegalHoldStatus.Valid (s : LegalHoldStatus) : Prop := s = .on ∨ s = .off

instance decidableValidStatus (s : LegalHoldStatus) : Decidable s.Valid := inferInstanceAs (Decidable (_ ∨ _))

/-- `strings.ToUpper`, for all characters whose upper case is in ASCII: the letters, `ı` and `ſ`. -/
def toUpper : GoString → GoString
  | [] => []
  | [c] => [upper c]
  | c :: d :: s =>
    if c = 0xc4 ∧ d = 0xb1 then 73 :: toUpper s
    else if c = 0xc5 ∧ d = 0xbf then 83 :: toUpper s
    else upper c :: toUpper (d :: s)
where
  upper (c : UInt8) : UInt8 := if 97 ≤ c ∧ c ≤ 122 then c - 32 else c

def parseRetMode (modeStr : GoString) : RetMode :=
  if toUpper modeStr = lit "GOVERNANCE" then .governance
  else if toUpper modeStr = lit "COMPLIANCE" then .compliance
  else .empty

def parseLegalHoldStatus (holdStr : GoString) : LegalHoldStatus :=
  if toUpper holdStr = lit "ON" then .on
  else if toUpper holdStr = lit "OFF" then .off
  else .empty

/-! ### Errors -/

/-- The errors of the lock package. -/
inductive LockError where
  | invalidRetentionDate
  | pastObjectLockRetainDate
  | unknownWORMModeDirective
  | objectLockInvalidHeaders
  | malformedXML
  deriving DecidableEq

/-- An error value: one of the lock package, or another. -/
inductive GoError where
  | lock (e : LockError)
  | other (n : ℕ)
  deriving DecidableEq

inductive APIErrorCode where
  | none
  | objectLocked
  | invalidBucketObjectLockConfiguration
  | accessDenied
  | clientDisconnected
  | lock (e : LockError)
  | other (n : ℕ)
  deriving DecidableEq

/-- `toAPIErrorCode`; no error is `ErrNone`. -/
def toAPIErrorCode (canceled : Bool) : Option GoError → APIErrorCode
  | .none => .none
  | .some e =>
    if canceled then .clientDisconnected
    else
      match e with
      | .lock e => .lock e
      | .other n => .other n

theorem toAPIErrorCode_ne_none (canceled : Bool) (e : GoError) :
    toAPIErrorCode canceled (some e) ≠ .none := by
  unfold toAPIErrorCode
  cases canceled with
  | true => intro h; cases h
  | false =>
    cases e with
    | lock e => intro h; cases h
    | other n => intro h; cases h

/-! ### Headers -/

/-- The lock headers of a request, each with its first value if it is there. -/
structure LockHeaders where
  mode : Option GoString
  retainUntilDate : Option GoString
  legalHold : Option GoString
  bypassGovernance : GoString
  replicationStatus : GoString

def isObjectLockRetentionRequested (h : LockHeaders) : Bool := h.mode.isSome || h.retainUntilDate.isSome

def isObjectLockLegalHoldRequested (h : LockHeaders) : Bool := h.legalHold.isSome

/-- `ParseObjectLockRetentionHeaders`; `now` is what `UTCNowNTP` gives, `none` for its error. -/
def parseObjectLockRetentionHeaders (T : TimeText) (now : Option ℤ) (h : LockHeaders) :
    Except LockError (RetMode × ℤ) :=
  if h.mode.getD [] = [] ∨ h.retainUntilDate.getD [] = [] then .error .objectLockInvalidHeaders
  else if ¬ (parseRetMode (h.mode.getD [])).Valid then .error .unknownWORMModeDirective
  else
    match T.parse rfc3339 (h.retainUntilDate.getD []) with
    | none => .error .invalidRetentionDate
    | some retDate =>
      match now with
      | none => .error .pastObjectLockRetainDate
      | some t =>
        if retDate < t then .error .pastObjectLockRetainDate
        else .ok (parseRetMode (h.mode.getD []), retDate)

def parseObjectLockLegalHoldHeaders (h : LockHeaders) : Except LockError LegalHoldStatus :=
  match h.legalHold with
  | none => .ok .empty
  | some holdStatus =>
    if ¬ (parseLegalHoldStatus holdStatus).Valid then .error .unknownWORMModeDirective
    else .ok (parseLegalHoldStatus holdStatus)

/-! ### Metadata -/

abbrev Meta := GoMap GoString GoString

def amzObjectLockMode : GoString := lit "X-Amz-Object-Lock-Mode"

def amzObjectLockModeLower : GoString := lit "x-amz-object-lock-mode"

def amzObjectLockRetainUntilDate : GoString := lit "X-Amz-Object-Lock-Retain-Until-Date"

def amzObjectLockRetainUntilDateLower : GoString := lit "x-amz-object-lock-retain-until-date"

def amzObjectLockLegalHold : GoString := lit "X-Amz-Object-Lock-Legal-Hold"

def amzObjectLockLegalHoldLower : GoString := lit "x-amz-object-lock-legal-hold"

structure ObjectRetention where
  mode : RetMode
  retainUntilDate : ℤ
  deriving DecidableEq

/-- The value under one key or, where that is missing, under another. -/
def lookup (m : Meta) (key key' : GoString) : Option GoString := (m.get key).or (m.get key')

def getObjectRetentionMeta (T : TimeText) (m : Meta) : ObjectRetention :=
  match lookup m amzObjectLockModeLower amzObjectLockMode with
  | none => ⟨.empty, zeroTime⟩
  | some modeStr =>
    ⟨parseRetMode modeStr,
      match lookup m amzObjectLockRetainUntilDateLower amzObjectLockRetainUntilDate with
      | none => zeroTime
      | some tillStr => (T.parse rfc3339 tillStr).getD zeroTime⟩

def getObjectLegalHoldMeta (m : Meta) : LegalHoldStatus :=
  match lookup m amzObjectLockLegalHoldLower amzObjectLockLegalHold with
  | none => .empty
  | some holdStr => parseLegalHoldStatus holdStr

/-! ### The check for a write -/

/-- `objectlock.Retention`, the configuration of a bucket. -/
structure Retention where
  mode : RetMode
  validity : ℤ
  lockEnabled : Bool

/-- What the check asks for: the bucket's configuration, the version in the request, the metadata of that
version, and the time on each of the three occasions.  `none` stands for an error. -/
structure Answers where
  retentionCfg : Option Retention
  opts : Except GoError GoString
  objInfo : Option Meta
  nowVersion : Option ℤ
  nowHeaders : Option ℤ
  nowDefault : Option ℤ

structure LockResult where
  mode : RetMode
  retainDate : ℤ
  legalHold : LegalHoldStatus
  code : APIErrorCode

section Check

variable (T : TimeText) (canceled : Bool) (env : Answers) (h : LockHeaders)

def isReplica (h : LockHeaders) : Prop := h.replicationStatus = lit "REPLICA"

instance decidableIsReplica (h : LockHeaders) : Decidable (isReplica h) := inferInstanceAs (Decidable (_ = _))

/-- The version that the request names: its lock, or the result if it must not be overwritten. -/
def checkVersion (versionID : GoString) : Except LockResult (ObjectRetention × LegalHoldStatus) :=
  if versionID ≠ [] ∧ ¬ isReplica h then
    match env.objInfo with
    | none => .ok (⟨.empty, zeroTime⟩, .empty)
    | some userDefined =>
      match env.nowVersion with
      | none => .error ⟨.empty, zeroTime, .empty, .objectLocked⟩
      | some t =>
        if (getObjectRetentionMeta T userDefined).mode = .compliance ∧
            t < (getObjectRetentionMeta T userDefined).retainUntilDate then
          .error ⟨.empty, zeroTime, .empty, .objectLocked⟩
        else if getObjectLegalHoldMeta userDefined = .on then
          .error ⟨(getObjectRetentionMeta T userDefined).mode,
            (getObjectRetentionMeta T userDefined).retainUntilDate, .on, .objectLocked⟩
        else .ok (getObjectRetentionMeta T userDefined, getObjectLegalHoldMeta userDefined)
  else .ok (⟨.empty, zeroTime⟩, .empty)

/-- The retention part, with the legal hold found so far. -/
def checkRetention (cfg : Retention) (retentionPermErr : APIErrorCode) (r : ObjectRetention)
    (legalHold : LegalHoldStatus) : LockResult :=
  if isObjectLockRetentionRequested h then
    -- this legal hold is a variable of its own
    match parseObjectLockLegalHoldHeaders h with
    | .error e => ⟨r.mode, r.retainUntilDate, .empty, toAPIErrorCode canceled (some (.lock e))⟩
    | .ok legalHold =>
      match parseObjectLockRetentionHeaders T env.nowHeaders h with
      | .error e => ⟨r.mode, r.retainUntilDate, legalHold, toAPIErrorCode canceled (some (.lock e))⟩
      | .ok (rMode, rDate) =>
        if retentionPermErr ≠ .none then ⟨r.mode, r.retainUntilDate, legalHold, retentionPermErr⟩
        else ⟨rMode, rDate, legalHold, .none⟩
  else if isReplica h then ⟨.empty, zeroTime, legalHold, .none⟩
  else if 0 < cfg.validity then
    if retentionPermErr ≠ .none then ⟨r.mode, r.retainUntilDate, legalHold, retentionPermErr⟩
    else
      match env.nowDefault with
      | none => ⟨r.mode, r.retainUntilDate, legalHold, .objectLocked⟩
      | some t =>
        if isObjectLockLegalHoldRequested h = false ∧ cfg.lockEnabled = true then
          ⟨cfg.mode, t + cfg.validity, legalHold, .none⟩
        else ⟨.empty, zeroTime, legalHold, .none⟩
  else ⟨r.mode, r.retainUntilDate, legalHold, .none⟩

/-- `checkPutObjectLockAllowed`.  Nothing reads `legalHoldPermErr`, and a legal hold that cannot be parsed
returns the code of `err`, which is `nil` there, not of `lerr`. -/
def checkPutObjectLockAllowed (retentionPermErr _legalHoldPermErr : APIErrorCode) : LockResult :=
  match env.retentionCfg with
  | none => ⟨.empty, zeroTime, .empty, .invalidBucketObjectLockConfiguration⟩
  | some cfg =>
    if cfg.lockEnabled = false then
      if isObjectLockLegalHoldRequested h || isObjectLockRetentionRequested h then
        ⟨.empty, zeroTime, .empty, .invalidBucketObjectLockConfiguration⟩
      else ⟨.empty, zeroTime, .empty, .none⟩
    else
      match env.opts with
      | .error e => ⟨.empty, zeroTime, .empty, toAPIErrorCode canceled (some e)⟩
      | .ok versionID =>
        match checkVersion T env h versionID with
        | .error result => result
        | .ok (r, legalHold) =>
          if isObjectLockLegalHoldRequested h then
            match parseObjectLockLegalHoldHeaders h with
            | .error _ => ⟨r.mode, r.retainUntilDate, .empty, toAPIErrorCode canceled none⟩
            | .ok legalHold => checkRetention T canceled env h cfg retentionPermErr r legalHold
          else checkRetention T canceled env h cfg retentionPermErr r legalHold

/-! ### What passes -/

/-- The request's legal hold is ON or OFF, is authorised and is the one that is returned. -/
def HoldSound (legalHoldPermErr : APIErrorCode) (res : LockResult) : Prop :=
  ∀ holdStr, h.legalHold = some holdStr → (parseLegalHoldStatus holdStr).Valid ∧
    legalHoldPermErr = .none ∧ res.legalHold = parseLegalHoldStatus holdStr

/-- The request's retention has a mode and a date in the future, is authorised and is the one that is
returned. -/
def RetentionSound (retentionPermErr : APIErrorCode) (res : LockResult) : Prop :=
  isObjectLockRetentionRequested h = true → ∃ modeStr dateStr t date, h.mode = some modeStr ∧
    h.retainUntilDate = some dateStr ∧ (parseRetMode modeStr).Valid ∧
    T.parse rfc3339 dateStr = some date ∧ env.nowHeaders = some t ∧ t < date ∧
    retentionPermErr = .none ∧ res.mode = parseRetMode modeStr ∧ res.retainDate = date

/-- The version that a request names, if there is one, is not locked. -/
def MayOverwrite (versionID : GoString) : Prop :=
  versionID = [] ∨ isReplica h ∨ env.objInfo = none ∨
    ∃ userDefined t, env.objInfo = some userDefined ∧ env.nowVersion = some t ∧
      ¬ ((getObjectRetentionMeta T userDefined).mode = .compliance ∧
        t < (getObjectRetentionMeta T userDefined).retainUntilDate) ∧
      getObjectLegalHoldMeta userDefined ≠ .on

/-- Nothing about the retention, the request's or else the bucket's, refuses the request. -/
def RetentionPasses (cfg : Retention) (retentionPermErr : APIErrorCode) : Prop :=
  if isObjectLockRetentionRequested h then
    (∃ r, parseObjectLockRetentionHeaders T env.nowHeaders h = .ok r) ∧ retentionPermErr = .none
  else isReplica h ∨ cfg.validity ≤ 0 ∨ (retentionPermErr = .none ∧ env.nowDefault ≠ none)

/-- **The condition.**  Of the requests that come to it, a legal hold is well formed, and authorised unless
the retention refuses the request; and a retention that passes does not end at this very instant. -/
def LockHeadersInOrder (cfg : Retention) (retentionPermErr legalHoldPermErr : APIErrorCode) : Prop :=
  ∀ versionID, env.opts = .ok versionID → MayOverwrite T env h versionID →
    (∀ holdStr, h.legalHold = some holdStr → (parseLegalHoldStatus holdStr).Valid ∧
      (RetentionPasses T env h cfg retentionPermErr → legalHoldPermErr = .none)) ∧
    (isObjectLockRetentionRequested h = true → RetentionPasses T env h cfg retentionPermErr →
      T.parse rfc3339 (h.retainUntilDate.getD []) ≠ env.nowHeaders)

variable {T canceled env h}

theorem checkVersion_ok {versionID : GoString} :
    (∃ r legalHold, checkVersion T env h versionID = .ok (r, legalHold)) ↔ MayOverwrite T env h versionID := by
  unfold checkVersion MayOverwrite
  by_cases hv : versionID ≠ [] ∧ ¬ isReplica h
  · rw [if_pos hv]
    cases hinfo : env.objInfo with
    | none => exact ⟨fun _ => Or.inr (Or.inr (Or.inl rfl)), fun _ => ⟨_, _, rfl⟩⟩
    | some userDefined =>
      cases hnow : env.nowVersion with
      | none =>
        constructor
        · rintro ⟨r, legalHold, h⟩
          cases h
        · rintro (h | h | h | ⟨_, t, -, h, -⟩)
          · exact absurd h hv.1
          · exact absurd h hv.2
          · cases h
          · cases h
      | some t =>
        simp only
        by_cases hc : (getObjectRetentionMeta T userDefined).mode = .compliance ∧
            t < (getObjectRetentionMeta T userDefined).retainUntilDate
        · rw [if_pos hc]
          constructor
          · rintro ⟨r, legalHold, h⟩
            cases h
          · rintro (h | h | h | ⟨_, t', hi, ht, h, -⟩)
            · exact absurd h hv.1
            · exact absurd h hv.2
            · cases h
            · cases hi
              cases ht
              exact absurd hc h
        · rw [if_neg hc]
          by_cases hon : getObjectLegalHoldMeta userDefined = .on
          · rw [if_pos hon]
            constructor
            · rintro ⟨r, legalHold, h⟩
              cases h
            · rintro (h | h | h | ⟨_, t', hi, -, -, h⟩)
              · exact absurd h hv.1
              · exact absurd h hv.2
              · cases h
              · cases hi
                exact absurd hon h
          · rw [if_neg hon]
            exact ⟨fun _ => Or.inr (Or.inr (Or.inr ⟨userDefined, t, rfl, rfl, hc, hon⟩)), fun _ => ⟨_, _, rfl⟩⟩
  · rw [if_neg hv]
    refine ⟨fun _ => ?_, fun _ => ⟨_, _, rfl⟩⟩
    by_cases hempty : versionID = []
    · exact Or.inl hempty
    · exact Or.inr (Or.inl (by_contra fun hr => hv ⟨hempty, hr⟩))

theorem checkVersion_error {versionID : GoString} {res : LockResult}
    (herr : checkVersion T env h versionID = .error res) : res.code = .objectLocked := by
  unfold checkVersion at herr
  split_ifs at herr
  cases hinfo : env.objInfo with
  | none => rw [hinfo] at herr; cases herr
  | some userDefined =>
    cases hnow : env.nowVersion with
    | none =>
      rw [hinfo, hnow] at herr
      cases herr
      rfl
    | some t =>
      rw [hinfo, hnow] at herr
      simp only at herr
      split_ifs at herr
      · cases herr
        rfl
      · cases herr
        rfl

variable (T canceled env) in
/-- **The retention part** passes what it should, with the legal hold of the request. -/
theorem checkRetention_spec (cfg : Retention) (retentionPermErr : APIErrorCode) (r : ObjectRetention)
    {legalHold hold : LegalHoldStatus} (hhold : parseObjectLockLegalHoldHeaders h = .ok hold)
    (hsame : h.legalHold ≠ none → legalHold = hold) :
    ((checkRetention T canceled env h cfg retentionPermErr r legalHold).code = .none ↔
      RetentionPasses T env h cfg retentionPermErr) ∧
    (h.legalHold ≠ none → (checkRetention T canceled env h cfg retentionPermErr r legalHold).legalHold = hold) ∧
    (isObjectLockRetentionRequested h = true → RetentionPasses T env h cfg retentionPermErr →
      parseObjectLockRetentionHeaders T env.nowHeaders h =
        .ok ((checkRetention T canceled env h cfg retentionPermErr r legalHold).mode,
          (checkRetention T canceled env h cfg retentionPermErr r legalHold).retainDate)) := by
  unfold checkRetention RetentionPasses
  by_cases hreq : isObjectLockRetentionRequested h = true
  · rw [if_pos hreq, if_pos hreq, hhold]
    cases hparse : parseObjectLockRetentionHeaders T env.nowHeaders h with
    | error e =>
      refine ⟨⟨fun hc => absurd hc (toAPIErrorCode_ne_none canceled (.lock e)), ?_⟩, fun _ => rfl, ?_⟩
      · rintro ⟨⟨r, hr⟩, -⟩
        cases hr
      · rintro - ⟨⟨r, hr⟩, -⟩
        cases hr
    | ok rr =>
      obtain ⟨rMode, rDate⟩ := rr
      simp only
      by_cases hperm : retentionPermErr = .none
      · rw [if_neg (not_not.mpr hperm)]
        exact ⟨⟨fun _ => ⟨⟨_, rfl⟩, hperm⟩, fun _ => rfl⟩, fun _ => rfl, fun _ _ => rfl⟩
      · rw [if_pos hperm]
        exact ⟨⟨fun hc => absurd hc hperm, fun hc => absurd hc.2 hperm⟩, fun _ => rfl,
          fun _ hc => absurd hc.2 hperm⟩
  · rw [if_neg hreq, if_neg hreq]
    by_cases hrep : isReplica h
    · rw [if_pos hrep]
      exact ⟨⟨fun _ => Or.inl hrep, fun _ => rfl⟩, hsame, fun hr => absurd hr hreq⟩
    · rw [if_neg hrep]
      by_cases hval : 0 < cfg.validity
      · rw [if_pos hval]
        by_cases hperm : retentionPermErr = .none
        · rw [if_neg (not_not.mpr hperm)]
          cases hnow : env.nowDefault with
          | none =>
            refine ⟨⟨fun hc => ?_, ?_⟩, hsame, fun hr => absurd hr hreq⟩
            · cases hc
            · rintro (hr | hv | ⟨-, hn⟩)
              · exact absurd hr hrep
              · exact absurd hval (not_lt.mpr hv)
              · exact absurd rfl hn
          | some t =>
            have hpass : isReplica h ∨ cfg.validity ≤ 0 ∨ (retentionPermErr = .none ∧ some t ≠ none) :=
              Or.inr (Or.inr ⟨hperm, Option.some_ne_none t⟩)
            simp only
            split_ifs
            · exact ⟨⟨fun _ => hpass, fun _ => rfl⟩, hsame, fun hr => absurd hr hreq⟩
            · exact ⟨⟨fun _ => hpass, fun _ => rfl⟩, hsame, fun hr => absurd hr hreq⟩
        · rw [if_pos hperm]
          refine ⟨⟨fun hc => absurd hc hperm, ?_⟩, hsame, fun hr => absurd hr hreq⟩
          rintro (hr | hv | ⟨hp, -⟩)
          · exact absurd hr hrep
          · exact absurd hval (not_lt.mpr hv)
          · exact absurd hp hperm
      · rw [if_neg hval]
        exact ⟨⟨fun _ => Or.inr (Or.inl (not_lt.mp hval)), fun _ => rfl⟩, hsame, fun hr => absurd hr hreq⟩

/-- What is known of retention headers that are accepted. -/
theorem parseObjectLockRetentionHeaders_ok {now : Option ℤ} {rMode : RetMode} {rDate : ℤ}
    (hok : parseObjectLockRetentionHeaders T now h = .ok (rMode, rDate)) :
    ∃ modeStr dateStr t, h.mode = some modeStr ∧ h.retainUntilDate = some dateStr ∧
      (parseRetMode modeStr).Valid ∧ T.parse rfc3339 dateStr = some rDate ∧ now = some t ∧ t ≤ rDate ∧
      rMode = parseRetMode modeStr := by
  unfold parseObjectLockRetentionHeaders at hok
  split_ifs at hok with hempty hvalid
  push Not at hempty
  cases hm : h.mode with
  | none => rw [hm] at hempty; exact absurd rfl hempty.1
  | some modeStr =>
    cases hd : h.retainUntilDate with
    | none => rw [hd] at hempty; exact absurd rfl hempty.2
    | some dateStr =>
      rw [hm, Option.getD_some] at hvalid hok
      rw [hd, Option.getD_some] at hok
      cases hp : T.parse rfc3339 dateStr with
      | none => rw [hp] at hok; cases hok
      | some retDate =>
        cases hn : now with
        | none => rw [hp, hn] at hok; cases hok
        | some t =>
          rw [hp, hn] at hok
          simp only at hok
          split_ifs at hok with hpast
          cases hok
          exact ⟨modeStr, dateStr, t, rfl, rfl, hvalid, hp, rfl, not_lt.mp hpast, rfl⟩

theorem parseObjectLockLegalHoldHeaders_valid {holdStr : GoString} (hhold : h.legalHold = some holdStr)
    (hvalid : (parseLegalHoldStatus holdStr).Valid) :
    parseObjectLockLegalHoldHeaders h = .ok (parseLegalHoldStatus holdStr) := by
  rw [parseObjectLockLegalHoldHeaders, hhold]
  exact if_neg (not_not.mpr hvalid)

theorem parseObjectLockLegalHoldHeaders_invalid {holdStr : GoString} (hhold : h.legalHold = some holdStr)
    (hinvalid : ¬ (parseLegalHoldStatus holdStr).Valid) :
    parseObjectLockLegalHoldHeaders h = .error .unknownWORMModeDirective := by
  rw [parseObjectLockLegalHoldHeaders, hhold]
  exact if_pos hinvalid

variable (canceled) in
/-- What the check does with a request that comes to its lock headers. -/
theorem check_of_mayOverwrite {cfg : Retention} (retentionPermErr legalHoldPermErr : APIErrorCode)
    (hcfg : env.retentionCfg = some cfg) (hlock : cfg.lockEnabled = true) {versionID : GoString}
    (hopts : env.opts = .ok versionID) (hmay : MayOverwrite T env h versionID) :
    (∃ r legalHold hold, parseObjectLockLegalHoldHeaders h = .ok hold ∧
      (h.legalHold ≠ none → legalHold = hold) ∧
      checkPutObjectLockAllowed T canceled env h retentionPermErr legalHoldPermErr =
        checkRetention T canceled env h cfg retentionPermErr r legalHold) ∨
    (∃ holdStr, h.legalHold = some holdStr ∧ ¬ (parseLegalHoldStatus holdStr).Valid ∧
      (checkPutObjectLockAllowed T canceled env h retentionPermErr legalHoldPermErr).code = .none) := by
  obtain ⟨r, legalHold, hversion⟩ := checkVersion_ok.mpr hmay
  unfold checkPutObjectLockAllowed
  rw [hcfg, hopts]
  simp only [hlock, Bool.true_eq_false, if_false, hversion]
  cases hhold : h.legalHold with
  | none =>
    refine Or.inl ⟨r, legalHold, .empty, ?_, fun hn => absurd rfl hn, ?_⟩
    · unfold parseObjectLockLegalHoldHeaders
      rw [hhold]
    · rw [if_neg]
      unfold isObjectLockLegalHoldRequested
      rw [hhold]
      exact Bool.false_ne_true
  | some holdStr =>
    rw [if_pos (by unfold isObjectLockLegalHoldRequested; rw [hhold]; rfl)]
    by_cases hvalid : (parseLegalHoldStatus holdStr).Valid
    · have hparse := parseObjectLockLegalHoldHeaders_valid hhold hvalid
      refine Or.inl ⟨r, parseLegalHoldStatus holdStr, _, hparse, fun _ => rfl, ?_⟩
      rw [hparse]
    · refine Or.inr ⟨holdStr, rfl, hvalid, ?_⟩
      rw [parseObjectLockLegalHoldHeaders_invalid hhold hvalid]
      rfl

/-- A request that does not come to its lock headers is refused. -/
theorem mayOverwrite_of_code {cfg : Retention} {retentionPermErr legalHoldPermErr : APIErrorCode}
    (hcfg : env.retentionCfg = some cfg) (hlock : cfg.lockEnabled = true)
    (hcode : (checkPutObjectLockAllowed T canceled env h retentionPermErr legalHoldPermErr).code = .none) :
    ∃ versionID, env.opts = .ok versionID ∧ MayOverwrite T env h versionID := by
  unfold checkPutObjectLockAllowed at hcode
  rw [hcfg] at hcode
  simp only [hlock, Bool.true_eq_false, if_false] at hcode
  cases hopts : env.opts with
  | error e =>
    rw [hopts] at hcode
    exact absurd hcode (toAPIErrorCode_ne_none canceled e)
  | ok versionID =>
    refine ⟨versionID, rfl, checkVersion_ok.mp ?_⟩
    rw [hopts] at hcode
    simp only at hcode
    cases hversion : checkVersion T env h versionID with
    | error res =>
      rw [hversion] at hcode
      have hlocked := checkVersion_error hversion
      rw [show res.code = APIErrorCode.none from hcode] at hlocked
      cases hlocked
    | ok p => exact ⟨p.1, p.2, rfl⟩

/-- What a request with both kinds of lock headers gets. -/
theorem check_requested {retentionPermErr legalHoldPermErr : APIErrorCode} {holdStr : GoString}
    (hreq : isObjectLockRetentionRequested h = true) (hhold : h.legalHold = some holdStr)
    (hvalid : (parseLegalHoldStatus holdStr).Valid)
    (hcode : (checkPutObjectLockAllowed T canceled env h retentionPermErr legalHoldPermErr).code = .none) :
    ∃ rMode rDate, parseObjectLockRetentionHeaders T env.nowHeaders h = .ok (rMode, rDate) ∧
      checkPutObjectLockAllowed T canceled env h retentionPermErr legalHoldPermErr =
        ⟨rMode, rDate, parseLegalHoldStatus holdStr, .none⟩ := by
  obtain ⟨cfg, hcfg, hlock⟩ : ∃ cfg, env.retentionCfg = some cfg ∧ cfg.lockEnabled = true := by
    unfold checkPutObjectLockAllowed at hcode
    cases hcfg : env.retentionCfg with
    | none => rw [hcfg] at hcode; cases hcode
    | some cfg =>
      refine ⟨cfg, rfl, ?_⟩
      by_contra hoff
      rw [hcfg] at hcode
      simp only [Bool.not_eq_true] at hcode hoff
      rw [if_pos hoff, hreq, Bool.or_true, if_pos rfl] at hcode
      cases hcode
  obtain ⟨versionID, hopts, hmay⟩ := mayOverwrite_of_code hcfg hlock hcode
  rcases check_of_mayOverwrite canceled retentionPermErr legalHoldPermErr hcfg hlock hopts hmay with
    ⟨r, legalHold, hold, hparse, hsame, heq⟩ | ⟨holdStr', hhold', hinvalid, -⟩
  · rw [heq] at hcode ⊢
    obtain ⟨hiff, hreturned, hretention⟩ := checkRetention_spec T canceled env cfg retentionPermErr r hparse hsame
    refine ⟨_, _, hretention hreq (hiff.mp hcode), ?_⟩
    have hstatus : parseLegalHoldStatus holdStr = hold :=
      Except.ok.inj ((parseObjectLockLegalHoldHeaders_valid hhold hvalid).symm.trans hparse)
    rw [hstatus, ← hreturned (by rw [hhold]; exact Option.some_ne_none holdStr), ← hcode]
  · rw [hhold] at hhold'
    cases hhold'
    exact absurd hvalid hinvalid

/-- **Only valid and authorised lock headers pass**, exactly where the lock headers are in order. -/
theorem put_lock_sound_iff (T : TimeText) (canceled : Bool) (env : Answers) (h : LockHeaders)
    (cfg : Retention) (retentionPermErr legalHoldPermErr : APIErrorCode)
    (hcfg : env.retentionCfg = some cfg) (hlock : cfg.lockEnabled = true) :
    ((checkPutObjectLockAllowed T canceled env h retentionPermErr legalHoldPermErr).code = .none →
      HoldSound h legalHoldPermErr
        (checkPutObjectLockAllowed T canceled env h retentionPermErr legalHoldPermErr) ∧
      RetentionSound T env h retentionPermErr
        (checkPutObjectLockAllowed T canceled env h retentionPermErr legalHoldPermErr)) ↔
    LockHeadersInOrder T env h cfg retentionPermErr legalHoldPermErr := by
  constructor
  · intro hsound versionID hopts hmay
    rcases check_of_mayOverwrite canceled retentionPermErr legalHoldPermErr hcfg hlock hopts hmay with
      ⟨r, legalHold, hold, hparse, hsame, heq⟩ | ⟨holdStr, hhold, hinvalid, hcode⟩
    · obtain ⟨hcode, -, -⟩ := checkRetention_spec T canceled env cfg retentionPermErr r hparse hsame
      rw [heq] at hsound
      constructor
      · intro holdStr hhold
        refine ⟨?_, fun hpass => ((hsound (hcode.mpr hpass)).1 holdStr hhold).2.1⟩
        by_contra hinvalid
        rw [parseObjectLockLegalHoldHeaders_invalid hhold hinvalid] at hparse
        cases hparse
      · intro hreq hpass hinstant
        obtain ⟨modeStr, dateStr, t, date, -, hd, -, hdate, hnow, hlt, -⟩ :=
          (hsound (hcode.mpr hpass)).2 hreq
        rw [hd, Option.getD_some, hdate, hnow, Option.some.injEq] at hinstant
        exact absurd hlt (by rw [hinstant]; exact lt_irrefl t)
    · exact absurd ((hsound hcode).1 holdStr hhold).1 hinvalid
  · intro horder hcode
    obtain ⟨versionID, hopts, hmay⟩ := mayOverwrite_of_code hcfg hlock hcode
    obtain ⟨hholds, hinstant⟩ := horder versionID hopts hmay
    rcases check_of_mayOverwrite canceled retentionPermErr legalHoldPermErr hcfg hlock hopts hmay with
      ⟨r, legalHold, hold, hparse, hsame, heq⟩ | ⟨holdStr, hhold, hinvalid, -⟩
    · rw [heq] at hcode ⊢
      obtain ⟨hiff, hreturned, hretention⟩ := checkRetention_spec T canceled env cfg retentionPermErr r hparse hsame
      have hpass := hiff.mp hcode
      constructor
      · intro holdStr hhold
        obtain ⟨hvalid, hperm⟩ := hholds holdStr hhold
        refine ⟨hvalid, hperm hpass, ?_⟩
        rw [hreturned (by rw [hhold]; exact Option.some_ne_none holdStr)]
        rw [parseObjectLockLegalHoldHeaders_valid hhold hvalid] at hparse
        exact (Except.ok.inj hparse).symm
      · intro hreq
        obtain ⟨modeStr, dateStr, t, hm, hd, hmode, hdate, hnow, hle, hres⟩ :=
          parseObjectLockRetentionHeaders_ok (hretention hreq hpass)
        have hperm : retentionPermErr = .none := by
          unfold RetentionPasses at hpass
          rw [if_pos hreq] at hpass
          exact hpass.2
        have hne := hinstant hreq hpass
        rw [hd, Option.getD_some, hdate, hnow] at hne
        exact ⟨modeStr, dateStr, t, _, hm, hd, hmode, hdate, hnow,
          lt_of_le_of_ne hle fun heq' => hne (by rw [heq']), hperm, hres, rfl⟩
    · exact absurd (hholds holdStr hhold).1 hinvalid

end Check

/-! ### Requests -/

/-- `2100-01-01T00:00:00Z`, in nanoseconds. -/
def year2100 : ℤ := 4102444800 * second

/-- The time package on the one date used here. -/
def oneDate : TimeText where
  parse layout value := if layout = rfc3339 ∧ value = lit "2100-01-01T00:00:00Z" then some year2100 else none
  format _ _ := lit "2100-01-01T00:00:00Z"

def plainAnswers : Answers where
  retentionCfg := some ⟨.empty, 0, true⟩
  opts := .ok []
  objInfo := none
  nowVersion := some 0
  nowHeaders := some 0
  nowDefault := some 0

def lockRequest (hold : String) : LockHeaders where
  mode := some (lit "COMPLIANCE")
  retainUntilDate := some (lit "2100-01-01T00:00:00Z")
  legalHold := some (lit hold)
  bypassGovernance := []
  replicationStatus := []

def answerTo (hold : String) (legalHoldPermErr : APIErrorCode) : LockResult :=
  checkPutObjectLockAllowed oneDate false plainAnswers (lockRequest hold) .none legalHoldPermErr

theorem put_lock_sound_iff_on :
    (answerTo "ON" .none).code = .none ∧ HoldSound (lockRequest "ON") .none (answerTo "ON" .none) ∧
      RetentionSound oneDate plainAnswers (lockRequest "ON") .none (answerTo "ON" .none) := by
  have hcode : (answerTo "ON" .none).code = .none := by decide
  have horder : LockHeadersInOrder oneDate plainAnswers (lockRequest "ON") ⟨.empty, 0, true⟩ .none .none := by
    intro versionID _ _
    refine ⟨?_, fun _ _ => by decide⟩
    intro holdStr hhold
    cases hhold
    exact ⟨by decide, fun _ => rfl⟩
  exact ⟨hcode, (put_lock_sound_iff oneDate false plainAnswers (lockRequest "ON") ⟨.empty, 0, true⟩ .none .none
    rfl rfl).mpr horder hcode⟩

/-- **A legal hold that passes unread.**  With the value `YES` the code is `ErrNone` and the request goes on
without a hold or its retention; and without the permission to set one, a hold is set. -/
theorem put_lock_unsound :
    ((answerTo "YES" .none).code = .none ∧ ¬ HoldSound (lockRequest "YES") .none (answerTo "YES" .none) ∧
      ¬ RetentionSound oneDate plainAnswers (lockRequest "YES") .none (answerTo "YES" .none)) ∧
    ((answerTo "ON" .accessDenied).code = .none ∧
      ¬ HoldSound (lockRequest "ON") .accessDenied (answerTo "ON" .accessDenied)) := by
  refine ⟨⟨by decide, ?_, ?_⟩, by decide, ?_⟩
  · intro hsound
    exact absurd (hsound _ rfl).1 (by decide)
  · intro hsound
    obtain ⟨modeStr, _, _, _, hm, -, -, -, -, -, -, hmode, -⟩ := hsound (by decide)
    cases hm
    exact absurd hmode (by decide)
  · intro hsound
    exact absurd (hsound _ rfl).2.1 (by decide)

end Zs3Server.Cmd.ObjectLock
