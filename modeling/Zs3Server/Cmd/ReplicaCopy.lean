import Zs3Server.Cmd.ObjectRetention

/-!
# Replicated metadata

A replica's tags, retention and legal hold come with `CopyObject` requests of the object onto itself.  Each
has the time of the change at its source, and an older change must not replace a newer one.  The handler asks
`time.Parse` for the time on disk, with the layout and the value the wrong way round, and takes its error for
a reason to write.

* `copyObject` — what the handler makes of the stored metadata; `runCopies` — requests in their order;
* `copyObject_replica` — a request writes its own tags, retention and legal hold, whatever is stored;
* `replica_lastWriterWins_iff` — so the newest changes win exactly where the last request has them;
* `replica_older_wins` — two requests, the older one delivered last.
-/

namespace Zs3Server.Cmd.ObjectLock

open Lib.ByteString
open Lib.GoMaps
open Lib.GoTime (zeroTime second)

def iso8601TimeFormat : GoString := lit "2006-01-02T15:04:05.000Z"

def LegalHoldStatus.text : LegalHoldStatus → GoString
  | .empty => []
  | .on => lit "ON"
  | .off => lit "OFF"

/-! ### Keys -/

def amzObjectTagging : GoString := lit "X-Amz-Tagging"

def amzBucketReplicationStatus : GoString := lit "X-Amz-Replication-Status"

def taggingTimestampKey : GoString := lit "x-minio-internal-tagging-timestamp"

def legalHoldTimestampKey : GoString := lit "x-minio-internal-objectlock-legalhold-timestamp"

def replicaStatusKey : GoString := lit "x-minio-internal-replica-status"

def replicaTimestampKey : GoString := lit "x-minio-internal-replica-timestamp"

/-- The keys that are not part of an object's user metadata. -/
def cleanedKeys : List GoString :=
  [lit "md5Sum", lit "etag", lit "expires", amzObjectTagging, lit "last-modified",
    lit "x-minio-internal-purgestatus"]

def amzStorageClass : GoString := lit "x-amz-storage-class"

/-- `cleanMetadata`. -/
def cleanMetadata (m : Meta) : Meta :=
  cleanedKeys.foldl GoMap.erase
    (if m.get amzStorageClass = some (lit "STANDARD") then m.erase amzStorageClass else m)

/-- `FilterObjectLockMetadata` with both filters set, after `filterReplicationStatusMetadata`. -/
def filterMetadata (m : Meta) : Meta :=
  (((m.erase amzBucketReplicationStatus).erase amzObjectLockLegalHold).erase amzObjectLockMode).erase
    amzObjectLockRetainUntilDate

/-! ### The handler -/

/-- What a request brings: its lock headers, the metadata of its headers if that replaces the stored one, its
tags if they replace the stored ones, the times of the changes at the source of a replication, the
permissions, what the lock check asks for, and the time. -/
structure CopyRequest where
  headers : LockHeaders
  replaceMetadata : Option Meta
  replaceTags : Option GoString
  tagsParse : Bool
  replicationRequest : Bool
  taggingTimestamp : ℤ
  retentionTimestamp : ℤ
  legalholdTimestamp : ℤ
  retPerms : APIErrorCode
  holdPerms : APIErrorCode
  canceled : Bool
  answers : Answers
  now : ℤ

section Copy

variable (T : TimeText)

/-- Whether a change is taken for newer than the one on disk. -/
def takenForNewer (onDisk : GoString) (srcTimestamp : ℤ) : Bool :=
  match T.parse onDisk rfc3339Nano with
  | none => true
  | some ondiskTimestamp => ondiskTimestamp < srcTimestamp

def copyTags (r : CopyRequest) (objTags : GoString) (m : Meta) : Meta :=
  if objTags = [] then m
  else if r.replicationRequest then
    if r.taggingTimestamp ≠ zeroTime ∧
        takenForNewer T ((m.get taggingTimestampKey).getD []) r.taggingTimestamp = true then
      (m.put taggingTimestampKey (T.format rfc3339Nano r.taggingTimestamp)).put amzObjectTagging objTags
    else m
  else (m.put amzObjectTagging objTags).put taggingTimestampKey (T.format rfc3339Nano r.now)

def putRetentionMeta (mode : RetMode) (date : ℤ) (m : Meta) : Meta :=
  (m.put amzObjectLockModeLower mode.text).put amzObjectLockRetainUntilDateLower
    (T.format iso8601TimeFormat date)

def copyRetention (r : CopyRequest) (mode : RetMode) (date : ℤ) (m : Meta) : Meta :=
  if ¬ mode.Valid then m
  else if r.replicationRequest then
    if r.retentionTimestamp ≠ zeroTime ∧
        takenForNewer T ((m.get retentionTimestampKey).getD []) r.retentionTimestamp = true then
      (putRetentionMeta T mode date m).put retentionTimestampKey (T.format rfc3339Nano r.retentionTimestamp)
    else m
  else (putRetentionMeta T mode date m).put retentionTimestampKey (T.format rfc3339Nano r.now)

/-- The legal hold; its time is stored under the key of the retention's. -/
def copyLegalHold (r : CopyRequest) (legalHold : LegalHoldStatus) (m : Meta) : Meta :=
  if ¬ legalHold.Valid then m
  else if r.replicationRequest then
    if r.legalholdTimestamp ≠ zeroTime ∧
        takenForNewer T ((m.get legalHoldTimestampKey).getD []) r.legalholdTimestamp = true then
      (m.put amzObjectLockLegalHoldLower legalHold.text).put retentionTimestampKey
        (T.format rfc3339Nano r.legalholdTimestamp)
    else m
  else m.put amzObjectLockLegalHoldLower legalHold.text

def copyReplicaStatus (r : CopyRequest) (m : Meta) : Meta :=
  if r.headers.replicationStatus = [] then m
  else ((m.put replicaStatusKey (lit "REPLICA")).put replicaTimestampKey (T.format rfc3339Nano r.now)).put
    amzBucketReplicationStatus r.headers.replicationStatus

/-- The result of the lock check for a request. -/
def CopyRequest.lock (r : CopyRequest) : LockResult :=
  checkPutObjectLockAllowed T r.canceled r.answers r.headers r.retPerms r.holdPerms

/-- The metadata that `CopyObjectHandler` stores, with source and destination the same object. -/
def copyObject (stored : Meta) (r : CopyRequest) : Except APIErrorCode Meta :=
  if r.replaceTags ≠ none ∧ r.tagsParse = false then .error (.other 0)
  else if (r.lock T).code ≠ .none then .error (r.lock T).code
  else .ok (copyReplicaStatus T r (copyLegalHold T r (r.lock T).legalHold
    (copyRetention T r (r.lock T).mode (r.lock T).retainDate (filterMetadata
      (copyTags T r (r.replaceTags.getD ((stored.get amzObjectTagging).getD []))
        (r.replaceMetadata.getD (cleanMetadata stored)))))))

/-- Requests one after the other, each on what the one before has stored. -/
def runCopies : Meta → List CopyRequest → Except APIErrorCode Meta
  | stored, [] => .ok stored
  | stored, r :: rs =>
    match copyObject T stored r with
    | .error e => .error e
    | .ok stored' => runCopies stored' rs

/-! ### Replicas -/

/-- A request with tags, retention and legal hold of a replication, on the stored metadata. -/
structure CopyRequest.Replica (r : CopyRequest) : Prop where
  replica : r.replicationRequest = true
  stored : r.replaceMetadata = none
  tags : ∃ tags, r.replaceTags = some tags ∧ tags ≠ []
  retention : isObjectLockRetentionRequested r.headers = true
  hold : ∃ holdStr, r.headers.legalHold = some holdStr ∧ (parseLegalHoldStatus holdStr).Valid
  taggingTimestamp : r.taggingTimestamp ≠ zeroTime
  retentionTimestamp : r.retentionTimestamp ≠ zeroTime
  legalholdTimestamp : r.legalholdTimestamp ≠ zeroTime

/-- A request's tags, mode, date and legal hold as they are stored. -/
def CopyRequest.tagsText (r : CopyRequest) : Option GoString := r.replaceTags

def CopyRequest.retentionText (r : CopyRequest) : Option (GoString × GoString) :=
  match parseObjectLockRetentionHeaders T r.answers.nowHeaders r.headers with
  | .error _ => none
  | .ok (mode, date) => some (mode.text, T.format iso8601TimeFormat date)

def CopyRequest.holdText (r : CopyRequest) : Option GoString :=
  r.headers.legalHold.map fun holdStr => (parseLegalHoldStatus holdStr).text

def retentionOf (m : Meta) : Option (GoString × GoString) :=
  match m.get amzObjectLockModeLower, m.get amzObjectLockRetainUntilDateLower with
  | some mode, some date => some (mode, date)
  | _, _ => none

/-- `time.Parse` with a stored time as the layout and the text of `RFC3339Nano` as the value.  A time ends in
`Z` or in an offset of digits, and the value in `Z07:00`, which no such layout has room for. -/
def SwappedFails : Prop :=
  T.parse [] rfc3339Nano = none ∧ ∀ t, T.parse (T.format rfc3339Nano t) rfc3339Nano = none

/-- The keys under which times are stored. -/
def timestampKeys : List GoString := [taggingTimestampKey, retentionTimestampKey, legalHoldTimestampKey]

/-- The times in the metadata have been stored by the server. -/
def StoredTimes (m : Meta) : Prop :=
  ∀ key ∈ timestampKeys, m.get key = none ∨ ∃ t, m.get key = some (T.format rfc3339Nano t)

variable {T}

theorem takenForNewer_of_stored (hT : SwappedFails T) {m : Meta} (hm : StoredTimes T m) {key : GoString}
    (hkey : key ∈ timestampKeys) (t : ℤ) : takenForNewer T ((m.get key).getD []) t = true := by
  unfold takenForNewer
  rcases hm key hkey with h | ⟨t', h⟩
  · rw [h, Option.getD_none, hT.1]
  · rw [h, Option.getD_some, hT.2]

theorem StoredTimes.erase {m : Meta} (hm : StoredTimes T m) (key : GoString) :
    StoredTimes T (m.erase key) := by
  intro k hk
  rw [get_erase]
  split_ifs
  · exact Or.inl rfl
  · exact hm k hk

theorem StoredTimes.put {m : Meta} (hm : StoredTimes T m) (key : GoString) (hkey : key ∉ timestampKeys)
    (v : GoString) : StoredTimes T (m.put key v) := by
  intro k hk
  have hne : k ≠ key := by
    rintro rfl
    exact hkey hk
  rw [get_put, if_neg hne]
  exact hm k hk

theorem StoredTimes.putTime {m : Meta} (hm : StoredTimes T m) (key : GoString) (t : ℤ) :
    StoredTimes T (m.put key (T.format rfc3339Nano t)) := by
  intro k hk
  rw [get_put]
  split_ifs
  · exact Or.inr ⟨t, rfl⟩
  · exact hm k hk

theorem StoredTimes.cleanMetadata {m : Meta} (hm : StoredTimes T m) : StoredTimes T (cleanMetadata m) := by
  have hfold : ∀ (keys : List GoString) (m : Meta), StoredTimes T m →
      StoredTimes T (keys.foldl GoMap.erase m) := by
    intro keys
    induction keys with
    | nil =>
      intro m hm
      exact hm
    | cons key keys ih =>
      intro m hm
      exact ih (m.erase key) (hm.erase key)
  unfold ObjectLock.cleanMetadata
  apply hfold
  split_ifs
  · exact hm.erase _
  · exact hm

theorem StoredTimes.filterMetadata {m : Meta} (hm : StoredTimes T m) : StoredTimes T (filterMetadata m) :=
  (((hm.erase _).erase _).erase _).erase _

/-! ### One request -/

section Request

variable {r : CopyRequest} (hT : SwappedFails T) (hr : r.Replica)

include hT hr

theorem copyTags_replica {m : Meta} (hm : StoredTimes T m) {tags : GoString} (htags : tags ≠ []) :
    copyTags T r tags m =
      (m.put taggingTimestampKey (T.format rfc3339Nano r.taggingTimestamp)).put amzObjectTagging tags := by
  unfold copyTags
  rw [if_neg htags, if_pos hr.replica,
    if_pos ⟨hr.taggingTimestamp, takenForNewer_of_stored hT hm (by decide) _⟩]

theorem copyRetention_replica {m : Meta} (hm : StoredTimes T m) {mode : RetMode} (hmode : mode.Valid)
    (date : ℤ) : copyRetention T r mode date m =
      (putRetentionMeta T mode date m).put retentionTimestampKey
        (T.format rfc3339Nano r.retentionTimestamp) := by
  unfold copyRetention
  rw [if_neg (not_not.mpr hmode), if_pos hr.replica,
    if_pos ⟨hr.retentionTimestamp, takenForNewer_of_stored hT hm (by decide) _⟩]

theorem copyLegalHold_replica {m : Meta} (hm : StoredTimes T m) {hold : LegalHoldStatus}
    (hhold : hold.Valid) : copyLegalHold T r hold m =
      (m.put amzObjectLockLegalHoldLower hold.text).put retentionTimestampKey
        (T.format rfc3339Nano r.legalholdTimestamp) := by
  unfold copyLegalHold
  rw [if_neg (not_not.mpr hhold), if_pos hr.replica,
    if_pos ⟨hr.legalholdTimestamp, takenForNewer_of_stored hT hm (by decide) _⟩]

end Request

theorem storedTimes_copyReplicaStatus {m : Meta} (hm : StoredTimes T m) (r : CopyRequest) :
    StoredTimes T (copyReplicaStatus T r m) := by
  unfold copyReplicaStatus
  split_ifs
  · exact hm
  · exact ((hm.put _ (by decide) _).putTime _ _).put _ (by decide) _

theorem get_copyReplicaStatus {key : GoString}
    (hkey : key ∉ [replicaStatusKey, replicaTimestampKey, amzBucketReplicationStatus]) (r : CopyRequest)
    (m : Meta) : (copyReplicaStatus T r m).get key = m.get key := by
  simp only [List.mem_cons, List.not_mem_nil, or_false, not_or] at hkey
  unfold copyReplicaStatus
  split_ifs
  · rfl
  · rw [get_put, if_neg hkey.2.2, get_put, if_neg hkey.2.1, get_put, if_neg hkey.1]

/-- **One request.**  It writes its own tags, retention and legal hold over whatever is stored. -/
theorem copyObject_replica (hT : SwappedFails T) {r : CopyRequest} (hr : r.Replica) {stored stored' : Meta}
    (hm : StoredTimes T stored) (h : copyObject T stored r = .ok stored') :
    StoredTimes T stored' ∧ stored'.get amzObjectTagging = r.tagsText ∧
      retentionOf stored' = r.retentionText T ∧ stored'.get amzObjectLockLegalHoldLower = r.holdText := by
  obtain ⟨tags, htags, hne⟩ := hr.tags
  obtain ⟨holdStr, hhold, hvalid⟩ := hr.hold
  unfold copyObject at h
  split_ifs at h with hparse hcode
  rw [not_not] at hcode
  obtain ⟨rMode, rDate, hheaders, hlock⟩ := check_requested hr.retention hhold hvalid hcode
  have hmode : rMode.Valid := by
    obtain ⟨_, _, _, -, -, hv, -, -, -, rfl⟩ := parseObjectLockRetentionHeaders_ok hheaders
    exact hv
  rw [show r.lock T = ⟨rMode, rDate, parseLegalHoldStatus holdStr, .none⟩ from hlock, hr.stored, htags,
    Option.getD_none, Option.getD_some] at h
  simp only [Except.ok.injEq] at h
  -- the stages one after the other, with the times still as stored
  have hm₁ := hm.cleanMetadata
  rw [copyTags_replica hT hr hm₁ hne] at h
  have hm₂ := ((hm₁.putTime taggingTimestampKey r.taggingTimestamp).put amzObjectTagging
    (by decide) tags).filterMetadata
  rw [copyRetention_replica hT hr hm₂ hmode, putRetentionMeta] at h
  have hm₃ := ((hm₂.put amzObjectLockModeLower (by decide) rMode.text).put
    amzObjectLockRetainUntilDateLower (by decide) (T.format iso8601TimeFormat rDate)).putTime
    retentionTimestampKey r.retentionTimestamp
  rw [copyLegalHold_replica hT hr hm₃ hvalid] at h
  have hm₄ := (hm₃.put amzObjectLockLegalHoldLower (by decide)
    (parseLegalHoldStatus holdStr).text).putTime retentionTimestampKey r.legalholdTimestamp
  subst h
  refine ⟨storedTimes_copyReplicaStatus hm₄ r, ?_, ?_, ?_⟩
  · rw [get_copyReplicaStatus (by decide)]
    unfold filterMetadata CopyRequest.tagsText
    simp +decide only [get_put, get_erase, if_false, if_true, htags]
  · unfold retentionOf CopyRequest.retentionText
    rw [get_copyReplicaStatus (by decide), get_copyReplicaStatus (by decide), hheaders]
    simp +decide only [get_put, if_false, if_true]
  · rw [get_copyReplicaStatus (by decide)]
    unfold CopyRequest.holdText
    simp +decide only [get_put, if_false, if_true, hhold, Option.map_some]

/-! ### Requests in an order -/

/-- **A run.**  What the last request brings is stored in the end. -/
theorem runCopies_replica (hT : SwappedFails T) (rs : List CopyRequest) : ∀ (stored final : Meta)
    (last : CopyRequest), (∀ r ∈ rs, r.Replica) → StoredTimes T stored → runCopies T stored rs = .ok final →
    rs.getLast? = some last →
    final.get amzObjectTagging = last.tagsText ∧ retentionOf final = last.retentionText T ∧
      final.get amzObjectLockLegalHoldLower = last.holdText := by
  induction rs with
  | nil =>
    intro stored final last _ _ _ hlast
    cases hlast
  | cons r rs ih =>
    intro stored final last hrs hstored hrun hlast
    unfold runCopies at hrun
    cases hcopy : copyObject T stored r with
    | error e => rw [hcopy] at hrun; cases hrun
    | ok stored' =>
      rw [hcopy] at hrun
      obtain ⟨htimes, hattrs⟩ := copyObject_replica hT (hrs r List.mem_cons_self) hstored hcopy
      cases rs with
      | nil =>
        cases hlast
        cases hrun
        exact hattrs
      | cons r' rs =>
        rw [List.getLast?_cons_cons] at hlast
        exact ih stored' final last (fun q hq => hrs q (List.mem_cons_of_mem r hq)) htimes hrun hlast

variable (T)

/-- **Last writer wins**: tags, retention and legal hold are each those with the greatest time. -/
def NewestWin (rs : List CopyRequest) (final : Meta) : Prop :=
  (∀ g ∈ rs, (∀ r ∈ rs, r.taggingTimestamp ≤ g.taggingTimestamp) →
    final.get amzObjectTagging = g.tagsText) ∧
  (∀ g ∈ rs, (∀ r ∈ rs, r.retentionTimestamp ≤ g.retentionTimestamp) →
    retentionOf final = g.retentionText T) ∧
  (∀ g ∈ rs, (∀ r ∈ rs, r.legalholdTimestamp ≤ g.legalholdTimestamp) →
    final.get amzObjectLockLegalHoldLower = g.holdText)

/-- The request delivered last brings the newest of each. -/
def LastBringsNewest (rs : List CopyRequest) : Prop :=
  ∀ last, rs.getLast? = some last →
    (∀ g ∈ rs, (∀ r ∈ rs, r.taggingTimestamp ≤ g.taggingTimestamp) → last.tagsText = g.tagsText) ∧
    (∀ g ∈ rs, (∀ r ∈ rs, r.retentionTimestamp ≤ g.retentionTimestamp) →
      last.retentionText T = g.retentionText T) ∧
    (∀ g ∈ rs, (∀ r ∈ rs, r.legalholdTimestamp ≤ g.legalholdTimestamp) → last.holdText = g.holdText)

/-- **When the newest wins.**  In any order of replica requests that are all applied, tags, retention and legal
hold end up as the newest if and only if the last request in the order brings them. -/
theorem replica_lastWriterWins_iff (hT : SwappedFails T) (stored final : Meta) (rs : List CopyRequest)
    (hstored : StoredTimes T stored) (hrs : ∀ r ∈ rs, r.Replica) (hrun : runCopies T stored rs = .ok final) :
    NewestWin T rs final ↔ LastBringsNewest T rs := by
  constructor
  · intro hwin last hlast
    obtain ⟨htags, hretention, hhold⟩ := runCopies_replica hT rs stored final last hrs hstored hrun hlast
    rw [← htags, ← hretention, ← hhold]
    exact hwin
  · intro hbrings
    cases hlast : rs.getLast? with
    | none =>
      rw [List.getLast?_eq_none_iff] at hlast
      subst hlast
      exact ⟨fun g hg => absurd hg List.not_mem_nil, fun g hg => absurd hg List.not_mem_nil,
        fun g hg => absurd hg List.not_mem_nil⟩
    | some last =>
      obtain ⟨htags, hretention, hhold⟩ := runCopies_replica hT rs stored final last hrs hstored hrun hlast
      unfold NewestWin
      rw [htags, hretention, hhold]
      exact hbrings last hlast

end Copy

/-! ### Two requests -/

/-- The time package on the dates used here. -/
def replicaTimes : TimeText where
  parse layout value := if layout = rfc3339 ∧ value = lit "2100-01-01T00:00:00Z" then some year2100 else none
  format layout t :=
    if layout = iso8601TimeFormat then lit "2100-01-01T00:00:00.000Z"
    else if t = second then lit "1970-01-01T00:00:01Z"
    else lit "1970-01-01T00:00:02Z"

theorem replicaTimes_swappedFails : SwappedFails replicaTimes := by
  refine ⟨by decide, ?_⟩
  intro t
  exact if_neg fun h => absurd h.2 (by decide)

/-- A replica request whose changes were made at one time. -/
def replicaRequest (tags hold : String) (time : ℤ) : CopyRequest where
  headers := ⟨some (lit "COMPLIANCE"), some (lit "2100-01-01T00:00:00Z"), some (lit hold), [], lit "REPLICA"⟩
  replaceMetadata := none
  replaceTags := some (lit tags)
  tagsParse := true
  replicationRequest := true
  taggingTimestamp := time
  retentionTimestamp := time
  legalholdTimestamp := time
  retPerms := .none
  holdPerms := .none
  canceled := false
  answers := plainAnswers
  now := 2 * second

def olderRequest : CopyRequest := replicaRequest "a=1" "ON" second

def newerRequest : CopyRequest := replicaRequest "a=2" "OFF" (2 * second)

theorem olderRequest_replica : olderRequest.Replica :=
  ⟨rfl, rfl, ⟨_, rfl, by decide⟩, by decide, ⟨_, rfl, by decide⟩, by decide, by decide, by decide⟩

theorem newerRequest_replica : newerRequest.Replica :=
  ⟨rfl, rfl, ⟨_, rfl, by decide⟩, by decide, ⟨_, rfl, by decide⟩, by decide, by decide, by decide⟩

theorem replica_lastWriterWins_iff_ordered :
    ∃ final, runCopies replicaTimes GoMap.empty [olderRequest, newerRequest] = .ok final ∧
      NewestWin replicaTimes [olderRequest, newerRequest] final := by
  obtain ⟨final, hrun⟩ : ∃ final,
      runCopies replicaTimes GoMap.empty [olderRequest, newerRequest] = .ok final := ⟨_, rfl⟩
  refine ⟨final, hrun, (replica_lastWriterWins_iff replicaTimes replicaTimes_swappedFails GoMap.empty final
    [olderRequest, newerRequest] (fun key _ => Or.inl rfl) ?_ hrun).mpr ?_⟩
  · intro r hr
    rcases List.mem_pair.mp hr with rfl | rfl
    · exact olderRequest_replica
    · exact newerRequest_replica
  · intro last hlast
    cases hlast
    have hnewest : ∀ time : CopyRequest → ℤ, time olderRequest < time newerRequest →
        ∀ g ∈ [olderRequest, newerRequest],
          (∀ r ∈ [olderRequest, newerRequest], time r ≤ time g) → g = newerRequest := by
      intro time hlt g hg hmax
      rcases List.mem_pair.mp hg with rfl | rfl
      · exact absurd (hmax newerRequest (by simp)) (Int.not_le.mpr hlt)
      · rfl
    refine ⟨?_, ?_, ?_⟩
    · intro g hg hmax
      obtain rfl := hnewest CopyRequest.taggingTimestamp (by decide) g hg hmax
      rfl
    · intro g hg hmax
      obtain rfl := hnewest CopyRequest.retentionTimestamp (by decide) g hg hmax
      rfl
    · intro g hg hmax
      obtain rfl := hnewest CopyRequest.legalholdTimestamp (by decide) g hg hmax
      rfl

/-- **The older one wins** when it is delivered last: its tags and its legal hold are on disk in the end. -/
theorem replica_older_wins :
    ∃ final, runCopies replicaTimes GoMap.empty [newerRequest, olderRequest] = .ok final ∧
      final.get amzObjectTagging = olderRequest.tagsText ∧
      final.get amzObjectLockLegalHoldLower = olderRequest.holdText ∧
      ¬ NewestWin replicaTimes [newerRequest, olderRequest] final := by
  obtain ⟨final, hrun, htagging, hhold⟩ : ∃ final,
      runCopies replicaTimes GoMap.empty [newerRequest, olderRequest] = .ok final ∧
        final.get amzObjectTagging = olderRequest.tagsText ∧
        final.get amzObjectLockLegalHoldLower = olderRequest.holdText :=
    ⟨_, rfl, by decide, by decide⟩
  refine ⟨final, hrun, htagging, hhold, ?_⟩
  intro hwin
  have htags := hwin.1 newerRequest (by simp) (by
    intro r hr
    rcases List.mem_pair.mp hr with rfl | rfl
    · decide
    · decide)
  rw [htagging] at htags
  exact absurd htags (by decide)

end Zs3Server.Cmd.ObjectLock
