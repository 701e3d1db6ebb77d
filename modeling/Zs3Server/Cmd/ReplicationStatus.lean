import Zs3Server.Lib.ByteString
import Zs3Server.Lib.GoMaps

/-!
# Replication statuses as text

An object version keeps the replication status of every target in one string, `arn=status;` for each.
The string is read back by the regular expression `([^=].*?)=([^,].*?);`, and the overall status is
computed from the map that results.

* `findAll`, `matchAt_spec` — the expression, and what a match consists of;
* `findAll_encode` — entries that are read back as they were written;
* `overall_congr` — the overall status depends on which statuses occur;
* `statuses_survive_iff` — the targets whose statuses survive.
-/

namespace Zs3Server.Cmd.ReplicationStatus

open Lib.ByteString Lib.GoMaps

/-! ## The regular expression

`.` is any character but a newline, and `*?` takes as little as it can.  All the characters it names
are ASCII, so it can be matched byte by byte. -/

/-- `.*?;`: the text before the semicolon and the text after it. -/
def lazyStatus : GoString → Option (GoString × GoString)
  | [] => none
  | c :: s =>
    if c = 59 then some ([], s)
    else if c = 10 then none
    else (lazyStatus s).map fun m => (c :: m.1, m.2)

/-- `([^,].*?);` -/
def statusFrom : GoString → Option (GoString × GoString)
  | [] => none
  | c :: s => if c = 44 then none else (lazyStatus s).map fun m => (c :: m.1, m.2)

/-- `.*?=([^,].*?);`: an equals sign after which the rest does not match is taken into the name. -/
def lazyName : GoString → Option (GoString × GoString × GoString)
  | [] => none
  | c :: s =>
    match if c = 61 then statusFrom s else none with
    | some m => some ([], m)
    | none => if c = 10 then none else (lazyName s).map fun m => (c :: m.1, m.2)

/-- A match at the start: the two groups and the rest. -/
def matchAt : GoString → Option (GoString × GoString × GoString)
  | [] => none
  | c :: s => if c = 61 then none else (lazyName s).map fun m => (c :: m.1, m.2)

/-- The leftmost match. -/
def find : GoString → Option (GoString × GoString × GoString)
  | [] => none
  | c :: s => (matchAt (c :: s)).or (find s)

theorem lazyStatus_spec {s : GoString} {m : GoString × GoString} (h : lazyStatus s = some m) :
    s = m.1 ++ 59 :: m.2 := by
  induction s generalizing m with
  | nil => cases h
  | cons c s ih =>
    rw [lazyStatus] at h
    split at h
    · next hc =>
      obtain rfl := Option.some.inj h
      rw [hc]
      rfl
    · split at h
      · cases h
      · obtain ⟨m', hm', rfl⟩ := Option.map_eq_some_iff.mp h
        rw [ih hm']
        rfl

theorem statusFrom_spec {s : GoString} {m : GoString × GoString} (h : statusFrom s = some m) :
    s = m.1 ++ 59 :: m.2 ∧ m.1 ≠ [] := by
  cases s with
  | nil => cases h
  | cons c s =>
    rw [statusFrom] at h
    split at h
    · cases h
    · obtain ⟨m', hm', rfl⟩ := Option.map_eq_some_iff.mp h
      rw [lazyStatus_spec hm']
      exact ⟨rfl, by simp⟩

theorem lazyName_spec {s : GoString} {m : GoString × GoString × GoString} (h : lazyName s = some m) :
    s = m.1 ++ 61 :: (m.2.1 ++ 59 :: m.2.2) ∧ 10 ∉ m.1 ∧ m.2.1 ≠ [] := by
  induction s generalizing m with
  | nil => cases h
  | cons c s ih =>
    rw [lazyName] at h
    split at h
    · next m' hm' =>
      obtain rfl := Option.some.inj h
      split at hm'
      · next hc =>
        obtain ⟨hs, hne⟩ := statusFrom_spec hm'
        exact ⟨by rw [hc, hs]; rfl, by simp, hne⟩
      · cases hm'
    · split at h
      · cases h
      · next hc =>
        obtain ⟨m', hm', rfl⟩ := Option.map_eq_some_iff.mp h
        obtain ⟨hs, hnl, hne⟩ := ih hm'
        exact ⟨by rw [hs]; rfl, by simp [hnl, Ne.symm hc], hne⟩

/-- **A match**: a name with no newline after its first character, and a status that is not empty. -/
theorem matchAt_spec {s : GoString} {m : GoString × GoString × GoString} (h : matchAt s = some m) :
    s = m.1 ++ 61 :: (m.2.1 ++ 59 :: m.2.2) ∧ 10 ∉ m.1.tail ∧ m.2.1 ≠ [] := by
  cases s with
  | nil => cases h
  | cons c s =>
    rw [matchAt] at h
    split at h
    · cases h
    · obtain ⟨m', hm', rfl⟩ := Option.map_eq_some_iff.mp h
      obtain ⟨hs, hnl, hne⟩ := lazyName_spec hm'
      exact ⟨by rw [hs]; rfl, hnl, hne⟩

theorem find_spec {s : GoString} {m : GoString × GoString × GoString} (h : find s = some m) :
    m.2.2.length < s.length ∧ 10 ∉ m.1.tail ∧ m.2.1 ≠ [] := by
  induction s with
  | nil => cases h
  | cons c s ih =>
    rw [find] at h
    cases hm : matchAt (c :: s) with
    | some m' =>
      rw [hm, Option.some_or] at h
      obtain rfl := Option.some.inj h
      obtain ⟨hs, hnl, hne⟩ := matchAt_spec hm
      refine ⟨?_, hnl, hne⟩
      rw [hs]
      simp only [List.length_append, List.length_cons]
      omega
    | none =>
      rw [hm, Option.none_or] at h
      obtain ⟨hlen, hrest⟩ := ih h
      exact ⟨Nat.lt_succ_of_lt hlen, hrest⟩

/-- `FindAllStringSubmatch`, the two groups of every match. -/
def findAll (s : GoString) : List (GoString × GoString) :=
  match _h : find s with
  | none => []
  | some m => (m.1, m.2.1) :: findAll m.2.2
termination_by s.length
decreasing_by exact (find_spec _h).1

theorem findAll_of_find {s : GoString} {m : GoString × GoString × GoString} (h : find s = some m) :
    findAll s = (m.1, m.2.1) :: findAll m.2.2 := by
  rw [findAll]
  split
  · next h' =>
    rw [h] at h'
    cases h'
  · next m' h' =>
    rw [h] at h'
    obtain rfl := Option.some.inj h'
    rfl

theorem mem_findAll {s : GoString} {e : GoString × GoString} (h : e ∈ findAll s) :
    10 ∉ e.1.tail ∧ e.2 ≠ [] := by
  induction hn : s.length using Nat.strongRecOn generalizing s with
  | _ n ih =>
    cases hfind : find s with
    | none =>
      rw [findAll] at h
      split at h
      · cases h
      · next m h' =>
        rw [hfind] at h'
        cases h'
    | some m =>
      obtain ⟨hlen, hspec⟩ := find_spec hfind
      rw [findAll_of_find hfind] at h
      rcases List.mem_cons.mp h with rfl | h
      · exact hspec
      · exact ih _ (hn ▸ hlen) h rfl

/-! ## Entries -/

/-- `fmt.Fprintf(b, "%s=%s;", ...)` for each entry. -/
def encode (entries : List (GoString × GoString)) : GoString :=
  entries.flatMap fun e => e.1 ++ 61 :: (e.2 ++ [59])

/-- An entry that is read back: the name has no equals sign, and no newline but at its start; the
status has neither a semicolon nor a newline, and does not start with a comma. -/
structure Readable (e : GoString × GoString) : Prop where
  name : e.1 ≠ []
  noEquals : 61 ∉ e.1
  noNewline : 10 ∉ e.1.tail
  status : e.2 ≠ []
  plain : ∀ c ∈ e.2, c ≠ 44 ∧ c ≠ 59 ∧ c ≠ 10

theorem lazyStatus_append {t : GoString} (ht : ∀ c ∈ t, c ≠ 59 ∧ c ≠ 10) (rest : GoString) :
    lazyStatus (t ++ 59 :: rest) = some (t, rest) := by
  induction t with
  | nil => rfl
  | cons c t ih =>
    obtain ⟨h59, h10⟩ := ht c List.mem_cons_self
    rw [List.cons_append, lazyStatus, if_neg h59, if_neg h10,
      ih fun x hx => ht x (List.mem_cons_of_mem _ hx)]
    rfl

theorem lazyName_append {t s : GoString} (ht : ∀ c ∈ t, c ≠ 61 ∧ c ≠ 10) {m : GoString × GoString}
    (hs : statusFrom s = some m) : lazyName (t ++ 61 :: s) = some (t, m) := by
  induction t with
  | nil => simp [lazyName, hs]
  | cons c t ih =>
    obtain ⟨h61, h10⟩ := ht c List.mem_cons_self
    rw [List.cons_append, lazyName, if_neg h61, ih fun x hx => ht x (List.mem_cons_of_mem _ hx)]
    simp [h10]

theorem find_entry {e : GoString × GoString} (he : Readable e) (rest : GoString) :
    find (e.1 ++ 61 :: (e.2 ++ [59]) ++ rest) = some (e.1, e.2, rest) := by
  obtain ⟨name, status⟩ := e
  obtain ⟨c, name, rfl⟩ := List.exists_cons_of_ne_nil he.name
  obtain ⟨d, status, rfl⟩ := List.exists_cons_of_ne_nil he.status
  have hd := he.plain d List.mem_cons_self
  have hstatus : statusFrom (d :: status ++ 59 :: rest) = some (d :: status, rest) := by
    rw [List.cons_append, statusFrom, if_neg hd.1,
      lazyStatus_append fun x hx => (he.plain x (List.mem_cons_of_mem _ hx)).2]
    rfl
  have hname : lazyName (name ++ 61 :: (d :: status ++ 59 :: rest)) =
      some (name, d :: status, rest) := by
    refine lazyName_append (fun x hx => ⟨?_, ?_⟩) hstatus
    · intro h
      exact he.noEquals (h ▸ List.mem_cons_of_mem _ hx)
    · intro h
      exact he.noNewline (h ▸ hx)
  have hc : c ≠ 61 := fun h => he.noEquals (h ▸ List.mem_cons_self)
  have hmatch : matchAt (c :: (name ++ 61 :: (d :: status ++ 59 :: rest))) =
      some (c :: name, d :: status, rest) := by
    rw [matchAt, if_neg hc, hname]
    rfl
  simp only [List.cons_append, List.append_assoc, List.nil_append] at hmatch ⊢
  rw [find, hmatch]
  rfl

/-- **Readable entries are read back as they were written.** -/
theorem findAll_encode {entries : List (GoString × GoString)} (h : ∀ e ∈ entries, Readable e) :
    findAll (encode entries) = entries := by
  induction entries with
  | nil =>
    show findAll [] = []
    rw [findAll]
    rfl
  | cons e entries ih =>
    have hrest := ih fun x hx => h x (List.mem_cons_of_mem _ hx)
    rw [encode, List.flatMap_cons, findAll_of_find (find_entry (h e List.mem_cons_self) _)]
    exact congrArg _ hrest

/-! ## Targets -/

def pending : GoString := lit "PENDING"

def completed : GoString := lit "COMPLETED"

def failed : GoString := lit "FAILED"

def replica : GoString := lit "REPLICA"

/-- The purge statuses differ in one of the words. -/
def complete : GoString := lit "COMPLETE"

structure ReplicatedTargetInfo where
  arn : GoString
  replicationStatus : GoString
  versionPurgeStatus : GoString
  resyncTimestamp : GoString

structure ReplicatedInfos where
  replicationTimeStamp : ℤ
  targets : List ReplicatedTargetInfo

/-- A reset map may be nil. -/
structure ReplicationState where
  replicaTimeStamp : ℤ
  replicaStatus : GoString
  replicationTimeStamp : ℤ
  replicationStatusInternal : GoString
  versionPurgeStatusInternal : GoString
  replicateDecisionStr : GoString
  targets : GoMap GoString GoString
  purgeTargets : GoMap GoString GoString
  resetStatusesMap : Option (GoMap GoString GoString)

/-- What is written of the targets. -/
def statusEntries (ri : ReplicatedInfos) : List (GoString × GoString) :=
  (ri.targets.filter fun t => t.arn ≠ []).map fun t => (t.arn, t.replicationStatus)

def purgeEntries (ri : ReplicatedInfos) : List (GoString × GoString) :=
  (ri.targets.filter fun t => t.arn ≠ [] ∧ t.versionPurgeStatus ≠ []).map fun t =>
    (t.arn, t.versionPurgeStatus)

def replicationStatusInternal (ri : ReplicatedInfos) : GoString := encode (statusEntries ri)

def versionPurgeStatusInternal (ri : ReplicatedInfos) : GoString := encode (purgeEntries ri)

/-- Every match has three parts, so none is skipped. -/
def statusesMap (s : GoString) : GoMap GoString GoString :=
  (findAll s).foldl (fun targets m => targets.put m.1 m.2) GoMap.empty

def replicationStatusesMap (s : GoString) : GoMap GoString GoString := statusesMap s

def versionPurgeStatusesMap (s : GoString) : GoMap GoString GoString := statusesMap s

/-- The loop of `ReplicationStatus` and `getCompositeReplicationStatus`; `none` is its early return. -/
def countCompleted : List GoString → ℕ → Option ℕ
  | [], n => some n
  | v :: rest, n =>
    if v = failed then none else if v = completed then countCompleted rest (n + 1)
    else countCompleted rest n

def overall (statuses : List GoString) : GoString :=
  if statuses.length = 0 then []
  else
    match countCompleted statuses 0 with
    | none => failed
    | some n => if n = statuses.length then completed else pending

def ReplicatedInfos.replicationStatus (ri : ReplicatedInfos) : GoString :=
  overall (ri.targets.map fun t => t.replicationStatus)

def getCompositeReplicationStatus (order : IterOrder (GoString × GoString))
    (m : GoMap GoString GoString) : GoString :=
  overall ((order.val m.entries).map Prod.snd)

/-- `time.Unix(0, 0)`. -/
def timeSentinel : ℤ := 0

def ReplicationState.compositeReplicationStatus (order : IterOrder (GoString × GoString))
    (rs : ReplicationState) : GoString :=
  if rs.replicationStatusInternal ≠ [] then
    if rs.replicationStatusInternal ∈ [pending, completed, failed, replica] then
      rs.replicationStatusInternal
    else
      let replStatus := getCompositeReplicationStatus order rs.targets
      if rs.replicaTimeStamp ≠ timeSentinel ∧ replStatus = completed ∧
          rs.replicaTimeStamp > rs.replicationTimeStamp then rs.replicaStatus
      else replStatus
  else if rs.replicaStatus ≠ [] then rs.replicaStatus
  else []

def targetResetHeader (arn : GoString) : GoString := lit "x-minio-internal-replication-reset-" ++ arn

/-- `none` is the panic of a write to a nil map. -/
def resetLoop : List ReplicatedTargetInfo → Option (GoMap GoString GoString) →
    Option (Option (GoMap GoString GoString))
  | [], m => some m
  | t :: rest, m =>
    if t.resyncTimestamp ≠ [] then
      m.bind fun m => resetLoop rest (some (m.put (targetResetHeader t.arn) t.resyncTimestamp))
    else resetLoop rest m

def getReplicationState (rinfos : ReplicatedInfos) (prevState : ReplicationState) :
    Option ReplicationState :=
  (resetLoop rinfos.targets prevState.resetStatusesMap).map fun resetStatusesMap =>
    { replicaTimeStamp := prevState.replicaTimeStamp
      replicaStatus := prevState.replicaStatus
      replicationTimeStamp := rinfos.replicationTimeStamp
      replicationStatusInternal := replicationStatusInternal rinfos
      versionPurgeStatusInternal := versionPurgeStatusInternal rinfos
      replicateDecisionStr := prevState.replicateDecisionStr
      targets := replicationStatusesMap (replicationStatusInternal rinfos)
      purgeTargets := versionPurgeStatusesMap (versionPurgeStatusInternal rinfos)
      resetStatusesMap := resetStatusesMap }

/-! ## The overall status -/

theorem countCompleted_eq (statuses : List GoString) (n : ℕ) :
    countCompleted statuses n =
      if failed ∈ statuses then none else some (n + statuses.count completed) := by
  have hne : completed ≠ failed := by decide +kernel
  induction statuses generalizing n with
  | nil => simp [countCompleted]
  | cons v rest ih =>
    rw [countCompleted]
    by_cases hf : v = failed
    · simp [hf]
    · have hmem : failed ∈ v :: rest ↔ failed ∈ rest := by simp [Ne.symm hf]
      rw [if_neg hf, ih, ih]
      by_cases hc : v = completed
      · rw [if_pos hc, hc, List.count_cons_self]
        simp only [List.mem_cons, hne.symm, false_or]
        congr 2
        omega
      · rw [if_neg hc, List.count_cons_of_ne hc]
        simp only [hmem]

/-- **The overall status depends on which statuses occur.** -/
theorem overall_congr {statuses statuses' : List GoString} (h : ∀ v, v ∈ statuses ↔ v ∈ statuses') :
    overall statuses = overall statuses' := by
  have hspec : ∀ l : List GoString, overall l =
      if l = [] then [] else if failed ∈ l then failed
      else if ∀ v ∈ l, completed = v then completed else pending := by
    intro l
    rw [overall, countCompleted_eq]
    simp only [List.length_eq_zero_iff]
    split
    · rfl
    · by_cases hf : failed ∈ l
      · simp [hf]
      · simp [hf, List.count_eq_length]
  have hnil : statuses = [] ↔ statuses' = [] := by
    simp only [List.eq_nil_iff_forall_not_mem, h]
  rw [hspec, hspec]
  simp only [hnil, h]

/-- A map that holds these entries and no others. -/
def MapsExactly (m : GoMap GoString GoString) (entries : List (GoString × GoString)) : Prop :=
  ∀ k v, m.get k = some v ↔ (k, v) ∈ entries

theorem statusesMap_exact {entries : List (GoString × GoString)} (h : ∀ e ∈ entries, Readable e)
    (hnodup : (entries.map Prod.fst).Nodup) : MapsExactly (statusesMap (encode entries)) entries := by
  intro k v
  rw [statusesMap, findAll_encode h,
    get_foldl Prod.fst (fun _ e => e.2) (fun m e n => get_put m e.1 n e.2) hnodup]
  have hfind := find?_eq_some_of_nodup hnodup (n := k) (a := (k, v))
  rw [and_iff_left rfl] at hfind
  rw [← hfind]
  cases hk : entries.find? (fun e => e.1 = k) with
  | none => simp
  | some e =>
    have hek : e.1 = k := of_decide_eq_true (List.find?_some hk :)
    simp [Prod.ext_iff, hek]

/-- No key of the map has a newline after its first character, and no value is empty. -/
theorem get_statusesMap {s k v : GoString} (h : (statusesMap s).get k = some v) :
    10 ∉ k.tail ∧ v ≠ [] := by
  have hloop : ∀ (l : List (GoString × GoString)) (m : GoMap GoString GoString),
      (l.foldl (fun targets e => targets.put e.1 e.2) m).get k = some v →
        (k, v) ∈ l ∨ m.get k = some v := by
    intro l
    induction l with
    | nil =>
      intro m hm
      exact .inr hm
    | cons e l ih =>
      intro m hm
      rcases ih _ hm with hl | hput
      · exact .inl (List.mem_cons_of_mem _ hl)
      · rw [get_put] at hput
        split at hput
        · next hk =>
          obtain rfl := Option.some.inj hput
          exact .inl (by simp [hk])
        · exact .inr hput
  rcases hloop _ _ h with hmem | hempty
  · exact mem_findAll hmem
  · rw [get_empty] at hempty
    cases hempty

/-! ## What survives -/

/-- Targets as the configuration gives them, and the statuses there are. -/
structure WellFormed (ri : ReplicatedInfos) : Prop where
  nodup : (ri.targets.map fun t => t.arn).Nodup
  arn : ∀ t ∈ ri.targets, t.arn ≠ [] ∧ 61 ∉ t.arn ∧ 59 ∉ t.arn
  status : ∀ t ∈ ri.targets, t.replicationStatus ∈ [pending, completed, failed, replica, []]
  purge : ∀ t ∈ ri.targets, t.versionPurgeStatus ∈ [pending, completed, failed, replica, complete, []]

theorem statusEntries_eq {ri : ReplicatedInfos} (hwf : WellFormed ri) :
    statusEntries ri = ri.targets.map fun t => (t.arn, t.replicationStatus) := by
  rw [statusEntries, List.filter_eq_self.mpr]
  intro t ht
  simp [(hwf.arn t ht).1]

theorem readable_of_wellFormed {ri : ReplicatedInfos} (hwf : WellFormed ri)
    {t : ReplicatedTargetInfo} (ht : t ∈ ri.targets) (hnl : 10 ∉ t.arn.tail) {status : GoString}
    (hne : status ≠ []) (hstatus : status ∈ [pending, completed, failed, replica, complete, []]) :
    Readable (t.arn, status) := by
  have hplain : ∀ s ∈ [pending, completed, failed, replica, complete, []],
      ∀ c ∈ s, c ≠ 44 ∧ c ≠ 59 ∧ c ≠ 10 := by decide +kernel
  obtain ⟨hname, heq, -⟩ := hwf.arn t ht
  exact ⟨hname, heq, hnl, hne, hplain status hstatus⟩

theorem statuses_exact_iff {ri : ReplicatedInfos} (hwf : WellFormed ri) :
    MapsExactly (replicationStatusesMap (replicationStatusInternal ri))
        (ri.targets.map fun t => (t.arn, t.replicationStatus)) ↔
      ∀ t ∈ ri.targets, t.replicationStatus ≠ [] ∧ 10 ∉ t.arn.tail := by
  constructor
  · intro h t ht
    have hget := (h t.arn t.replicationStatus).mpr (List.mem_map_of_mem ht)
    exact (get_statusesMap hget).symm
  · intro h
    rw [← statusEntries_eq hwf]
    refine statusesMap_exact ?_ ?_
    · intro e he
      rw [statusEntries_eq hwf] at he
      obtain ⟨t, ht, rfl⟩ := List.mem_map.mp he
      have hsub := (List.sublist_cons_self complete [[]]).append_left [pending, completed, failed, replica]
      exact readable_of_wellFormed hwf ht (h t ht).2 (h t ht).1 (hsub.subset (hwf.status t ht))
    · rw [statusEntries_eq hwf, List.map_map]
      exact hwf.nodup

theorem purge_exact {ri : ReplicatedInfos} (hwf : WellFormed ri)
    (h : ∀ t ∈ ri.targets, 10 ∉ t.arn.tail) :
    MapsExactly (versionPurgeStatusesMap (versionPurgeStatusInternal ri)) (purgeEntries ri) := by
  refine statusesMap_exact ?_ ?_
  · intro e he
    obtain ⟨t, hfilter, rfl⟩ := List.mem_map.mp he
    obtain ⟨ht, hne⟩ := List.mem_filter.mp hfilter
    exact readable_of_wellFormed hwf ht (h t ht) (of_decide_eq_true hne).2 (hwf.purge t ht)
  · rw [purgeEntries, List.map_map]
    exact hwf.nodup.sublist (List.filter_sublist.map _)

/-- The text of the entries is never one of the single statuses of old. -/
theorem encode_not_status {entries : List (GoString × GoString)} (hne : entries ≠ []) :
    encode entries ≠ [] ∧ encode entries ∉ [pending, completed, failed, replica] := by
  have hlast : (encode entries).getLast? = some 59 := by
    rw [← List.dropLast_append_getLast hne, encode, List.flatMap_append]
    simp [List.getLast?_append, List.getLast?_cons]
  refine ⟨fun h => by simp [h] at hlast, fun h => ?_⟩
  have hall : ∀ s ∈ [pending, completed, failed, replica], s.getLast? ≠ some 59 := by decide +kernel
  exact hall _ h hlast

/-- **The overall status** is that of the targets, where their statuses survive and there is one. -/
theorem composite_eq_iff (order : IterOrder (GoString × GoString)) {ri : ReplicatedInfos}
    {prevState rs : ReplicationState} (hwf : WellFormed ri)
    (hstate : getReplicationState ri prevState = some rs)
    (hreplica : prevState.replicaTimeStamp = timeSentinel ∨
      prevState.replicaTimeStamp ≤ ri.replicationTimeStamp)
    (hexact : MapsExactly (replicationStatusesMap (replicationStatusInternal ri))
      (ri.targets.map fun t => (t.arn, t.replicationStatus))) :
    rs.compositeReplicationStatus order = ri.replicationStatus ↔
      (ri.targets = [] → prevState.replicaStatus = []) := by
  obtain ⟨reset, -, rfl⟩ := Option.map_eq_some_iff.mp hstate
  unfold ReplicationState.compositeReplicationStatus
  dsimp only
  by_cases hnil : ri.targets = []
  · have htext : replicationStatusInternal ri = [] := by
      simp [replicationStatusInternal, statusEntries, hnil, encode]
    rw [if_neg (by simp [htext]), ReplicatedInfos.replicationStatus, hnil]
    show (if prevState.replicaStatus ≠ [] then prevState.replicaStatus else []) = [] ↔ _
    split
    · simp
    · next h => simpa using h
  · have hentries : statusEntries ri ≠ [] := by
      rw [statusEntries_eq hwf]
      simpa using hnil
    have htext : replicationStatusInternal ri ≠ [] ∧
        replicationStatusInternal ri ∉ [pending, completed, failed, replica] :=
      encode_not_status hentries
    have hlate : ¬ (prevState.replicaTimeStamp ≠ timeSentinel ∧
        getCompositeReplicationStatus order (replicationStatusesMap (replicationStatusInternal ri)) =
          completed ∧ prevState.replicaTimeStamp > ri.replicationTimeStamp) := by
      intro h
      rcases hreplica with h' | h'
      · exact h.1 h'
      · exact absurd h.2.2 (not_lt.mpr h')
    rw [if_pos htext.1, if_neg htext.2, if_neg hlate]
    refine iff_of_true (overall_congr fun v => ?_) (fun h => absurd h hnil)
    constructor
    · intro hv
      obtain ⟨e, he, rfl⟩ := List.mem_map.mp hv
      have hget := get_eq_some_iff.mpr ((order.property _).subset he)
      obtain ⟨t, ht, heq⟩ := List.mem_map.mp ((hexact e.1 e.2).mp hget)
      exact List.mem_map.mpr ⟨t, ht, congrArg Prod.snd heq⟩
    · intro hv
      obtain ⟨t, ht, rfl⟩ := List.mem_map.mp hv
      have hget := (hexact t.arn t.replicationStatus).mpr (List.mem_map_of_mem ht)
      exact List.mem_map.mpr ⟨_, (order.property _).symm.subset (get_eq_some_iff.mp hget), rfl⟩

/-- **The statuses that survive.**  The maps read back are exact and the overall status is that of
the targets when every target has a status, no ARN has a newline after its first character, and
there is a target or no replica status. -/
theorem statuses_survive_iff (order : IterOrder (GoString × GoString)) (ri : ReplicatedInfos)
    (prevState rs : ReplicationState) (hwf : WellFormed ri)
    (hstate : getReplicationState ri prevState = some rs)
    (hreplica : prevState.replicaTimeStamp = timeSentinel ∨
      prevState.replicaTimeStamp ≤ ri.replicationTimeStamp) :
    (MapsExactly (replicationStatusesMap (replicationStatusInternal ri))
        (ri.targets.map fun t => (t.arn, t.replicationStatus)) ∧
      MapsExactly (versionPurgeStatusesMap (versionPurgeStatusInternal ri)) (purgeEntries ri) ∧
      rs.compositeReplicationStatus order = ri.replicationStatus) ↔
      (∀ t ∈ ri.targets, t.replicationStatus ≠ [] ∧ 10 ∉ t.arn.tail) ∧
        (ri.targets = [] → prevState.replicaStatus = []) := by
  have hstatuses := statuses_exact_iff hwf
  constructor
  · intro h
    exact ⟨hstatuses.mp h.1, (composite_eq_iff order hwf hstate hreplica h.1).mp h.2.2⟩
  · intro h
    have hexact := hstatuses.mpr h.1
    exact ⟨hexact, purge_exact hwf fun t ht => (h.1 t ht).2,
      (composite_eq_iff order hwf hstate hreplica hexact).mpr h.2⟩

def stateBefore : ReplicationState := ⟨0, [], 0, [], [], [], GoMap.empty, GoMap.empty, none⟩

def twoTargets (status : GoString) : ReplicatedInfos :=
  ⟨1, [⟨lit "a", status, [], []⟩, ⟨lit "b", pending, [], []⟩]⟩

/-- Two targets with a status each. -/
theorem statuses_survive_two :
    MapsExactly (replicationStatusesMap (replicationStatusInternal (twoTargets completed)))
      [(lit "a", completed), (lit "b", pending)] := by
  have hwf : WellFormed (twoTargets completed) :=
    ⟨by decide +kernel, by decide +kernel, by decide +kernel, by decide +kernel⟩
  exact ((statuses_survive_iff ⟨id, fun l => List.Perm.refl l⟩ _ stateBefore _ hwf rfl (.inl rfl)).mpr
    ⟨by decide +kernel, fun _ => rfl⟩).1

/-- An empty status takes the next target for its own. -/
theorem empty_status_swallows :
    findAll (replicationStatusInternal (twoTargets [])) = [(lit "a", lit ";b=PENDING")] ∧
      (replicationStatusesMap (replicationStatusInternal (twoTargets []))).get (lit "b") = none := by
  decide +kernel

end Zs3Server.Cmd.ReplicationStatus
