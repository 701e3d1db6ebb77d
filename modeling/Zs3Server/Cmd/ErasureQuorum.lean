import Zs3Server.Cmd.DiskCache
import Zs3Server.Cmd.ErasureEncode
import Zs3Server.Lib.GoMaps

/-!
# Read and write quorums of an object

An object of `d` data and `p` parity blocks is read from any `d` of its disks.  A write counts once enough
disks have taken it that every read meets one of them and no two writes pass each other by; for `d = p` that
needs one disk more than the data blocks.  `putObject` decides this from the blocks it is about to write.
`objectQuorumFromMeta`, which serves every later access, takes the data blocks from the object and the parity
from the configuration of that moment.

* `quorums_intersect_iff` — for which objects and configurations the quorums of a later access intersect;
* `quorums_part` — a change of the configured parity after which they do not.
-/

namespace Zs3Server.Cmd.ErasureQuorum

open Lib.ByteString
open Lib.GoInt64
open Lib.GoMaps
open Lib.GoTime (GoTime unixNano zeroTime)
open Lib.GoUtf8 (trimSpace)
open Cmd.DiskCache (timeSentinel)
open Cmd.ErasureEncode (Err reduceErrs objectOpIgnoredErrs)

/-! ### Entries of the disks -/

structure ErasureInfo where
  dataBlocks : ℤ
  parityBlocks : ℤ
  index : ℤ
  distribution : List ℤ

/-- The fields of `FileInfo` that are read here. -/
structure FileInfo where
  deleted : Bool
  modTime : ℤ
  erasure : ErasureInfo
  metadata : GoMap GoString GoString

def FileInfo.IsValid (fi : FileInfo) : Prop :=
  fi.deleted = true ∨
    (fi.erasure.parityBlocks ≤ fi.erasure.dataBlocks ∧ fi.erasure.dataBlocks ≠ 0 ∧
      fi.erasure.parityBlocks ≠ 0 ∧ 0 < fi.erasure.index ∧
      fi.erasure.index ≤ fi.erasure.dataBlocks + fi.erasure.parityBlocks ∧
      fi.erasure.distribution.length = fi.erasure.dataBlocks + fi.erasure.parityBlocks)

instance decidableIsValid (fi : FileInfo) : Decidable fi.IsValid := inferInstanceAs (Decidable (_ ∨ _))

/-! ### Storage classes -/

/-- `storageclass.Config`: the parity configured for each class, zero if there is none. -/
structure Config where
  standard : ℤ
  rrs : ℤ

def minParityDisks : ℤ := 2

def defaultRRSParity : ℤ := minParityDisks

def Config.getParityForSC (cfg : Config) (sc : GoString) : ℤ :=
  if trimSpace sc = lit "REDUCED_REDUNDANCY" then
    if cfg.rrs = 0 then defaultRRSParity else cfg.rrs
  else cfg.standard

/-- The check that a configuration has to pass. -/
def Config.validateParity (cfg : Config) (setDriveCount : ℕ) : Prop :=
  ¬ (0 < cfg.standard ∧ cfg.standard < minParityDisks) ∧ ¬ (0 < cfg.rrs ∧ cfg.rrs < minParityDisks) ∧
    cfg.standard ≤ setDriveCount / 2 ∧ cfg.rrs ≤ setDriveCount / 2 ∧
    ¬ (0 < cfg.standard ∧ 0 < cfg.rrs ∧ cfg.standard < cfg.rrs)

instance decidableValidateParity (cfg : Config) (n : ℕ) : Decidable (cfg.validateParity n) :=
  inferInstanceAs (Decidable (_ ∧ _))

/-- The parity that is in force for the metadata of an object. -/
def parityInForce (cfg : Config) (defaultParityCount : ℤ) (metadata : GoMap GoString GoString) : ℤ :=
  let parity := cfg.getParityForSC ((metadata.get (lit "x-amz-storage-class")).getD [])
  if parity ≤ 0 then defaultParityCount else parity

/-! ### Errors and times of the disks -/

def reduceReadQuorumErrs (order : List (Option Err) → List (Option Err)) (errs : List (Option Err))
    (readQuorum : ℕ) : Option Err :=
  let reduced := reduceErrs order errs objectOpIgnoredErrs
  if readQuorum ≤ reduced.1 then reduced.2 else some .erasureReadQuorum

/-- The modification time of each disk, the sentinel where it answered with an error. -/
def listObjectModtimes (partsMetadata : List FileInfo) (errs : List (Option Err)) : List ℤ :=
  List.zipWith (fun fi err => if err = none then fi.modTime else timeSentinel) partsMetadata errs

/-! ### The common time -/

/-- `nano` is within the limit of another key `k` of the map; the difference is an `int64`. -/
def isNear (group k nano : ℤ) : Bool :=
  let diff := wrap64 (k - nano)
  let diff := if diff < 0 then wrap64 (-diff) else diff
  decide (0 < group ∧ k ≠ nano ∧ diff < group)

/-- The loop over the map that counts the new time for the times near it. -/
def countNear (group nano : ℤ) (m : GoMap ℤ ℕ) : GoMap ℤ ℕ where
  entries := m.entries.map fun e => if isNear group e.1 nano then (e.1, e.2 + 1) else e
  nodup := by
    have hkeys : (m.entries.map fun e => if isNear group e.1 nano then (e.1, e.2 + 1) else e).map Prod.fst =
        m.entries.map Prod.fst := by
      rw [List.map_map]
      apply List.map_congr_left
      intro e _
      show (if isNear group e.1 nano then (e.1, e.2 + 1) else e).1 = e.1
      split <;> rfl
    rw [hkeys]
    exact m.nodup

def countTime (group : ℤ) (m : GoMap ℤ ℕ) (nano : ℤ) : GoMap ℤ ℕ :=
  (countNear group nano m).put nano (((countNear group nano m).get nano).getD 0 + 1)

/-- The times that are counted. -/
def nanos (times : List GoTime) : List ℤ := (times.filter (· ≠ timeSentinel)).map unixNano

/-- One round of the loop of `commonTime`, over what was seen most often so far and the time of it. -/
def seeTime (acc : ℕ × ℤ) (e : ℤ × ℕ) : ℕ × ℤ :=
  if e.2 < acc.1 then acc
  else if acc.1 < e.2 ∨ acc.2 < e.1 then (e.2, e.1)
  else acc

/-- The time and its count, with the order in which the map is iterated. -/
def commonTimeAndOccurence (order : IterOrder (ℤ × ℕ)) (times : List GoTime) (group : ℤ) : ℤ × ℕ :=
  let m := (nanos times).foldl (countTime group) GoMap.empty
  let r := (order.val m.entries).foldl seeTime (0, 0)
  (r.2, r.1)

def commonTime (order : IterOrder (ℤ × ℕ)) (modTimes : List GoTime) : GoTime :=
  (commonTimeAndOccurence order modTimes 0).1

/-! ### The latest entry -/

/-- The loop that looks for the latest entry: the last that votes, and how many do. -/
def seeEntry (modTime : ℤ) (acc : Option FileInfo × ℕ) (e : FileInfo × ℤ) : Option FileInfo × ℕ :=
  if e.1.IsValid ∧ e.2 = modTime then (some e.1, acc.2 + 1) else acc

/-- The orders of iteration of the two maps on the way. -/
structure Orders where
  errs : List (Option Err) → List (Option Err)
  times : IterOrder (ℤ × ℕ)

def getLatestFileInfo (o : Orders) (partsMetadata : List FileInfo) (errs : List (Option Err)) :
    Except Err FileInfo :=
  match reduceReadQuorumErrs o.errs errs (partsMetadata.length / 2) with
  | some err => .error err
  | none =>
    let modTimes := listObjectModtimes partsMetadata errs
    let modTime := commonTime o.times modTimes
    if modTime = zeroTime ∨ modTime = timeSentinel then .error .erasureReadQuorum
    else
      match (partsMetadata.zip modTimes).foldl (seeEntry modTime) (none, 0) with
      | (none, _) => .error .erasureReadQuorum
      | (some latest, count) =>
        if (count : ℤ) < latest.erasure.dataBlocks then .error .erasureReadQuorum else .ok latest

/-! ### The quorums -/

def objectQuorumFromMeta (cfg : Config) (o : Orders) (partsMetaData : List FileInfo)
    (errs : List (Option Err)) (defaultParityCount : ℤ) : Except Err (ℤ × ℤ) :=
  match getLatestFileInfo o partsMetaData errs with
  | .error err => .error err
  | .ok latest =>
    let parityBlocks := parityInForce cfg defaultParityCount latest.metadata
    let dataBlocks :=
      if latest.erasure.dataBlocks = 0 then partsMetaData.length - parityBlocks else latest.erasure.dataBlocks
    .ok (dataBlocks, if dataBlocks = parityBlocks then dataBlocks + 1 else dataBlocks)

/-- What `putObject` decides on: data and parity drives, and the quorum of the write. -/
structure Layout where
  dataDrives : ℤ
  parityDrives : ℤ
  writeQuorum : ℤ

/-- The part of `putObject` that lays out the object, on `drives` disks of which `offline` do not answer. -/
def putObjectLayout (cfg : Config) (defaultParityCount : ℤ) (maxParity : Bool)
    (userDefined : GoMap GoString GoString) (drives offline : ℕ) : Layout :=
  let half : ℤ := drives / 2
  let parityDrives :=
    if maxParity then half
    else
      -- each disk that is offline raises the parity by one
      let upgraded := parityInForce cfg defaultParityCount userDefined + offline
      if half ≤ upgraded then half else upgraded
  let dataDrives := drives - parityDrives
  ⟨dataDrives, parityDrives, if dataDrives = parityDrives then dataDrives + 1 else dataDrives⟩

/-! ### At a later access -/

theorem objectQuorumFromMeta_eq (cfg : Config) {o : Orders} {parts : List FileInfo}
    {errs : List (Option Err)} {latest : FileInfo} (defaultParityCount : ℤ)
    (hlatest : getLatestFileInfo o parts errs = .ok latest) (hdata : latest.erasure.dataBlocks ≠ 0) :
    objectQuorumFromMeta cfg o parts errs defaultParityCount = .ok (latest.erasure.dataBlocks,
      if latest.erasure.dataBlocks = parityInForce cfg defaultParityCount latest.metadata then
        latest.erasure.dataBlocks + 1 else latest.erasure.dataBlocks) := by
  unfold objectQuorumFromMeta
  simp only [hlatest, if_neg hdata]

/-- The arithmetic of the write quorum. -/
theorem intersect_iff {d p parity : ℤ} (hpd : p ≤ d) :
    (d ≤ d ∧ d + p < d + (if d = parity then d + 1 else d) ∧ d + p < 2 * (if d = parity then d + 1 else d)) ↔
      p < d ∨ parity = d := by
  split_ifs with heq
  · exact ⟨fun _ => Or.inr heq.symm, fun _ => ⟨le_refl d, by omega, by omega⟩⟩
  · exact ⟨fun h => Or.inl (by omega), fun h => ⟨le_refl d, by omega, by omega⟩⟩

/-- **When the quorums of a later access intersect.**  Unless the object has as many parity blocks as data
blocks, always; and then just if the parity in force at the access is the one it was written with. -/
theorem quorums_intersect_iff (cfg : Config) (o : Orders) (parts : List FileInfo) (errs : List (Option Err))
    (defaultParityCount : ℤ) (latest : FileInfo) (hlatest : getLatestFileInfo o parts errs = .ok latest)
    (hpos : 1 ≤ latest.erasure.parityBlocks) (hle : latest.erasure.parityBlocks ≤ latest.erasure.dataBlocks) :
    ∃ r w, objectQuorumFromMeta cfg o parts errs defaultParityCount = .ok (r, w) ∧
      ((latest.erasure.dataBlocks ≤ r ∧
          latest.erasure.dataBlocks + latest.erasure.parityBlocks < r + w ∧
          latest.erasure.dataBlocks + latest.erasure.parityBlocks < 2 * w) ↔
        latest.erasure.parityBlocks < latest.erasure.dataBlocks ∨
          parityInForce cfg defaultParityCount latest.metadata = latest.erasure.dataBlocks) :=
  ⟨_, _, objectQuorumFromMeta_eq cfg defaultParityCount hlatest (by omega), intersect_iff hle⟩

/-! ### Six disks -/

/-- The entry of one of six disks, of an object with as many data as parity blocks. -/
def sixth (disk : Fin 6) : FileInfo where
  deleted := false
  modTime := 1
  erasure := ⟨3, 3, disk.val + 1, [1, 2, 3, 4, 5, 6]⟩
  metadata := GoMap.empty

def sixDisks : List FileInfo := [sixth 0, sixth 1, sixth 2, sixth 3, sixth 4, sixth 5]

def allAnswer : List (Option Err) := [none, none, none, none, none, none]

def inOrder : Orders := ⟨id, ⟨id, fun l => List.Perm.refl l⟩⟩

theorem quorums_intersect_iff_unchanged :
    ∃ r w, objectQuorumFromMeta ⟨0, 0⟩ inOrder sixDisks allAnswer 3 = .ok (r, w) ∧
      (3 ≤ r ∧ (3 : ℤ) + 3 < r + w ∧ (3 : ℤ) + 3 < 2 * w) := by
  obtain ⟨r, w, hquorum, hiff⟩ := quorums_intersect_iff ⟨0, 0⟩ inOrder sixDisks allAnswer 3 (sixth 5) rfl
    (by decide) (by decide)
  exact ⟨r, w, hquorum, hiff.mpr (Or.inr (by decide))⟩

/-- **The quorums part.**  Six disks hold an object of three data and three parity blocks, as the default has
it.  Then `EC:2` is configured for the standard class: three disks answer a read and three others take a write. -/
theorem quorums_part :
    Config.validateParity ⟨2, 2⟩ 6 ∧
      (putObjectLayout ⟨0, 0⟩ 3 false GoMap.empty 6 0) = ⟨3, 3, 4⟩ ∧
      objectQuorumFromMeta ⟨2, 2⟩ inOrder sixDisks allAnswer 3 = .ok (3, 3) ∧
      ¬ ((3 : ℤ) + 3 < 3 + 3) ∧ ¬ ((3 : ℤ) + 3 < 2 * 3) :=
  ⟨by decide, rfl, rfl, by decide, by decide⟩

end Zs3Server.Cmd.ErasureQuorum
