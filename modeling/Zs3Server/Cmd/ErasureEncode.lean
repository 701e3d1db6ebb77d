import Mathlib

/-!
# The errors of a write to many disks

Every disk answers a write for itself, and the object layer returns one error for all of them: the one that
most disks agree on, leaving out those that are expected of a disk that is away.
-/

namespace Zs3Server.Cmd.ErasureEncode

/-- The errors of the readers and writers of shards, and those the code makes itself. -/
inductive Err
  | diskNotFound
  | faultyDisk
  | faultyRemoteDisk
  | diskAccessDenied
  | unformattedDisk
  | fileNotFound
  | fileCorrupt
  | shortWrite
  | erasureReadQuorum
  | erasureWriteQuorum
  | invalidArgument
  | lessData
  | tooFewShards
  | shortData
  | other (code : ℕ)
deriving Repr, DecidableEq

def baseIgnoredErrs : List Err := [.diskNotFound, .faultyDisk, .faultyRemoteDisk]

def objectOpIgnoredErrs : List Err := baseIgnoredErrs ++ [.diskAccessDenied, .unformattedDisk]

/-- The error that occurs most often, and how often.  `order` is the order in which the map of counts is
iterated. -/
def reduceErrs (order : List (Option Err) → List (Option Err)) (errs : List (Option Err))
    (ignoredErrs : List Err) : ℕ × Option Err :=
  let counted := errs.filter fun err => !(ignoredErrs.map some).contains err
  (order counted.dedup).foldl
    (fun acc err =>
      if acc.1 < counted.count err then (counted.count err, err)
      else if acc.1 = counted.count err ∧ err = none then (acc.1, none)
      else acc)
    (0, none)

end Zs3Server.Cmd.ErasureEncode
