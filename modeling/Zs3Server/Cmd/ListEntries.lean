import Zs3Server.Lib.GoPath
import Zs3Server.Lib.GoSort

/-!
# The entries of a directory

`filterListEntries` sorts the names in a directory, with the separator at the end of those of directories.
For those that are leaves it is removed, at once or when the entries are sent.

* `delayIsLeafCheck` — whether it can wait;
* `filterListEntries` — the entries, and whether it has to.
-/

namespace Zs3Server.Cmd.TreeWalk

open Lib.ByteString Lib.GoPath Lib.GoSort

def globalDirSuffix : GoString := lit "__XLDIR__"

def globalDirSuffixWithSlash : GoString := globalDirSuffix ++ [slash]

def hasSuffix (s suffix : GoString) : Bool := suffix.isSuffixOf s

/-- `path.Join` with the separator at the end kept. -/
def pathJoin (dir entry : GoString) : GoString :=
  join [dir, entry] ++ if hasSuffix entry [slash] then [slash] else []

def filterMatchingPrefix (entries : List GoString) (prefixEntry : GoString) : List GoString :=
  if entries.isEmpty || prefixEntry.isEmpty then entries
  else entries.filter fun s => prefixEntry.isPrefixOf s

/-- A byte of an entry before the separator stands where the next entry has the separator. -/
def slashAfterSmaller (entry next : GoString) : Bool :=
  (entry.zip next).any fun b => decide (b.1 < slash) && b.2 == slash

def delayIsLeafCheck : List GoString → Bool
  | [] => true
  | [entry] => !hasSuffix entry globalDirSuffixWithSlash
  | entry :: next :: rest =>
    if hasSuffix entry globalDirSuffixWithSlash then false
    else if slashAfterSmaller entry next then false
    else delayIsLeafCheck (next :: rest)

/-- An entry with the internal suffix is compared as if it had a separator in its place. -/
def sortKey (suffix entry : GoString) : GoString :=
  if hasSuffix entry suffix then trimSuffix entry suffix ++ [slash] else entry

/-- The comparison of the first sort. -/
def lessListed (a b : GoString) : Bool :=
  if !hasSuffix a globalDirSuffixWithSlash && !hasSuffix b globalDirSuffixWithSlash then decide (a < b)
  else decide (sortKey globalDirSuffixWithSlash a < sortKey globalDirSuffixWithSlash b)

/-- The comparison of the second sort. -/
def lessTrimmed (a b : GoString) : Bool :=
  if !hasSuffix a globalDirSuffix && !hasSuffix b globalDirSuffix then decide (a < b)
  else if sortKey globalDirSuffix a = sortKey globalDirSuffix b then hasSuffix a globalDirSuffix
  else decide (sortKey globalDirSuffix a < sortKey globalDirSuffix b)

def filterListEntries (S : SliceSort GoString) (isLeaf : GoString → Bool) (prefixDir : GoString)
    (entries : List GoString) (prefixEntry : GoString) : List GoString × Bool :=
  let entries := S.sort lessListed (filterMatchingPrefix entries prefixEntry)
  if delayIsLeafCheck entries then (entries, true)
  else
    let trimmed := entries.map fun entry =>
      if isLeaf (pathJoin prefixDir entry) then trimSuffix entry [slash] else entry
    (S.sort lessTrimmed trimmed, false)

theorem filterMatchingPrefix_eq (entries : List GoString) (m : GoString) :
    filterMatchingPrefix entries m = entries.filter fun s => m.isPrefixOf s := by
  rw [filterMatchingPrefix]
  split
  · next h =>
    symm
    rw [List.filter_eq_self]
    intro s hs
    rcases Bool.or_eq_true_iff.mp h with hnil | hnil
    · rw [List.isEmpty_iff.mp hnil] at hs
      cases hs
    · rw [List.isEmpty_iff.mp hnil]
      rfl
  · rfl

end Zs3Server.Cmd.TreeWalk
