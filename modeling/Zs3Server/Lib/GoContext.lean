import Zs3Server.Lib.ByteString

/-!
# Errors and cancel-cause contexts

An error is one of the two sentinels of the `context` package, which code compares by identity, or
any other error, of which code reads the text.  A context made by `WithCancelCause` is live or
carries the cause of its first cancellation; a later cancellation changes nothing, and a cancellation
with a nil cause records `context.Canceled`.

* `cancelCause` — cancel a context with a cause;
* `cancelCause_eq_canceled_iff` — when `context.Canceled` is the cause afterwards.
-/

namespace Zs3Server.Lib.GoContext

open Lib.ByteString

/-- A Go error value. -/
inductive GoError where
  | canceled
  | deadlineExceeded
  | other (text : GoString)
  deriving DecidableEq

/-- `err.Error()`. -/
def GoError.text : GoError → GoString
  | .canceled => lit "context canceled"
  | .deadlineExceeded => lit "context deadline exceeded"
  | .other text => text

/-- Cancel a context whose cause so far is `ctx` (`none`: it is live). -/
def cancelCause (ctx err : Option GoError) : Option GoError :=
  match ctx with
  | some cause => some cause
  | none => some (err.getD .canceled)

/-- The cause is `context.Canceled` if it was before, or if a live context is cancelled with a nil
error or with `context.Canceled` itself. -/
theorem cancelCause_eq_canceled_iff (ctx err : Option GoError) :
    cancelCause ctx err = some .canceled ↔
      ctx = some .canceled ∨ ctx = none ∧ (err = none ∨ err = some .canceled) := by
  cases ctx with
  | some cause => simp [cancelCause]
  | none => cases err <;> simp [cancelCause]

end Zs3Server.Lib.GoContext
