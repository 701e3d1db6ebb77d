import Zs3Server.Lib.GoInt64

/-!
# Times

A `time.Time` of any year is an integer; its `UnixNano` is an `int64`, which wraps.

Nothing here depends on a program.
-/

namespace Zs3Server.Lib.GoTime

/-- A time, in nanoseconds from the Unix epoch. -/
abbrev GoTime := ℤ

def second : ℤ := 1000000000

def minute : ℤ := 60 * second

def hour : ℤ := 60 * minute

/-- The zero `time.Time`. -/
def zeroTime : GoTime := -62135596800 * second

def unixNano (t : GoTime) : ℤ := GoInt64.wrap64 t

end Zs3Server.Lib.GoTime
