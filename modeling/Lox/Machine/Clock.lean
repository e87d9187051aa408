/-!
# The clock

What a program reads when it asks for the time. The clock is not the program's: what it shows at
each reading may be anything, as a clock may stand still, be set back or show a time before the
epoch. Time is counted from the epoch on, so a time before it cannot be told.
-/

namespace Lox

/-- A clock, with what it shows at each reading. If nothing else is said, it stands still at the
epoch. -/
structure Clock where
  /-- The nanoseconds from the epoch to the time of each reading; before the epoch, they are
  negative. -/
  times : Nat → Int := fun _ => 0
  /-- How often it was read. -/
  readings : Nat := 0

namespace Clock

/-- A time in seconds since the epoch, if it does not lie before it. -/
def seconds? (nanoseconds : Int) : Option Float :=
  if nanoseconds < 0 then none
  else
    let whole := nanoseconds.toNat / 1000000000
    let rest := nanoseconds.toNat % 1000000000
    some (Float.ofNat whole + Float.ofNat rest / 1e9)

/-- Reads the clock: the seconds since the epoch, unless the time lies before it. -/
def read (c : Clock) : Option Float × Clock :=
  (seconds? (c.times c.readings), { c with readings := c.readings + 1 })

/-- A clock that shows one time at its first reading and a moment more at each later one. -/
def ticking (first moment : Int) : Clock :=
  { times := fun n => first + n * moment }

end Clock

end Lox
