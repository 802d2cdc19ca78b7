import StatVars.Calendar.Date

/-!
# Instants

An instant is a second of universal time and a part of it. A leap second is kept as a second part of
the second before it, so that the part is less than two seconds.
-/

namespace StatVars

/-- An instant: seconds since the start of 1970 without the leap seconds, and nanoseconds, of which
there are less than `2 * 10 ^ 9`. -/
structure Instant where
  seconds : Int
  nanos : Nat
deriving DecidableEq

namespace Instant

def perSecond : Nat := 1000000000

def perDay : Nat := 86400

/-- The instant of a date and a time of day. A second of 60 is a leap second. -/
def ofClock (date : Date) (hour minute second nanos : Nat) : Option Instant :=
  if date.isValid && hour ≤ 23 && minute ≤ 59 && second ≤ 60 then
    let start := date.toDays * perDay + hour * 3600 + minute * 60
    if second = 60 then some ⟨start + 59, perSecond + nanos⟩
    else some ⟨start + second, nanos⟩
  else none

/-- The instant whose clock shows the time of this one at so many seconds east. -/
def atOffset (t : Instant) (offset : Int) : Instant :=
  { t with seconds := t.seconds - offset }

/-- The instant from which so many seconds and nanoseconds of like sign are counted without regard
to leap seconds. There is none if the instant lies in a leap second, the seconds are zero and the
nanoseconds do not lead beyond its end. -/
def leaveLeapSecond (t : Instant) (seconds nanos : Int) : Option Instant :=
  let part : Int := t.nanos
  if t.nanos < perSecond then some t
  else if 0 < seconds || (0 < nanos && 2 * perSecond ≤ part + nanos) then
    some ⟨t.seconds, t.nanos - perSecond⟩
  else if seconds < 0 then some ⟨t.seconds + 1, t.nanos - perSecond⟩
  else none

/-- The instant so many milliseconds later, if its date is one. -/
def addMillis (t : Instant) (millis : Int) : Option Instant :=
  let seconds := millis.tdiv 1000
  let nanos := millis.tmod 1000 * 1000000
  let sum : Instant :=
    match leaveLeapSecond t seconds nanos with
    | none => ⟨t.seconds, (t.nanos + nanos).toNat⟩
    | some t =>
      let part := t.nanos + nanos
      ⟨t.seconds + seconds + part / perSecond, (part % perSecond).toNat⟩
  let date := Date.ofDays (sum.seconds / perDay)
  if Date.minYear ≤ date.year && date.year ≤ Date.maxYear then some sum else none

/-- The text of an instant: its date, its time with three digits of the second's part, and `Z`. -/
def toText (t : Instant) : String :=
  let ofDay := (t.seconds % perDay).toNat
  let second := ofDay % 60 + t.nanos / perSecond
  let millis := t.nanos % perSecond / 1000000
  (Date.ofDays (t.seconds / perDay)).toText ++ "T" ++ Date.padded 2 (ofDay / 3600) ++ ":" ++
    Date.padded 2 (ofDay / 60 % 60) ++ ":" ++ Date.padded 2 second ++ "." ++
    Date.padded 3 millis ++ "Z"

end Instant

end StatVars
