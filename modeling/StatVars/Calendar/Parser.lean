import StatVars.Calendar.Instant
import StatVars.Number.Decimal
import StatVars.Text.Blank

/-!
# Reading dates

A date is read in three forms, in this order: with a time and an offset, all numbers having their
full width; with a time of universal time, where numbers may be shorter and have blanks before them;
and without a time.
-/

namespace StatVars.Instant

abbrev Reader := StateT (List Char) Option

namespace Reader

def charWhere (p : Char → Bool) : Reader Char := fun s =>
  match s with
  | [] => none
  | c :: s => if p c then some (c, s) else none

def char (c : Char) : Reader Unit :=
  discard (charWhere (· == c))

/-- Reads a number of so many digits at least; more than `max` are left. -/
def number (min max : Nat) : Reader Nat := fun s =>
  let digits := (s.takeWhile Char.isDigit).take max
  if digits.length < min then none
  else some (Decimal.digitsValue digits, s.drop digits.length)

/-- Reads a number of one or two digits behind blanks. -/
def field : Reader Nat := fun s =>
  number 1 2 (s.dropWhile Text.isBlank)

/-- Reads a year behind blanks: up to four digits, or a sign and any number of digits. -/
def year : Reader Int := fun s =>
  match s.dropWhile Text.isBlank with
  | '-' :: s => (number 1 s.length s).map fun (n, rest) => (-(n : Int), rest)
  | '+' :: s => (number 1 s.length s).map fun (n, rest) => ((n : Int), rest)
  | s => (number 1 4 s).map fun (n, rest) => ((n : Int), rest)

/-- Reads the nanoseconds behind a point, if there is one. Digits beyond the ninth do not count. -/
def nanos : Reader Nat := fun s =>
  match s with
  | '.' :: s =>
    let digits := (s.takeWhile Char.isDigit).take 9
    if digits.isEmpty then none
    else
      some (Decimal.digitsValue digits * Nat.pow 10 (9 - digits.length), s.dropWhile Char.isDigit)
  | s => some (0, s)

/-- Reads an offset in seconds to the east: `Z`, or a sign, hours and minutes. -/
def offset : Reader Int := do
  let sign ← charWhere fun c =>
    c == 'Z' || c == 'z' || c == '+' || c == '-' || c == '\u2212'
  if sign == 'Z' || sign == 'z' then return 0
  let hours ← number 2 2
  char ':'
  let minutes ← number 2 2
  if 23 < hours || 59 < minutes then failure
  let seconds : Int := hours * 3600 + minutes * 60
  return if sign == '+' then seconds else -seconds

def withOffset : Reader Instant := do
  let year ← number 4 4
  char '-'
  let month ← number 2 2
  char '-'
  let day ← number 2 2
  discard (charWhere fun c => c == 'T' || c == 't' || c == ' ')
  let hour ← number 2 2
  char ':'
  let minute ← number 2 2
  char ':'
  let second ← number 2 2
  let nanos ← nanos
  let offset ← offset
  let local' ← StateT.lift (ofClock ⟨year, month, day⟩ hour minute second nanos)
  return local'.atOffset offset

def date : Reader Date := do
  let year ← year
  char '-'
  let month ← field
  char '-'
  let day ← field
  return ⟨year, month, day⟩

def withTime : Reader Instant := do
  let date ← date
  char 'T'
  let hour ← field
  char ':'
  let minute ← field
  char ':'
  let second ← field
  let nanos ← nanos
  StateT.lift (ofClock date hour minute second nanos)

def dateAlone : Reader Instant := do
  let date ← date
  StateT.lift (ofClock date 0 0 0 0)

/-- What the reader makes of the whole text. -/
def all? (r : Reader Instant) (s : List Char) : Option Instant :=
  match r s with
  | some (t, []) => some t
  | _ => none

end Reader

def parse? (s : List Char) : Option Instant :=
  (Reader.withOffset.all? s).or ((Reader.withTime.all? s).or (Reader.dateAlone.all? s))

end StatVars.Instant
