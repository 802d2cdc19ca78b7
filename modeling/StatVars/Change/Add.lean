import StatVars.Calendar.Parser
import StatVars.Change.Insert

/-!
# Adding

`add` shifts a number by an amount or a date by milliseconds, and appends to an array.
-/

namespace StatVars

namespace Finite

/-- The nearest whole number, a half away from zero. -/
def nearestInt (x : Finite) : Int :=
  let size : Int := ((2 * x.magnitude + scale) / (2 * scale) : Nat)
  if x.negative then -size else size

end Finite

namespace Instant

/-- A number of milliseconds lies between the negative bound and below the bound, `2 ^ 63`. -/
def millisBound : Int := 9223372036854775808

/-- The instant shifted by the nearest whole number of milliseconds. Amounts beyond the bounds are
cut down to them, and the lower bound itself cannot be added. -/
def shift (t : Instant) (amount : Finite) : Option Instant :=
  let millis := amount.nearestInt
  if millis ≤ -millisBound then none
  else t.addMillis (min millis (millisBound - 1))

end Instant

namespace Change

/-- The sum of a number or a date and an amount. -/
def shifted (precision : Nat) (p : Path) (old : Json) (amount : Finite) :
    Except CommandError Json :=
  match old with
  | .num n =>
    let sum := n.toBinary64.add (.finite amount)
    (Literal.numberValue (sum.roundTo precision)).mapError .value
  | .str s =>
    match Instant.parse? s.toList with
    | some t =>
      match t.shift amount with
      | some t => .ok (.str t.toText)
      | none => .error (mismatch p "date out of range")
    | none => .error (mismatch p ("cannot add to " ++ typeName old))
  | _ => .error (mismatch p ("cannot add to " ++ typeName old))

/-- Adds an amount to the number or date at the path, or to that of a described value. -/
def shiftAt (precision : Nat) (p : Path) (current : Json) (amount : Finite) : Attempt Change :=
  match current.described? with
  | some old => do
    let new ← shifted precision p old amount
    overwrite p (current.setDescribed new)
    return ⟨p, some old, some new⟩
  | none => do
    let new ← shifted precision p current amount
    overwrite p new
    return ⟨p, some current, some new⟩

/-- The amount that `add` has without an argument. -/
def one : Json :=
  .ofNat 1

def deltaOf (c : Config) (args : List Command.Argument) : Except CommandError Literal :=
  match args.head? with
  | some arg => resolve c arg
  | none => .ok (.value one)

/-- Adds what `delta` is as a number. -/
def shiftBy (precision : Nat) (p : Path) (current : Json) (delta : Literal) : Attempt Change :=
  match delta.toValue?.bind Json.asNumber? with
  | some amount => shiftAt precision p current amount
  | none => throw (mismatch p "delta must be a number")

def add (c : Config) (p : Path) (args : List Command.Argument) : Attempt Change := do
  let delta ← deltaOf c args
  let current ← present p ((← get).data.get? p)
  match current, current.isDescribed with
  | .arr items, false =>
    if args.isEmpty then throw (mismatch p "add on an array needs a value to append")
    else
      match delta with
      | .value v => insertItem p items items.length v
      | .undefined => throw (mismatch p "undefined cannot be appended")
  | _, _ => shiftBy c.precision p current delta

end Change

end StatVars
