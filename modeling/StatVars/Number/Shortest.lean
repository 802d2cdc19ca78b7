import StatVars.Number.Decimal

/-!
# The text of a number

A double precision number is written with the fewest digits that are read back as the same number,
of the equally short ones those nearest to it. Digits are chosen by reading candidates back, so what
is written is always read as the number it was written for.
-/

namespace StatVars

namespace Finite

def digitCount (n : Nat) : Nat :=
  (Nat.toDigits 10 n).length

/-- The exponent `k` with `10 ^ (k - 1) ≤ |x| < 10 ^ k`, for `x` other than zero. -/
def decimalOrder (x : Finite) : Int :=
  digitCount (x.magnitude * Nat.pow 10 330 / scale) - 330

/-- The size of `x` as a fraction of whole numbers, in units of `10 ^ exponent`. -/
def inPowersOfTen (x : Finite) (exponent : Int) : Nat × Nat :=
  match exponent with
  | .ofNat n => (x.magnitude, scale * Nat.pow 10 n)
  | .negSucc n => (x.magnitude * Nat.pow 10 (n + 1), scale)

/-- Whether the decimal is read as `x`. -/
def isWrittenBy (x : Finite) (d : Decimal) : Bool :=
  d.toBinary64 == .finite x

/-- The multiple of `10 ^ exponent` that is read as `x` and nearest to it, if there is one. Of two
equally near ones it is the even one. -/
def onGrid? (x : Finite) (exponent : Int) : Option Decimal :=
  let (num, den) := x.inPowersOfTen exponent
  let near := roundDiv num den
  let below := num / den
  let far := if near = below then below + 1 else below
  [near, far].map (⟨x.negative, ·, exponent⟩) |>.find? x.isWrittenBy

def exactDecimal (x : Finite) : Decimal :=
  ⟨x.negative, x.magnitude * Nat.pow 5 1074, -1074⟩

/-- The decimal with the fewest digits that is read as `x`. -/
def shortest (x : Finite) : Decimal :=
  let order := x.decimalOrder
  ((List.range 17).findSome? fun (n : Nat) => x.onGrid? (order - (n + 1))).getD x.exactDecimal

/-- `x` rounded to so many significant decimal digits, a half to the even neighbour. As many digits
as the exact value has change nothing. -/
def roundTo (x : Finite) (digits : Nat) : Binary64 :=
  let exponent := x.decimalOrder - digits
  if x.isZero || digits == 0 || exponent ≤ -1074 then .finite x
  else
    let (num, den) := x.inPowersOfTen exponent
    Decimal.toBinary64 ⟨x.negative, roundDiv num den, exponent⟩

end Finite

namespace Decimal

/-- The digits without zeros at the end, and the exponent of the first of them. -/
def leading (d : Decimal) : List Char × Int :=
  let digits := Nat.toDigits 10 d.digits
  ((digits.reverse.dropWhile (· == '0')).reverse, d.exponent + digits.length - 1)

/-- Digits in positional notation, the first standing for units of `10 ^ exponent`. There is always
a digit on both sides of the point. -/
def positional (digits : List Char) (exponent : Int) : List Char :=
  match exponent with
  | .negSucc n => '0' :: '.' :: List.replicate n '0' ++ digits
  | .ofNat n =>
    let whole := digits.take (n + 1)
    let fraction := digits.drop (n + 1)
    whole ++ List.replicate (n + 1 - whole.length) '0' ++
      '.' :: (if fraction.isEmpty then ['0'] else fraction)

/-- Digits in scientific notation. The sign of the exponent is always written. -/
def scientific (digits : List Char) (exponent : Int) : List Char :=
  let fraction := digits.drop 1
  digits.take 1 ++ (if fraction.isEmpty then [] else '.' :: fraction) ++
    'e' :: (if exponent < 0 then '-' else '+') :: Nat.toDigits 10 exponent.natAbs

/-- The text of a decimal other than zero: positional from `10 ^ -5` to below `10 ^ 16`. -/
def toText (d : Decimal) : List Char :=
  let (digits, exponent) := d.leading
  (if d.negative then ['-'] else []) ++
    if -5 ≤ exponent ∧ exponent < 16 then positional digits exponent
    else scientific digits exponent

end Decimal

namespace Finite

def toText (x : Finite) : String :=
  .ofList <|
    if x.isZero then (if x.negative then "-0.0".toList else "0.0".toList)
    else x.shortest.toText

end Finite

namespace Binary64

def roundTo (x : Binary64) (digits : Nat) : Binary64 :=
  match x with
  | .finite x => x.roundTo digits
  | .infinite negative => .infinite negative
  | .nan => .nan

def toText : Binary64 → String
  | .finite x => x.toText
  | .infinite negative => if negative then "-inf" else "inf"
  | .nan => "NaN"

end Binary64

end StatVars
