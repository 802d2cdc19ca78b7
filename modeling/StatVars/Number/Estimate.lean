import StatVars.Number.Decimal

/-!
# Decimals calculated in double precision

The number nearest to a decimal takes long numbers to find. A shorter way is to take as many digits
as fit 64 bits for a whole number and to multiply it by a power of ten, or to divide it by one, in
double precision. Every step of this rounds, so what comes of it may be a neighbour of the nearest
number.
-/

namespace StatVars.Decimal

/-- Puts digits behind a number as long as it has at most 64 bits, and the digits that are left. -/
def appendDigits (n : Nat) : List Char → Nat × List Char
  | [] => (n, [])
  | c :: s =>
    let m := 10 * n + (c.toNat - '0'.toNat)
    if m < 18446744073709551616 then appendDigits m s else (n, c :: s)

def powerOfTen (n : Nat) : Binary64 :=
  toBinary64 ⟨false, 1, n⟩

/-- Divides by `1e308` so many times, or until nothing is left. -/
def shrink : (times : Nat) → Binary64 → Binary64
  | 0, x => x
  | times + 1, x => if x.isZero then x else shrink times (x.div (powerOfTen 308))

/-- The number times a power of ten. There is no power beyond `1e308`. -/
def timesPower (x : Binary64) : (exponent : Int) → Binary64
  | .ofNat n =>
    if n ≤ 308 then x.mul (powerOfTen n) else if x.isZero then x else .infinite false
  | .negSucc n => (shrink (n / 308) x).div (powerOfTen (n % 308 + 1))

/-- What is calculated for the decimal with these digits before and behind the point. A digit before
the point that does not fit counts for a power of ten, and one behind it for nothing. -/
def estimate (negative : Bool) (whole fraction : List Char) (exponent : Int) : Binary64 :=
  let (n, rest) := appendDigits 0 whole
  let (m, left) := appendDigits n fraction
  let x := timesPower (.ofInt m) (exponent + rest.length + left.length - fraction.length)
  if negative then x.neg else x

/-- The whole number for `1.4000000000000001` has 54 bits and is rounded before it is divided, so
what comes of it is `1.4`. -/
example : estimate false ['1'] "4000000000000001".toList 0 = toBinary64 ⟨false, 14, -1⟩ := by
  decide +kernel

end StatVars.Decimal
