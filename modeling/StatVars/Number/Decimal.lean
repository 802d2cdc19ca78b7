import StatVars.Number.Binary64

/-!
# Numbers written in decimal

A decimal is a sign, a whole number of digits and a power of ten. It stands for the double precision
number nearest to it.
-/

namespace StatVars

/-- The number `± digits * 10 ^ exponent`. -/
structure Decimal where
  negative : Bool
  digits : Nat
  exponent : Int
deriving DecidableEq

namespace Decimal

/-- The nearest double precision number. Powers of ten that put every number beyond the largest or
below half of the smallest one are not computed. -/
def toBinary64 (d : Decimal) : Binary64 :=
  if d.digits = 0 then .finite (.zero d.negative)
  else
    match d.exponent with
    | .ofNat n =>
      if 309 < n then .infinite d.negative
      else .ofRatio d.negative (d.digits * Nat.pow 10 n * Finite.scale) 1
    | .negSucc n =>
      if d.digits.log2 + 1080 < 3 * (n + 1) then .finite (.zero d.negative)
      else .ofRatio d.negative (d.digits * Finite.scale) (Nat.pow 10 (n + 1))

/-- The number that a run of digits writes. -/
def digitsValue (digits : List Char) : Nat :=
  digits.foldl (fun n c => 10 * n + (c.toNat - '0'.toNat)) 0

/-- Whether the text starts with a minus sign, and what follows a sign. -/
def takeSign : List Char → Bool × List Char
  | '-' :: s => (true, s)
  | '+' :: s => (false, s)
  | s => (false, s)

/-- The exponent at the start of the text and what follows it. A letter without digits behind it is
no exponent. -/
def takeExponent (s : List Char) : Int × List Char :=
  match s with
  | [] => (0, [])
  | c :: t =>
    if c == 'e' || c == 'E' then
      let (negative, u) := takeSign t
      let digits := u.takeWhile Char.isDigit
      if digits.isEmpty then (0, s)
      else
        let value : Int := digitsValue digits
        (if negative then -value else value, u.dropWhile Char.isDigit)
    else (0, s)

/-- The digits behind a point at the start of the text and what follows them. -/
def takeFraction : List Char → List Char × List Char
  | '.' :: s => (s.takeWhile Char.isDigit, s.dropWhile Char.isDigit)
  | s => ([], s)

/-- The decimal with these digits before and behind the point. -/
def ofParts (negative : Bool) (whole fraction : List Char) (exponent : Int) : Decimal :=
  ⟨negative, digitsValue (whole ++ fraction), exponent - fraction.length⟩

/-- The unsigned numeral at the start of the text and what follows it: digits on at least one side
of an optional point, then perhaps an exponent. -/
def takeUnsigned? (negative : Bool) (s : List Char) : Option (Decimal × List Char) :=
  let whole := s.takeWhile Char.isDigit
  let (fraction, rest) := takeFraction (s.dropWhile Char.isDigit)
  if whole.isEmpty && fraction.isEmpty then none
  else
    let (exponent, rest) := takeExponent rest
    some (ofParts negative whole fraction exponent, rest)

/-- The numeral at the start of the text and what follows it. It may have a sign, and its first
character otherwise is a digit. -/
def takeNumeral? (s : List Char) : Option (Decimal × List Char) :=
  let (negative, t) := takeSign s
  if t.head?.any Char.isDigit then takeUnsigned? negative t else none

def ofNumeral? (s : List Char) : Option Decimal :=
  match takeNumeral? s with
  | some (d, []) => some d
  | _ => none

end Decimal

namespace Binary64

/-- Reads a number with an optional sign: a numeral that may start with the point, or one of the
words for the infinite and for no number, in any case. -/
def parse? (s : List Char) : Option Binary64 :=
  let (negative, t) := Decimal.takeSign s
  let word := String.ofList (t.map Char.toLower)
  if word == "inf" || word == "infinity" then some (.infinite negative)
  else if word == "nan" then some .nan
  else
    match Decimal.takeUnsigned? negative t with
    | some (d, []) => some d.toBinary64
    | _ => none

end Binary64

end StatVars
