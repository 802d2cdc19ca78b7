/-!
# Double precision numbers

A finite double precision number is held exactly, as a whole number of units of `2 ^ -1074`, and
every operation is done on the exact values and rounded once: to the nearest number there is, of
two equally near the one with the even mantissa. A mantissa has 53 bits, so it is below
`2 ^ 53 = 9007199254740992`. What is too large for that becomes an infinity.
-/

namespace StatVars

/-- A finite number `± mant * 2 ^ shift`, in units of `2 ^ -1074`. The mantissa is as large as it
can be for its value, so equal values other than zero have equal fields. -/
structure Finite where
  negative : Bool
  mant : Nat
  shift : Nat
  mant_lt : mant < 9007199254740992
  shift_le : shift ≤ 2045
  normal : 4503599627370496 ≤ mant ∨ shift = 0
deriving DecidableEq

/-- The result of an operation on numbers. -/
inductive Binary64
  | finite (value : Finite)
  | infinite (negative : Bool)
  | nan
deriving DecidableEq

/-- The quotient rounded to the nearest whole number, a half to the even neighbour. -/
def roundDiv (num den : Nat) : Nat :=
  let q := num / den
  let r := num % den
  if 2 * r < den then q else if den < 2 * r then q + 1 else if q % 2 = 0 then q else q + 1

theorem roundDiv_ge (num den : Nat) : num / den ≤ roundDiv num den := by
  simp only [roundDiv]; split <;> (try split) <;> (try split) <;> omega

theorem roundDiv_le (num den : Nat) : roundDiv num den ≤ num / den + 1 := by
  simp only [roundDiv]; split <;> (try split) <;> (try split) <;> omega

theorem roundDiv_of_dvd {num den q : Nat} (hd : 0 < den) (h : num = q * den) :
    roundDiv num den = q := by
  subst h; simp [roundDiv, hd]

namespace Finite

/-- Units of `2 ^ -1074` in one. -/
def scale : Nat := 1 <<< 1074

def zero (negative : Bool) : Finite :=
  ⟨negative, 0, 0, by decide, by decide, .inr rfl⟩

def magnitude (x : Finite) : Nat :=
  x.mant <<< x.shift

/-- The value of the number, in units. -/
def units (x : Finite) : Int :=
  if x.negative then -(x.magnitude : Int) else x.magnitude

def isZero (x : Finite) : Bool :=
  x.mant == 0

/-- Whether two numbers have one value; the zeros of both signs have. -/
def sameValue (x y : Finite) : Bool :=
  x.units == y.units

def neg (x : Finite) : Finite :=
  { x with negative := !x.negative }

/-- The value as a whole number, if it is one. -/
def toInt? (x : Finite) : Option Int :=
  if x.units % scale = 0 then some (x.units / scale) else none

end Finite

namespace Binary64

def toFinite? : Binary64 → Option Finite
  | .finite x => some x
  | .infinite _ => none
  | .nan => none

/-- Doublings by which the quotient of `num` by `den` exceeds 53 bits. -/
def excess (num den : Nat) : Nat :=
  (num / den).log2 - 52

theorem le_roundDiv_excess (num den : Nat) :
    4503599627370496 ≤ roundDiv num (den <<< excess num den) ∨ excess num den = 0 := by
  by_cases h : excess num den = 0
  · exact .inr h
  left
  refine Nat.le_trans (m := 2 ^ 52) (by decide) ?_
  refine Nat.le_trans ?_ (roundDiv_ge _ _)
  rw [Nat.shiftLeft_eq, ← Nat.div_div_eq_div_mul, Nat.le_div_iff_mul_le (Nat.two_pow_pos _),
    ← Nat.pow_add]
  have hne : num / den ≠ 0 := by
    intro h0; apply h; simp [excess, h0]
  refine Nat.le_trans (Nat.pow_le_pow_right (by decide) ?_) (Nat.log2_self_le hne)
  unfold excess at h ⊢; omega

/-- The number nearest to `mant * 2 ^ shift` units for a mantissa that may just have outgrown its
53 bits. -/
def pack (negative : Bool) (mant shift : Nat) (hge : 4503599627370496 ≤ mant ∨ shift = 0) :
    Binary64 :=
  if hlt : mant < 9007199254740992 then
    if hs : shift ≤ 2045 then .finite ⟨negative, mant, shift, hlt, hs, hge⟩
    else .infinite negative
  else
    if hs : shift + 1 ≤ 2045 then
      .finite ⟨negative, 4503599627370496, shift + 1, by decide, hs, .inl (Nat.le_refl _)⟩
    else .infinite negative

/-- The number nearest to the quotient of `num` by `den`, in units. -/
def ofRatio (negative : Bool) (num den : Nat) : Binary64 :=
  pack negative (roundDiv num (den <<< excess num den)) (excess num den)
    (le_roundDiv_excess num den)

def ofInt (n : Int) : Binary64 :=
  ofRatio (n < 0) (n.natAbs * Finite.scale) 1

end Binary64

namespace Finite

/-- The sum. A sum of zero is positive unless both numbers are negative zeros. -/
def add (x y : Finite) : Binary64 :=
  let sum := x.units + y.units
  if sum = 0 then .finite (zero (x.negative && y.negative))
  else .ofRatio (sum < 0) sum.natAbs 1

def mul (x y : Finite) : Binary64 :=
  .ofRatio (x.negative != y.negative) (x.magnitude * y.magnitude) scale

/-- The quotient. By zero it is an infinity, or no number if zero itself is divided. -/
def div (x y : Finite) : Binary64 :=
  if y.isZero then
    if x.isZero then .nan else .infinite (x.negative != y.negative)
  else .ofRatio (x.negative != y.negative) (x.magnitude * scale) y.magnitude

end Finite

namespace Binary64

def isZero : Binary64 → Bool
  | .finite x => x.isZero
  | .infinite _ => false
  | .nan => false

def neg : Binary64 → Binary64
  | .finite x => .finite x.neg
  | .infinite negative => .infinite !negative
  | .nan => .nan

/-- The sum. Infinities of unlike sign have none. -/
def add : Binary64 → Binary64 → Binary64
  | .finite x, .finite y => x.add y
  | .infinite a, .infinite b => if a == b then .infinite a else .nan
  | .infinite a, .finite _ => .infinite a
  | .finite _, .infinite b => .infinite b
  | .nan, _ => .nan
  | _, .nan => .nan

def sub (x y : Binary64) : Binary64 :=
  x.add y.neg

/-- The product. Zero times an infinity has none. -/
def mul : Binary64 → Binary64 → Binary64
  | .finite x, .finite y => x.mul y
  | .infinite a, .infinite b => .infinite (a != b)
  | .infinite a, .finite y => if y.isZero then .nan else .infinite (a != y.negative)
  | .finite x, .infinite b => if x.isZero then .nan else .infinite (x.negative != b)
  | .nan, _ => .nan
  | _, .nan => .nan

/-- The quotient. Infinities among themselves have none. -/
def div : Binary64 → Binary64 → Binary64
  | .finite x, .finite y => x.div y
  | .infinite _, .infinite _ => .nan
  | .infinite a, .finite y => .infinite (a != y.negative)
  | .finite x, .infinite b => .finite (.zero (x.negative != b))
  | .nan, _ => .nan
  | _, .nan => .nan

end Binary64

end StatVars
