import StatVars.Number.Shortest

/-!
# Numbers of documents

A number of a document is an integer of at most 64 bits or a finite double precision number. The two
stay apart: `1` and `1.0` are different numbers.
-/

namespace StatVars

/-- An integer from `-2 ^ 63` to below `2 ^ 64`, or a finite double precision number. -/
inductive Number
  | int (value : Int) (fits : -9223372036854775808 ≤ value ∧ value < 18446744073709551616)
  | float (value : Finite)
deriving DecidableEq

namespace Number

/-- The integer as a number, if it has at most 64 bits. -/
def ofInt? (n : Int) : Option Number :=
  if h : -9223372036854775808 ≤ n ∧ n < 18446744073709551616 then some (.int n h) else none

/-- A count as a number. What has more than 64 bits becomes the greatest integer. -/
def ofNat (n : Nat) : Number :=
  if h : n < 18446744073709551616 then .int n (by omega)
  else .int 18446744073709551615 (by decide)

def toBinary64 : Number → Binary64
  | .int n _ => .ofInt n
  | .float x => .finite x

/-- The number that stores the result of a calculation: whole numbers below `2 ^ 53` in size become
integers, and what is not finite cannot be stored. -/
def ofBinary64? : Binary64 → Option Number
  | .finite x =>
    match x.toInt? with
    | some n =>
      if h : n.natAbs < 9007199254740992 then some (.int n (by omega)) else some (.float x)
    | none => some (.float x)
  | .infinite _ => none
  | .nan => none

/-- Whether two numbers are equal. An integer never equals a double precision number, and the zeros
of both signs are equal. -/
def same : Number → Number → Bool
  | .int m _, .int n _ => m == n
  | .float x, .float y => x.sameValue y
  | .int _ _, .float _ => false
  | .float _, .int _ _ => false

def toText : Number → String
  | .int n _ => toString n
  | .float x => x.toText

end Number

end StatVars
