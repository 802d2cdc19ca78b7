/-!
# Sets of characters as ranges

A property of characters is stored as the ascending list of the ranges of code points that have it.
-/

namespace StatVars.Text

/-- Whether a code point of `c`'s lies in one of the ranges, both ends included. -/
def inRanges (ranges : List (Nat × Nat)) (c : Char) : Bool :=
  ranges.any fun r => r.1 ≤ c.toNat && c.toNat ≤ r.2

end StatVars.Text
