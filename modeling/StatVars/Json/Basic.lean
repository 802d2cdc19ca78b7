import StatVars.Json.Number
import StatVars.Table

/-!
# JSON values

The values of documents. The fields of an object keep their order. In a document no object has two
fields of one name; what is read from a text may have such fields until they are merged.
-/

namespace StatVars

/-- A JSON value. -/
inductive Json
  | null
  | bool (value : Bool)
  | num (value : Number)
  | str (value : String)
  | arr (items : List Json)
  | obj (fields : List (String × Json))

namespace Json

mutual

def decEq : (a b : Json) → Decidable (a = b)
  | .null, .null => isTrue rfl
  | .bool x, .bool y => decidable_of_iff (x = y) (by simp)
  | .num x, .num y => decidable_of_iff (x = y) (by simp)
  | .str x, .str y => decidable_of_iff (x = y) (by simp)
  | .arr xs, .arr ys =>
    have := decEqItems xs ys
    decidable_of_iff (xs = ys) (by simp)
  | .obj xs, .obj ys =>
    have := decEqFields xs ys
    decidable_of_iff (xs = ys) (by simp)
  | .null, .bool _ | .null, .num _ | .null, .str _ | .null, .arr _ | .null, .obj _
  | .bool _, .null | .bool _, .num _ | .bool _, .str _ | .bool _, .arr _ | .bool _, .obj _
  | .num _, .null | .num _, .bool _ | .num _, .str _ | .num _, .arr _ | .num _, .obj _
  | .str _, .null | .str _, .bool _ | .str _, .num _ | .str _, .arr _ | .str _, .obj _
  | .arr _, .null | .arr _, .bool _ | .arr _, .num _ | .arr _, .str _ | .arr _, .obj _
  | .obj _, .null | .obj _, .bool _ | .obj _, .num _ | .obj _, .str _ | .obj _, .arr _ =>
    isFalse (by simp)

def decEqItems : (xs ys : List Json) → Decidable (xs = ys)
  | [], [] => isTrue rfl
  | [], _ :: _ => isFalse (by simp)
  | _ :: _, [] => isFalse (by simp)
  | x :: xs, y :: ys =>
    have := decEq x y
    have := decEqItems xs ys
    decidable_of_iff (x = y ∧ xs = ys) (by simp)

def decEqFields : (xs ys : List (String × Json)) → Decidable (xs = ys)
  | [], [] => isTrue rfl
  | [], _ :: _ => isFalse (by simp)
  | _ :: _, [] => isFalse (by simp)
  | (k, x) :: xs, (l, y) :: ys =>
    have := decEq x y
    have := decEqFields xs ys
    decidable_of_iff ((k = l ∧ x = y) ∧ xs = ys) (by simp)

end

instance : DecidableEq Json := decEq

mutual

/-- Whether two values are equal as values: the order of fields does not count, and the zeros of
both signs are one. -/
def same : Json → Json → Bool
  | .null, .null => true
  | .bool x, .bool y => x == y
  | .num x, .num y => x.same y
  | .str x, .str y => x == y
  | .arr xs, .arr ys => sameItems xs ys
  | .obj xs, .obj ys => xs.length == ys.length && sameFields xs ys
  | _, _ => false

def sameItems : List Json → List Json → Bool
  | [], [] => true
  | x :: xs, y :: ys => same x y && sameItems xs ys
  | _, _ => false

/-- Whether every field of the first list has an equal one in the second. -/
def sameFields : List (String × Json) → List (String × Json) → Bool
  | [], _ => true
  | (k, x) :: xs, ys => (Table.get? ys k).any (same x) && sameFields xs ys

end

mutual

/-- The value with the repeated fields of its objects merged: the first place, the last value. -/
def mergeRepeated : Json → Json
  | .arr items => .arr (mergeItems items)
  | .obj fields => .obj (Table.ofEntries (mergeFields fields))
  | v => v

def mergeItems : List Json → List Json
  | [] => []
  | v :: vs => mergeRepeated v :: mergeItems vs

def mergeFields : List (String × Json) → List (String × Json)
  | [] => []
  | (k, v) :: fs => (k, mergeRepeated v) :: mergeFields fs

end

mutual

/-- How many containers enclose the innermost one, itself counted. -/
def depth : Json → Nat
  | .arr items => depthItems items + 1
  | .obj fields => depthFields fields + 1
  | _ => 0

def depthItems : List Json → Nat
  | [] => 0
  | v :: vs => max (depth v) (depthItems vs)

def depthFields : List (String × Json) → Nat
  | [] => 0
  | (_, v) :: fs => max (depth v) (depthFields fs)

end

def ofNat (n : Nat) : Json :=
  .num (.ofNat n)

/-- Whether the value is neither an array nor an object. -/
def isScalar : Json → Bool
  | .arr _ => false
  | .obj _ => false
  | _ => true

def asStr? : Json → Option String
  | .str s => some s
  | _ => none

def asBool? : Json → Option Bool
  | .bool b => some b
  | _ => none

def asArr? : Json → Option (List Json)
  | .arr items => some items
  | _ => none

def asObj? : Json → Option (List (String × Json))
  | .obj fields => some fields
  | _ => none

def asNat? : Json → Option Nat
  | .num (.int n _) => if 0 ≤ n then some n.toNat else none
  | _ => none

end Json

end StatVars
