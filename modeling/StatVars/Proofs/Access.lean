import StatVars.Path.Access
import StatVars.Path.Format

/-!
# Laws of access

How a value with a part replaced looks at the first step of the path to the part, and what the last
step of a path is.
-/

namespace StatVars

namespace Json

/-- A part of a container is replaced in its field or at its place. -/
theorem modifyChild?_eq_some {f : Json → Option Json} {v v' : Json} {s : Step}
    (h : modifyChild? f v s = some v') :
    (∃ fields c d, v = .obj fields ∧ Table.get? fields s.asKey = some c ∧ f c = some d ∧
      v' = .obj (Table.insert fields s.asKey d)) ∨
    ∃ items place c d, v = .arr items ∧ s.asIndex? = some place ∧ items[place]? = some c ∧
      f c = some d ∧ v' = .arr (items.set place d) := by
  cases v with
  | obj fields =>
    refine .inl ?_
    obtain ⟨t, ht, rfl⟩ := Option.map_eq_some_iff.1 h
    cases hc : Table.get? fields s.asKey with
    | none => rw [Table.modify?_of_get?_eq_none hc] at ht; cases ht
    | some c =>
      rw [Table.modify?_of_get? hc] at ht
      obtain ⟨d, hd, rfl⟩ := Option.map_eq_some_iff.1 ht
      exact ⟨fields, c, d, rfl, hc, hd, rfl⟩
  | arr items =>
    refine .inr ?_
    obtain ⟨place, hplace, h⟩ := Option.bind_eq_some_iff.1 h
    obtain ⟨c, hc, h⟩ := Option.bind_eq_some_iff.1 h
    obtain ⟨d, hd, h⟩ := Option.bind_eq_some_iff.1 h
    cases h
    exact ⟨items, place, c, d, rfl, hplace, hc, hd, rfl⟩
  | _ => cases h

/-- Only what the function makes of the part itself counts. -/
theorem modifyChild?_congr {f g : Json → Option Json} {v c : Json} {s : Step}
    (hc : v.child? s = some c) (hfg : f c = g c) : modifyChild? f v s = modifyChild? g v s := by
  cases v with
  | obj fields =>
    simp only [child?] at hc
    simp only [modifyChild?, Table.modify?_of_get? hc, hfg]
  | arr items =>
    obtain ⟨place, hplace, hc⟩ := Option.bind_eq_some_iff.1 hc
    simp only [modifyChild?, hplace, hc, Option.bind_eq_bind, Option.bind_some, hfg]
  | _ => rfl

theorem replace?_cons (v : Json) (s : Step) (p : Path) (w : Json) :
    v.replace? (s :: p) w = modifyChild? (·.replace? p w) v s := rfl

/-- A field of an object is replaced. -/
theorem replace?_field {fields : List (String × Json)} {s : Step} {c : Json}
    (hc : Table.get? fields s.asKey = some c) (p : Path) (x : Json) :
    (Json.obj fields).replace? (s :: p) x =
      (c.replace? p x).map fun d => .obj (Table.insert fields s.asKey d) := by
  rw [replace?_cons, modifyChild?, Table.modify?_of_get? hc, Option.map_map]
  rfl

/-- An item of an array is replaced. -/
theorem replace?_item {items : List Json} {s : Step} {place : Nat} {c : Json}
    (hs : s.asIndex? = some place) (hc : items[place]? = some c) (p : Path) (x : Json) :
    (Json.arr items).replace? (s :: p) x =
      (c.replace? p x).map fun d => .arr (items.set place d) := by
  simp only [replace?_cons, modifyChild?, hs, hc, Option.bind_eq_bind, Option.bind_some]
  cases c.replace? p x <;> rfl

/-- What has been written at a path is there. -/
theorem get?_of_replace? {v v' w : Json} {p : Path} (h : v.replace? p w = some v') :
    v'.get? p = some w := by
  induction p generalizing v v' with
  | nil =>
    cases h
    rfl
  | cons s p ih =>
    rw [replace?_cons] at h
    obtain ⟨fields, c, d, rfl, hc, hd, rfl⟩ | ⟨items, place, c, d, rfl, hs, hc, hd, rfl⟩ :=
      modifyChild?_eq_some h
    · rw [get?, child?, Table.get?_insert_self, Option.bind_some]
      exact ih hd
    · obtain ⟨hplace, -⟩ := List.getElem?_eq_some_iff.1 hc
      rw [get?, child?, hs, Option.bind_some, List.getElem?_set_self hplace, Option.bind_some]
      exact ih hd

end Json

theorem Path.splitLast?_eq_some {p parent : Path} {last : Step}
    (h : p.splitLast? = some (parent, last)) : p = parent ++ [last] := by
  obtain ⟨s, hs, h⟩ := Option.map_eq_some_iff.1 h
  obtain ⟨q, rfl⟩ := List.getLast?_eq_some_iff.1 hs
  simp only [List.dropLast_concat] at h
  cases h
  rfl

end StatVars
