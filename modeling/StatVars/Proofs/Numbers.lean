import StatVars.Proofs.Regular

/-!
# The numbers in a value

What happens to each number by itself leaves a value as it is just if it leaves each number in the
value as it is, and it changes neither the keys nor the depth of a value.
-/

namespace StatVars.Json

mutual

/-- The numbers in the value, in their order. -/
def numbers : Json → List Number
  | .num n => [n]
  | .arr items => itemNumbers items
  | .obj fields => fieldNumbers fields
  | _ => []

def itemNumbers : List Json → List Number
  | [] => []
  | v :: vs => numbers v ++ itemNumbers vs

def fieldNumbers : List (String × Json) → List Number
  | [] => []
  | (_, v) :: fs => numbers v ++ fieldNumbers fs

end

mutual

/-- The value with the function applied to its numbers. -/
def mapNumbers (f : Number → Number) : Json → Json
  | .num n => .num (f n)
  | .arr items => .arr (mapItems f items)
  | .obj fields => .obj (mapFields f fields)
  | v => v

def mapItems (f : Number → Number) : List Json → List Json
  | [] => []
  | v :: vs => mapNumbers f v :: mapItems f vs

def mapFields (f : Number → Number) : List (String × Json) → List (String × Json)
  | [] => []
  | (k, v) :: fs => (k, mapNumbers f v) :: mapFields f fs

end

variable {P : Number → Prop} {f : Number → Number} {v : Json} {items : List Json}
  {fields : List (String × Json)}

/-! ## Parts -/

theorem mem_itemNumbers {n : Number} : n ∈ itemNumbers items ↔ ∃ v ∈ items, n ∈ v.numbers := by
  induction items with
  | nil => simp [itemNumbers]
  | cons v items ih => simp [itemNumbers, ih]

theorem mem_fieldNumbers {n : Number} :
    n ∈ fieldNumbers fields ↔ ∃ e ∈ fields, n ∈ e.2.numbers := by
  induction fields with
  | nil => simp [fieldNumbers]
  | cons e fields ih => simp [fieldNumbers, ih]

theorem keys_mapFields (f : Number → Number) (fields : List (String × Json)) :
    Table.keys (mapFields f fields) = Table.keys fields := by
  induction fields with
  | nil => rfl
  | cons e fields ih => exact congrArg (e.1 :: ·) ih

theorem mapItems_eq_map (f : Number → Number) (items : List Json) :
    mapItems f items = items.map (mapNumbers f) := by
  induction items with
  | nil => rfl
  | cons v items ih => rw [mapItems, ih, List.map_cons]

theorem mapFields_eq_map (f : Number → Number) (fields : List (String × Json)) :
    mapFields f fields = fields.map (Prod.map id (mapNumbers f)) := by
  induction fields with
  | nil => rfl
  | cons e fields ih => rw [mapFields, ih, List.map_cons, Prod.map, id]

theorem mapFields_append (f : Number → Number) (fields rest : List (String × Json)) :
    mapFields f (fields ++ rest) = mapFields f fields ++ mapFields f rest := by
  simp only [mapFields_eq_map, List.map_append]

theorem mapFields_ofEntries (f : Number → Number) (fields : List (String × Json)) :
    mapFields f (Table.ofEntries fields) = Table.ofEntries (mapFields f fields) := by
  rw [mapFields_eq_map, mapFields_eq_map, Table.ofEntries_map]

/-! ## Values -/

mutual

theorem depth_mapNumbers (f : Number → Number) (v : Json) : (v.mapNumbers f).depth = v.depth := by
  cases v with
  | arr items => exact congrArg (· + 1) (depthItems_mapItems f items)
  | obj fields => exact congrArg (· + 1) (depthFields_mapFields f fields)
  | _ => rfl

theorem depthItems_mapItems (f : Number → Number) (items : List Json) :
    depthItems (mapItems f items) = depthItems items := by
  match items with
  | [] => rfl
  | v :: items =>
    rw [mapItems, depthItems, depthItems, depth_mapNumbers f v, depthItems_mapItems f items]

theorem depthFields_mapFields (f : Number → Number) (fields : List (String × Json)) :
    depthFields (mapFields f fields) = depthFields fields := by
  match fields with
  | [] => rfl
  | (k, v) :: fields =>
    rw [mapFields, depthFields, depthFields, depth_mapNumbers f v, depthFields_mapFields f fields]

end

mutual

/-- **A value stays as it is just if its numbers do.** -/
theorem mapNumbers_eq_self (f : Number → Number) (v : Json) :
    v.mapNumbers f = v ↔ ∀ n ∈ v.numbers, f n = n := by
  cases v with
  | num n => simp [mapNumbers, numbers]
  | arr items =>
    rw [mapNumbers, Json.arr.injEq, mapItems_eq_self f items]
    rfl
  | obj fields =>
    rw [mapNumbers, Json.obj.injEq, mapFields_eq_self f fields]
    rfl
  | null | bool | str => simp [mapNumbers, numbers]

theorem mapItems_eq_self (f : Number → Number) (items : List Json) :
    mapItems f items = items ↔ ∀ n ∈ itemNumbers items, f n = n := by
  match items with
  | [] => simp [mapItems, itemNumbers]
  | v :: items =>
    rw [mapItems, List.cons.injEq, mapNumbers_eq_self f v, mapItems_eq_self f items, itemNumbers,
      List.forall_mem_append]

theorem mapFields_eq_self (f : Number → Number) (fields : List (String × Json)) :
    mapFields f fields = fields ↔ ∀ n ∈ fieldNumbers fields, f n = n := by
  match fields with
  | [] => simp [mapFields, fieldNumbers]
  | (k, v) :: fields =>
    rw [mapFields, List.cons.injEq, Prod.mk.injEq, mapNumbers_eq_self f v,
      mapFields_eq_self f fields, fieldNumbers, List.forall_mem_append]
    simp only [true_and]

end

/-- The numbers of a regular value are of the kind. -/
theorem Regular.numbers (h : v.Regular P) : ∀ n ∈ v.numbers, P n := by
  induction h with
  | @scalar v hv hnum =>
    cases v with
    | num n => simpa [Json.numbers] using hnum n rfl
    | arr | obj => cases hv
    | _ => exact List.forall_mem_nil _
  | arr _ ih =>
    intro n hn
    obtain ⟨v, hv, hn⟩ := mem_itemNumbers.1 hn
    exact ih v hv n hn
  | obj _ _ ih =>
    intro n hn
    obtain ⟨e, he, hn⟩ := mem_fieldNumbers.1 hn
    exact ih e he n hn

theorem Regular.mapNumbers (h : v.Regular P) (f : Number → Number) :
    (v.mapNumbers f).Regular fun _ => True := by
  induction h with
  | @scalar v hv =>
    cases v with
    | arr | obj => cases hv
    | _ => exact .scalar rfl fun _ _ => trivial
  | arr _ ih =>
    rw [Json.mapNumbers, mapItems_eq_map]
    exact .arr (List.forall_mem_map.2 ih)
  | obj hkeys _ ih =>
    rw [Json.mapNumbers]
    refine .obj ?_ ?_
    · rwa [keys_mapFields]
    · rw [mapFields_eq_map]
      exact List.forall_mem_map.2 ih

end StatVars.Json
