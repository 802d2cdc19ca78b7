import StatVars.Proofs.Hereditary

/-!
# Names that a document avoids

A value avoids a name if no object in it has a field of that name. This is a hereditary property, so
every way to change a document keeps it if what is written has it. A document that avoids `$meta`
has no annotations: nothing is removed from it, and its schema keeps the rules that it has. Main
statement: `Command.Does.avoids`, a command that does not bring in the name leaves a document
without it.
-/

namespace StatVars

namespace Json

/-- No object in the value has a field of this name. -/
inductive Avoids (k : String) : Json → Prop
  | scalar {v} (hv : v.isScalar) : Avoids k v
  | arr {items} (h : ∀ v ∈ items, Avoids k v) : Avoids k (.arr items)
  | obj {fields} (hk : ∀ f ∈ fields, f.1 ≠ k) (h : ∀ f ∈ fields, Avoids k f.2) :
      Avoids k (.obj fields)

variable {k : String} {v w c : Json} {s : Step} {p : Path} {items : List Json}
  {fields : List (String × Json)}

theorem avoids_arr : (Json.arr items).Avoids k ↔ ∀ v ∈ items, v.Avoids k := by
  refine ⟨fun h => ?_, .arr⟩
  cases h with
  | scalar hv => cases hv
  | arr h => exact h

theorem avoids_obj : (Json.obj fields).Avoids k ↔ ∀ f ∈ fields, f.1 ≠ k ∧ f.2.Avoids k := by
  refine ⟨fun h f hf => ?_, fun h => .obj (fun f hf => (h f hf).1) fun f hf => (h f hf).2⟩
  cases h with
  | scalar hv => cases hv
  | obj hk h => exact ⟨hk f hf, h f hf⟩

theorem hereditary_avoids (k : String) : Hereditary (· ≠ k) (Avoids k) where
  scalar := .scalar
  arr := avoids_arr
  empty := .obj nofun nofun
  field := avoids_obj.1
  insert h hk hw := by
    refine avoids_obj.2 fun f hf => ?_
    rcases Table.mem_insert hf with hf | rfl
    · exact avoids_obj.1 h f hf
    · exact ⟨hk, hw⟩
  erase _ h := avoids_obj.2 fun f hf => avoids_obj.1 h f (List.mem_filter.1 hf).1

theorem Avoids.field (h : (Json.obj fields).Avoids k) {k' : String}
    (hc : Table.get? fields k' = some c) : k' ≠ k ∧ c.Avoids k :=
  (hereditary_avoids k).get h hc

theorem Avoids.get?_self (h : (Json.obj fields).Avoids k) : Table.get? fields k = none := by
  cases hk : Table.get? fields k with
  | none => rfl
  | some c => exact absurd rfl (h.field hk).1

theorem Avoids.insert (h : (Json.obj fields).Avoids k) {k' : String} (hk : k' ≠ k)
    (hw : w.Avoids k) : (Json.obj (Table.insert fields k' w)).Avoids k :=
  (hereditary_avoids k).insert h hk hw

theorem Avoids.cons (hw : w.Avoids k) (h : (Json.arr items).Avoids k) :
    (Json.arr (w :: items)).Avoids k :=
  (hereditary_avoids k).cons hw h

theorem Avoids.child? (h : v.Avoids k) (hc : v.child? s = some c) : c.Avoids k :=
  (hereditary_avoids k).child? h hc

theorem Avoids.get? (h : v.Avoids k) (hc : v.get? p = some c) : c.Avoids k :=
  (hereditary_avoids k).get? h hc

end Json

/-! ## Commands -/

/-- A command does not bring in the name: neither its path nor the name of a field that it inserts
nor a value that it writes has it. -/
structure Command.Avoids (c : Config) (k : String) (command : Command) : Prop where
  path : ∀ p, Path.parse command.path = .ok p → ∀ s ∈ p, s.asKey ≠ k
  key : command.kind = .insert → ∀ key value, command.args = [key, value] →
    ∀ v, key.resolve c.literals = .ok (.value v) → Change.keyText v ≠ k
  value : ∀ arg ∈ command.args, ∀ v, arg.resolve c.literals = .ok (.value v) → v.Avoids k

/-- Neither the path nor the name of a field that the command inserts nor the value that it writes
has the name. It may stand where nothing comes of it, such as before the last argument of `set`. -/
structure Command.Omits (c : Config) (k : String) (command : Command) : Prop where
  path : ∀ p, Path.parse command.path = .ok p → ∀ s ∈ p, s.asKey ≠ k
  key : command.kind = .insert → ∀ key value, command.args = [key, value] →
    ∀ v, key.resolve c.literals = .ok (.value v) → Change.keyText v ≠ k
  value : ∀ arg, written? command.kind command.args = some arg →
    ∀ v, arg.resolve c.literals = .ok (.value v) → v.Avoids k

theorem Command.Avoids.omits {c : Config} {k : String} {command : Command}
    (h : command.Avoids c k) : command.Omits c k :=
  ⟨h.path, h.key, fun arg harg => h.value arg (mem_of_written? harg)⟩

/-- **A command that does not bring in a name leaves a document without it.** -/
theorem Command.Does.avoids {c : Config} {vars : Variables} {command : Command} {p : Path}
    {change : Change} {data : Json} {k : String}
    (h : Does c vars p command.kind command.args change data) (hcommand : command.Omits c k)
    (hp : Path.parse command.path = .ok p) (hdata : vars.data.Avoids k)
    (htemplate : ∀ t, Change.declaredTemplate vars p = some t → t.Avoids k) : data.Avoids k :=
  h.hereditary (Json.hereditary_avoids k) ⟨hcommand.path, hcommand.key, hcommand.value⟩ hp hdata
    htemplate

end StatVars
