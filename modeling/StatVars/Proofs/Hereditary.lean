import StatVars.Proofs.Edit

/-!
# Properties that containers take from what they hold

A property of values is hereditary if an array has it just if its items do, and an object keeps it
when fields are put in, replaced or taken out. Every way to change a document keeps such a property
if what is written has it. Main statement: `Command.Does.hereditary`, what a command does to a
document keeps a hereditary property that the values brought in have.
-/

namespace StatVars

namespace Json

/-- A property that passes from a container to what it holds and back. `K` says which names the
fields of an object with the property may have. -/
structure Hereditary (K : String → Prop) (P : Json → Prop) : Prop where
  scalar {v : Json} : v.isScalar → P v
  arr {items : List Json} : P (.arr items) ↔ ∀ v ∈ items, P v
  empty : P (.obj [])
  field {fields : List (String × Json)} : P (.obj fields) → ∀ f ∈ fields, K f.1 ∧ P f.2
  insert {fields : List (String × Json)} {k : String} {w : Json} :
    P (.obj fields) → K k → P w → P (.obj (Table.insert fields k w))
  erase {fields : List (String × Json)} (k : String) :
    P (.obj fields) → P (.obj (Table.erase fields k))

namespace Hereditary

variable {K : String → Prop} {P : Json → Prop} {v w v' c : Json} {s : Step} {p : Path}
  {items : List Json} {fields : List (String × Json)} (hP : Hereditary K P)

include hP

/-! ## Tables and lists of values -/

theorem get {k : String} (h : P (.obj fields)) (hc : Table.get? fields k = some c) : K k ∧ P c :=
  hP.field h _ (Table.mem_of_get? hc)

theorem insertAll {more : List (String × Json)} (h : P (.obj fields)) (hmore : P (.obj more)) :
    P (.obj (Table.insertAll fields more)) := by
  replace hmore := hP.field hmore
  induction more generalizing fields with
  | nil => exact h
  | cons f more ih =>
    obtain ⟨hf, hmore⟩ := List.forall_mem_cons.1 hmore
    exact ih (hP.insert h hf.1 hf.2) hmore

theorem item {place : Nat} (h : P (.arr items)) (hc : items[place]? = some c) : P c :=
  hP.arr.1 h c (List.mem_of_getElem? hc)

theorem set (h : P (.arr items)) (place : Nat) (hw : P w) : P (.arr (items.set place w)) := by
  refine hP.arr.2 fun c hc => ?_
  rcases List.mem_or_eq_of_mem_set hc with hc | rfl
  · exact hP.arr.1 h c hc
  · exact hw

theorem append {more : List Json} (h : P (.arr items)) (hmore : P (.arr more)) :
    P (.arr (items ++ more)) :=
  hP.arr.2 fun c hc => (List.mem_append.1 hc).elim (hP.arr.1 h c) (hP.arr.1 hmore c)

theorem cons (hw : P w) (h : P (.arr items)) : P (.arr (w :: items)) :=
  hP.arr.2 (List.forall_mem_cons.2 ⟨hw, hP.arr.1 h⟩)

theorem insertIdx {place : Nat} (h : P (.arr items)) (hplace : place ≤ items.length) (hw : P w) :
    P (.arr (items.insertIdx place w)) := by
  refine hP.arr.2 fun c hc => ?_
  rcases (List.mem_insertIdx hplace).1 hc with rfl | hc
  · exact hw
  · exact hP.arr.1 h c hc

theorem eraseIdx (h : P (.arr items)) (place : Nat) : P (.arr (items.eraseIdx place)) :=
  hP.arr.2 fun c hc => hP.arr.1 h c (List.mem_of_mem_eraseIdx hc)

/-! ## Access -/

theorem child? (h : P v) (hc : v.child? s = some c) : P c := by
  cases v with
  | obj fields => exact (hP.get h hc).2
  | arr items =>
    obtain ⟨place, -, hc⟩ := Option.bind_eq_some_iff.1 hc
    exact hP.item h hc
  | _ => cases hc

theorem get? (h : P v) (hc : v.get? p = some c) : P c := by
  induction p generalizing v with
  | nil =>
    cases hc
    exact h
  | cons s p ih =>
    obtain ⟨d, hd, hc⟩ := Option.bind_eq_some_iff.1 hc
    exact ih (hP.child? h hd) hc

theorem replace? (h : P v) (hw : P w) (hv' : v.replace? p w = some v') : P v' := by
  induction p generalizing v v' with
  | nil =>
    cases hv'
    exact hw
  | cons s p ih =>
    obtain ⟨fields, c, d, rfl, hc, hd, rfl⟩ | ⟨items, place, c, d, rfl, -, hc, hd, rfl⟩ :=
      modifyChild?_eq_some hv'
    · exact hP.insert h (hP.get h hc).1 (ih (hP.get h hc).2 hd)
    · exact hP.set h place (ih (hP.item h hc) hd)

theorem putChild (h : P v) (hs : K s.asKey) (hw : P w) : P (v.putChild s w).1 := by
  unfold Json.putChild
  cases hv' : v.setChild? s w with
  | none => exact h
  | some v' =>
    cases v with
    | obj fields =>
      cases hv'
      exact hP.insert h hs hw
    | arr items =>
      obtain ⟨place, -, hv'⟩ := Option.bind_eq_some_iff.1 hv'
      split at hv'
      · cases hv'
        exact hP.append h (hP.cons hw (hP.arr.2 nofun))
      · split at hv'
        · cases hv'
          exact hP.set h place hw
        · cases hv'
    | _ => cases hv'

theorem emptyFor (next : Step) : P (Json.emptyFor next) := by
  cases next with
  | key name => exact hP.empty
  | index place => exact hP.arr.2 nofun

theorem create (h : P v) (hp : ∀ s ∈ p, K s.asKey) (hw : P w) : P (v.create p w).1 := by
  induction p generalizing v with
  | nil => exact h
  | cons s p ih =>
    obtain ⟨hs, hp⟩ := List.forall_mem_cons.1 hp
    cases p with
    | nil => exact hP.putChild h hs hw
    | cons next p =>
      rw [create_cons]
      refine hP.putChild h hs (ih ?_ hp)
      cases hc : v.child? s with
      | none => exact hP.emptyFor next
      | some c => exact hP.child? h hc

theorem remove? (h : P v) (hv' : v.remove? p = some (c, v')) : P v' := by
  obtain ⟨parent, last, d, rest, -, hd, hrest, hreplace⟩ := remove?_eq_some hv'
  refine hP.replace? h ?_ hreplace
  have hd := hP.get? h hd
  cases d with
  | obj fields =>
    obtain ⟨_, -, hrest⟩ := Option.map_eq_some_iff.1 hrest
    cases hrest
    exact hP.erase _ hd
  | arr items =>
    obtain ⟨place, -, hrest⟩ := Option.bind_eq_some_iff.1 hrest
    obtain ⟨_, -, hrest⟩ := Option.bind_eq_some_iff.1 hrest
    cases hrest
    exact hP.eraseIdx hd place
  | _ => cases hrest

/-! ## Templates -/

mutual

theorem layOver {below v : Json} (hbelow : P below) (hv : P v) : P (layOver below v) := by
  cases v with
  | obj fields =>
    cases below with
    | obj base => exact layFieldsOver hbelow (hP.field hv)
    | _ => exact hv
  | _ => exact hv

theorem layFieldsOver {base fields : List (String × Json)} (hbase : P (.obj base))
    (hfields : ∀ f ∈ fields, K f.1 ∧ P f.2) : P (.obj (Json.layFieldsOver base fields)) := by
  match fields with
  | [] => exact hbase
  | (k, v) :: fields =>
    obtain ⟨⟨hk, hv⟩, hfields⟩ := List.forall_mem_cons.1 hfields
    rw [Json.layFieldsOver]
    refine layFieldsOver (hP.insert hbase hk ?_) hfields
    split
    · next below hbelow => exact layOver (hP.get hbase hbelow).2 hv
    · exact hv

end

theorem complete (hv : P v) (hw : P w) : P (v.complete w) := by
  unfold Json.complete
  split
  · exact hP.layFieldsOver hw (hP.field hv)
  · exact hP.append hv hw
  · exact hv
  · exact hP.cons hv hw
  · exact hv

theorem completeItem {declared : Option Json} (hv : P v) (hdeclared : ∀ t, declared = some t → P t)
    (h : P (.arr items)) (place : Nat) : P (v.completeItem declared items place) := by
  cases declared with
  | some t => exact hP.complete hv (hdeclared t rfl)
  | none =>
    simp only [Json.completeItem]
    split
    · next fields base hnext =>
      refine hP.layFieldsOver (hP.arr.1 h _ ?_) (hP.field hv)
      unfold neighbour? at hnext
      split at hnext
      · exact List.mem_of_getElem? hnext
      · exact List.mem_of_head? hnext
    · exact hv

theorem completeField {template : Option Json} (hv : P v)
    (htemplate : ∀ t, template = some t → P t) : P (Change.completeField template v) := by
  cases template with
  | some t => exact hP.complete hv (htemplate t rfl)
  | none => exact hv

theorem mergeFields {template : Option Json} {more : List (String × Json)} (h : P (.obj fields))
    (htemplate : ∀ t, template = some t → P t) (hmore : P (.obj more)) :
    P (.obj (Change.mergeFields template fields more)) := by
  replace hmore := hP.field hmore
  unfold Change.mergeFields
  induction more generalizing fields with
  | nil => exact h
  | cons f more ih =>
    obtain ⟨⟨hk, hv⟩, hmore⟩ := List.forall_mem_cons.1 hmore
    refine ih (hP.insert h hk ?_) hmore
    split
    · exact hv
    · exact hP.completeField hv htemplate

end Hereditary

/-! ## Described values -/

variable {v w old : Json} {p : Path}

/-- A described value is a pair or has a field `value`. -/
theorem described?_eq_some (h : v.described? = some old) :
    (∃ a b, v = .arr [a, b]) ∨
      ∃ fields, v = .obj fields ∧ Table.get? fields "value" = some old := by
  unfold described? at h
  split at h
  · next a b => exact .inl ⟨a, .str b, rfl⟩
  · next fields =>
    refine .inr ⟨fields, rfl, ?_⟩
    split at h
    · split at h
      · next hvalue _ =>
        split at h
        · cases h
          exact hvalue
        · cases h
      · cases h
    · cases h
  · cases h

namespace Hereditary

variable {K : String → Prop} {P : Json → Prop} (hP : Hereditary K P)

include hP

theorem setDescribed (h : P v) (hold : v.described? = some old) (hw : P w) :
    P (v.setDescribed w) := by
  obtain ⟨a, b, rfl⟩ | ⟨fields, rfl, hvalue⟩ := described?_eq_some hold
  · exact hP.set h 0 hw
  · exact hP.insert h (hP.get h hvalue).1 hw

theorem coerceLike (old : Json) (h : P v) : P (Change.coerceLike old v) := by
  unfold Change.coerceLike
  split
  · split
    · exact hP.scalar rfl
    · exact h
  · exact h

theorem unwrapValue (h : P v) : P (Change.unwrapValue v) := by
  unfold Change.unwrapValue
  split
  · next k' v =>
    split
    · exact (hP.field h (k', v) (List.mem_singleton_self _)).2
    · exact h
  · exact h

end Hereditary

/-- A sum is a number or the text of a date. -/
theorem shifted_isScalar {precision : Nat} {amount : Finite}
    (h : Change.shifted precision p old amount = .ok w) : old.isScalar ∧ w.isScalar := by
  cases old with
  | num n =>
    simp only [Change.shifted, Literal.numberValue] at h
    split at h <;> cases h
    exact ⟨rfl, rfl⟩
  | str s =>
    simp only [Change.shifted] at h
    split at h
    · split at h <;> cases h
      exact ⟨rfl, rfl⟩
    · cases h
  | _ => cases h

end Json

/-! ## Commands -/

/-- The argument whose value a command writes. -/
def Command.written? : Kind → List Argument → Option Argument
  | .set, args | .insert, args => args.getLast?
  | .add, args => args.head?
  | .delete, _ => none

theorem Command.mem_of_written? {kind : Kind} {args : List Argument} {arg : Argument}
    (h : written? kind args = some arg) : arg ∈ args := by
  cases kind with
  | set | insert => exact List.mem_of_getLast? h
  | add => exact List.mem_of_head? h
  | delete => cases h

/-- What a command brings into a document has the property: the names of the fields that its path
and its arguments say, and the value that it writes. -/
structure Command.Brings (c : Config) (K : String → Prop) (P : Json → Prop) (command : Command) :
    Prop where
  path : ∀ p, Path.parse command.path = .ok p → ∀ s ∈ p, K s.asKey
  key : command.kind = .insert → ∀ key value, command.args = [key, value] →
    ∀ v, key.resolve c.literals = .ok (.value v) → K (Change.keyText v)
  value : ∀ arg, written? command.kind command.args = some arg →
    ∀ v, arg.resolve c.literals = .ok (.value v) → P v

theorem Change.described?_of_slot {current v old : Json}
    (h : describedSlot? current v = some old) : current.described? = some old := by
  unfold describedSlot? at h
  split at h
  · cases h
  · exact h

variable {c : Config} {K : String → Prop} {P : Json → Prop}

theorem Command.Puts.hereditary {items : List Json} {kind : Kind} {args : List Argument}
    {place : Nat} {v : Json} (h : Puts c items kind args place v)
    (hvalue : ∀ arg, written? kind args = some arg →
      ∀ v, arg.resolve c.literals = .ok (.value v) → P v) : P v := by
  cases h with
  | add hl _ | last hl | nth _ _ hl => exact hvalue _ rfl v hl

/-- **What a command does to a document keeps a hereditary property that the values brought in
have.** -/
theorem Command.Does.hereditary {vars : Variables} {command : Command} {p : Path}
    {change : Change} {data : Json} (hP : Json.Hereditary K P)
    (h : Does c vars p command.kind command.args change data) (hcommand : command.Brings c K P)
    (hp : Path.parse command.path = .ok p) (hdata : P vars.data)
    (htemplate : ∀ t, Change.declaredTemplate vars p = some t → P t) : P data := by
  have hpath := hcommand.path p hp
  have hkey := hcommand.key
  have hvalue := hcommand.value
  generalize command.kind = kind, command.args = args at h hkey hvalue
  cases h with
  | lay _ harg hl hfields => exact hP.insertAll (hfields ▸ hdata) (hvalue _ harg _ hl)
  | create _ harg hl => exact hP.create hdata hpath (hvalue _ harg _ hl)
  | null _ _ _ _ _ hdata' => exact hP.replace? hdata (hP.scalar rfl) hdata'
  | write _ harg hl _ _ hdata' =>
    exact hP.replace? hdata (hP.coerceLike _ (hvalue _ harg _ hl)) hdata'
  | writeValue _ harg hl hget hslot hnew hdata' =>
    have hold := Change.described?_of_slot hslot
    refine hP.replace? hdata (hP.setDescribed (hP.get? hdata hget) hold ?_) hdata'
    exact hnew ▸ hP.coerceLike _ (hP.unwrapValue (hvalue _ harg _ hl))
  | shift _ _ _ _ hnew hdata' =>
    exact hP.replace? hdata (hP.scalar (Json.shifted_isScalar hnew).2) hdata'
  | shiftValue _ _ hget hslot hnew hdata' =>
    have hsum := hP.scalar (Json.shifted_isScalar hnew).2
    exact hP.replace? hdata (hP.setDescribed (hP.get? hdata hget) hslot hsum) hdata'
  | remove _ _ hdata' => exact hP.remove? hdata hdata'
  | putItem hput hget hcheck hitem hdata' =>
    have hitems := hP.get? hdata hget
    simp only [Schema.checkInsert, hget, Step.asIndex?] at hcheck
    refine hP.replace? hdata (hP.insertIdx hitems (Schema.le_of_checkItem hcheck) ?_) hdata'
    exact hitem ▸ hP.completeItem (hput.hereditary hvalue) htemplate hitems _
  | putField hl hk hv hget _ hnew hdata' =>
    have hv := hvalue _ rfl _ hv
    have hk := hk ▸ hkey rfl _ _ rfl _ hl
    refine hP.replace? hdata (hP.insert (hP.get? hdata hget) hk ?_) hdata'
    rw [hnew]
    split
    · exact hv
    · exact hP.completeField hv htemplate
  | merge hl hget _ hnew hdata' =>
    refine hP.replace? hdata ?_ hdata'
    exact hnew ▸ hP.mergeFields (hP.get? hdata hget) htemplate (hvalue _ rfl _ hl)

end StatVars
