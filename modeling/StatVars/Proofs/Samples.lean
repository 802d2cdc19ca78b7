import StatVars.Proofs.ClosedLeaves

/-!
# First items stand for all items

All items of an array share one schema, and it is inferred from the first of them. So whether an
object within an array takes new fields is not for its own annotation to say, but for that of the
object that is found when every array on the way is entered at its first item. Outside of arrays,
and within first items, the two are the same object. Main statement: `Bundle.new_field_refused_iff`.
-/

namespace StatVars

namespace Json

variable {v c : Json} {s : Step} {p : Path} {items : List Json} {fields : List (String × Json)}

/-! ## Documents whose arrays have no annotation -/

/-- No item of an array is the annotation of its array. -/
def ListsBare (v : Json) : Prop :=
  ∀ p items, v.get? p = some (.arr items) → ∀ item ∈ items, item.isArrayMeta = false

theorem Avoids.listsBare (h : v.Avoids arrayMetaKey) : v.ListsBare := by
  intro p items hget item hitem
  have havoids := avoids_arr.1 (h.get? hget) item hitem
  cases item with
  | obj fields => simp [isArrayMeta, Table.contains, havoids.get?_self]
  | _ => rfl

theorem ListsBare.child? (h : v.ListsBare) (hc : v.child? s = some c) : c.ListsBare := by
  intro p items hget
  refine h (s :: p) items ?_
  rw [get?_cons, hc]
  exact hget

theorem ListsBare.child?_stripMeta (h : v.ListsBare) (hs : s.asKey ≠ metaKey) :
    v.stripMeta.child? s = (v.child? s).map stripMeta := by
  cases v with
  | obj fields => exact get?_stripFields hs fields
  | arr items =>
    rw [stripMeta, stripItems_of_bare (h [] items rfl)]
    cases hi : s.asIndex? with
    | none => simp only [Json.child?, hi, Option.bind_none, Option.map_none]
    | some i => rw [child?_item hi, child?_item hi, List.getElem?_map]
  | _ => rfl

/-- What the path leads to after the annotations have been removed. -/
theorem ListsBare.get?_stripMeta (h : v.ListsBare) (hp : ∀ s ∈ p, s.asKey ≠ metaKey) :
    v.stripMeta.get? p = (v.get? p).map stripMeta := by
  induction p generalizing v with
  | nil => rfl
  | cons s p ih =>
    obtain ⟨hs, hp⟩ := List.forall_mem_cons.1 hp
    rw [get?_cons, get?_cons, h.child?_stripMeta hs]
    cases hc : v.child? s with
    | none => rfl
    | some c => exact ih (h.child? hc) hp

/-! ## The values that stand for others -/

/-- A field of an object, or the first item of an array in the place of any other one. -/
def sampleChild? (v : Json) (s : Step) : Option Json :=
  match v with
  | .obj fields => Table.get? fields s.asKey
  | .arr items => s.asIndex?.bind fun _ => items.head?
  | _ => none

/-- The value that stands for what the path leads to in the schema of a document: every array on the
way is entered at its first item. It comes with what it inherits from the containers around it. -/
def sample? (e inherited : Bool) (v : Json) : Path → Option (Bool × Json)
  | [] => some (inherited, v)
  | s :: p =>
    (v.sampleChild? s).bind fun c => sample? e (Schema.infer e none inherited v).passesOn c p

/-- Every array on the way is entered at its first item. -/
def EntersFirst (v : Json) : Path → Prop
  | [] => True
  | s :: p => (∀ items, v = .arr items → s.asIndex? = some 0) ∧
      ∀ c, v.child? s = some c → c.EntersFirst p

theorem ListsBare.sampleChild? (h : v.ListsBare) (hc : v.sampleChild? s = some c) :
    c.ListsBare := by
  cases v with
  | obj fields => exact h.child? hc
  | arr items =>
    obtain ⟨i, -, hc⟩ := Option.bind_eq_some_iff.1 hc
    refine h.child? (s := .index 0) ?_
    rw [child?_item rfl, ← List.head?_eq_getElem?, hc]
  | _ => cases hc

/-- There a value stands for itself. -/
theorem EntersFirst.sample? (h : v.EntersFirst p) (hget : v.get? p = some c) (e inherited : Bool) :
    ∃ inherited', v.sample? e inherited p = some (inherited', c) := by
  induction p generalizing v inherited with
  | nil => exact ⟨inherited, congrArg (Option.map _) hget⟩
  | cons s p ih =>
    obtain ⟨d, hd, hget⟩ := Option.bind_eq_some_iff.1 hget
    have hsample : v.sampleChild? s = some d := by
      cases v with
      | obj fields => exact hd
      | arr items =>
        have hs := h.1 items rfl
        rw [child?_item hs] at hd
        rw [Json.sampleChild?, hs, Option.bind_some, List.head?_eq_getElem?, hd]
      | _ => cases hd
    rw [Json.sample?, hsample]
    exact ih (h.2 d hd) hget _

end Json

namespace Schema

variable {e inherited : Bool} {v : Json} {s : Step} {p : Path}

theorem child?_infer (h : v.ListsBare) (hs : s.asKey ≠ metaKey) :
    (infer e none inherited v).child? s =
      (v.sampleChild? s).map (infer e none (infer e none inherited v).passesOn) := by
  cases v with
  | obj fields =>
    simp only [infer, child?, passesOn, Json.sampleChild?]
    exact get?_inferFields_of_ne hs [] fields
  | arr items =>
    simp only [infer, child?, passesOn, Json.sampleChild?, inferFirst_of_bare (h [] items rfl),
      Option.map_bind]
    rfl
  | _ => rfl

/-- The schema at a path is that of the value which stands for what the path leads to. -/
theorem at?_infer (h : v.ListsBare) (hp : ∀ s ∈ p, s.asKey ≠ metaKey) :
    (infer e none inherited v).at? p =
      (v.sample? e inherited p).map fun sample => infer e none sample.1 sample.2 := by
  induction p generalizing v inherited with
  | nil => rfl
  | cons s p ih =>
    obtain ⟨hs, hp⟩ := List.forall_mem_cons.1 hp
    rw [at?, child?_infer h hs, Json.sample?]
    cases hc : v.sampleChild? s with
    | none => rfl
    | some c => exact ih (h.sampleChild? hc) hp

/-- Whether the schema is that of an object which takes no new fields. -/
def isClosedObject : Schema → Bool
  | object _ rules => !rules.extensible
  | _ => false

theorem checkField_of_missing {S : Option Schema} {fields : List (String × Json)} {k : String}
    (hk : Table.contains fields k = false) :
    checkField S p k fields =
      if S.any isClosedObject then .error (.closedObject p.text k) else .ok () := by
  have hnew : ¬ Table.contains fields k := by simp [hk]
  refine (if_neg hnew).trans ?_
  rcases S with _ | @(⟨-, ⟨_ | _, -, -, -⟩⟩ | _ | _) <;> rfl

theorem isClosedObject_infer :
    (infer e none inherited v).isClosedObject ↔
      ∃ fields, v = .obj fields ∧ (objectRules e none inherited fields).extensible = false := by
  cases v <;> simp [infer, isClosedObject]

/-- The annotation among the fields says that the object is closed. -/
def SaysClosed (fields : List (String × Json)) : Prop :=
  ∃ settings, objectSettings? fields = some settings ∧ flag? settings "extensible" = some false ∧
    flag? settings "recursiveExtensible" ≠ some true

theorem SaysClosed.objectRules {fields : List (String × Json)} (h : SaysClosed fields)
    (old : Option Schema) : (objectRules e old inherited fields).extensible = false := by
  obtain ⟨settings, hsettings, hclosed, hrecursive⟩ := h
  have hannotated (rules : ObjectRules) : (annotateObject settings rules).extensible = false := by
    simp only [annotateObject, annotatedFlags, hclosed, Option.getD_some]
    cases hflag : flag? settings "recursiveExtensible" with
    | none => rfl
    | some flag =>
      cases flag with
      | false => rfl
      | true => exact absurd hflag hrecursive
  simp only [Schema.objectRules, hsettings]
  split
  · rfl
  · exact hannotated _

theorem checkMissing_ne_closedObject {before : Path} {text k : String} (q : Path) :
    checkMissing before q ≠ .error (.closedObject text k) := by
  induction q generalizing before with
  | nil =>
    intro h
    cases h
  | cons s q ih =>
    cases s with
    | key name => exact ih
    | index place =>
      rw [checkMissing]
      split
      · exact ih
      · intro h
        cases h

end Schema

/-! ## Commands that bring a new field -/

variable {c : Config} {p : Path} {fields : List (String × Json)} {k : String} {command : Command}
  {vars : Variables}

/-- The command would bring the field `k` into the object with these fields at the path: it inserts
the field, or lays an object over this one in which `k` is the first field that is new, or sets a
value at a path through `k`. -/
inductive Command.BringsField (c : Config) (p : Path) (fields : List (String × Json)) (k : String)
    (command : Command) : Prop
  | insert {key value name v} (hkind : command.kind = .insert)
      (hpath : Path.parse command.path = .ok p) (hargs : command.args = [key, value])
      (hkey : key.resolve c.literals = .ok (.value name)) (hname : Change.keyText name = k)
      (hvalue : value.resolve c.literals = .ok (.value v))
  | merge {arg before v after} (hkind : command.kind = .insert)
      (hpath : Path.parse command.path = .ok p) (hargs : command.args = [arg])
      (hvalue : arg.resolve c.literals = .ok (.value (.obj (before ++ (k, v) :: after))))
      (hbefore : ∀ f ∈ before, Table.contains fields f.1)
  | set {s rest arg v} (hkind : command.kind = .set)
      (hpath : Path.parse command.path = .ok (p ++ s :: rest)) (hs : s.asKey = k)
      (harg : command.args.getLast? = some arg)
      (hvalue : arg.resolve c.literals = .ok (.value v))

theorem Json.child?_of_missing {s : Step} (hk : Table.contains fields s.asKey = false) :
    (obj fields).child? s = none :=
  Option.not_isSome_iff_eq_none.1 (Bool.eq_false_iff.1 hk)

/-- A path through a field that is missing leads nowhere. -/
theorem Json.get?_of_missing {data : Json} {s : Step} (hget : data.get? p = some (.obj fields))
    (hk : Table.contains fields s.asKey = false) (rest : Path) :
    data.get? (p ++ s :: rest) = none := by
  rw [get?_append, hget, Option.bind_some, get?_cons, child?_of_missing hk, Option.bind_none]

namespace Schema

variable {S : Option Schema}

theorem checkField_eq_error_iff (hk : Table.contains fields k = false) :
    checkField S p k fields = .error (.closedObject p.text k) ↔ S.any isClosedObject := by
  rw [checkField_of_missing hk]
  split <;> simp [*]

theorem checkField_of_open (h : S.any isClosedObject = false) (j : String) :
    checkField S p j fields = .ok () := by
  cases hj : Table.contains fields j with
  | true => exact if_pos hj
  | false => rw [checkField_of_missing hj, h, if_neg Bool.false_ne_true]

/-- The first field that is new decides. -/
theorem forM_checkField_eq_error_iff {before after : List String}
    (hbefore : ∀ j ∈ before, Table.contains fields j) (hk : Table.contains fields k = false) :
    ((before ++ k :: after).forM fun j => Change.guarded (checkField S p j fields)) =
        .error (.schema (.closedObject p.text k)) ↔ S.any isClosedObject := by
  have hpass (j : String) (hj : j ∈ before) : checkField S p j fields = .ok () :=
    if_pos (hbefore j hj)
  rw [Change.forM_append_of_ok hpass]
  cases hS : S.any isClosedObject with
  | false =>
    have hopen (j : String) (_ : j ∈ k :: after) : checkField S p j fields = .ok () :=
      checkField_of_open hS j
    rw [← List.append_nil (k :: after), Change.forM_append_of_ok hopen]
    exact iff_of_false nofun Bool.false_ne_true
  | true =>
    refine iff_of_true ?_ rfl
    simp only [List.forM, checkField_of_missing hk, hS, if_true]
    rfl

theorem checkInsert_of_get? {data : Json} (hget : data.get? p = some (.obj fields)) (S : Schema)
    (s : Step) : S.checkInsert data p s = checkField (S.at? p) p s.asKey fields := by
  rw [checkInsert, hget]

end Schema

namespace Change

theorem resolveValue_of_value {arg : Command.Argument} {v : Json}
    (h : arg.resolve c.literals = .ok (.value v)) (p : Path) (refusal : String) :
    resolveValue c p arg refusal = .ok v := by
  rw [resolveValue, resolve, h]
  rfl

/-- A change that is checked first is refused for what the check says, unless what comes after the
check refuses it in the same way. -/
theorem error_liftM_bind_iff {α : Type} {check : Except CommandError α} {next : α → Attempt Change}
    {e : CommandError} (hnext : ∀ a, check = .ok a → (next a vars).1 ≠ .error e) :
    ((liftM check >>= next) vars).1 = .error e ↔ check = .error e := by
  rw [Fallible.bind_apply, Fallible.liftM_apply]
  cases check with
  | error e' => simp
  | ok a => simpa using hnext a rfl

theorem guarded_eq_error_iff {check : Except Violation Unit} {violation : Violation} :
    guarded check = .error (.schema violation) ↔ check = .error violation := by
  refine ⟨fun h => ?_, fun h => by rw [h]; rfl⟩
  cases check with
  | error violation' => exact congrArg Except.error (CommandError.schema.inj (Except.error.inj h))
  | ok => cases h

section

variable (hget : vars.data.get? p = some (.obj fields))

include hget

/-- Where there is something, it can be overwritten. -/
theorem overwrite_ne_error (w : Json) (change : Change) (e : CommandError) :
    ((do overwrite p w; return change : Attempt Change) vars).1 ≠ .error e := by
  obtain ⟨data, hdata⟩ := Json.exists_replace? hget w
  rw [overwrite_bind_apply hdata]
  intro h
  cases h

theorem insertField_error_iff (hk : Table.contains fields k = false) (v : Json) :
    (insertField p fields k v vars).1 = .error (.schema (.closedObject p.text k)) ↔
      (vars.schema.at? p).any Schema.isClosedObject := by
  rw [insertField, Fallible.get_bind_apply]
  refine (error_liftM_bind_iff fun _ _ => overwrite_ne_error hget _ _ _).trans ?_
  rw [guarded_eq_error_iff, Schema.checkInsert_of_get? hget]
  exact Schema.checkField_eq_error_iff hk

theorem merge_error_iff (hk : Table.contains fields k = false) {before after : List (String × Json)}
    (hbefore : ∀ f ∈ before, Table.contains fields f.1) (v : Json) :
    (merge p fields (.obj (before ++ (k, v) :: after)) vars).1 =
        .error (.schema (.closedObject p.text k)) ↔
      (vars.schema.at? p).any Schema.isClosedObject := by
  rw [merge, Fallible.get_bind_apply, Fallible.forM_liftM_bind]
  refine (error_liftM_bind_iff fun _ _ => overwrite_ne_error hget _ _ _).trans ?_
  rw [Table.keys, List.map_append, List.map_cons]
  simp only [Schema.checkInsert_of_get? hget]
  exact Schema.forM_checkField_eq_error_iff (by simpa using hbefore) hk

theorem createAt_error_iff {s : Step} (hk : Table.contains fields s.asKey = false) (rest : Path)
    (v : Json) :
    (createAt (p ++ s :: rest) (.value v) vars).1 =
        .error (.schema (.closedObject p.text s.asKey)) ↔
      (vars.schema.at? p).any Schema.isClosedObject := by
  have hnone := Json.get?_of_missing hget hk rest
  rw [createAt, Fallible.get_bind_apply]
  refine (error_liftM_bind_iff fun _ hcheck => ?_).trans ?_
  · -- What may be set can be created.
    have hdone := Schema.create_done_of_checkSet (guarded_ok hcheck) hnone v
    rw [Fallible.bind_apply, create_apply_of_done hdone]
    intro h
    cases h
  · rw [guarded_eq_error_iff, Schema.checkSet_of_missing hget (Json.child?_of_missing hk),
      Schema.checkInsert_of_get? hget, Schema.checkField_of_missing hk]
    cases (vars.schema.at? p).any Schema.isClosedObject with
    | true => exact iff_of_true rfl rfl
    | false => exact iff_of_false (Schema.checkMissing_ne_closedObject rest) Bool.false_ne_true

end

end Change

/-- Each of these commands asks first whether the field may be inserted. -/
theorem Command.BringsField.error_iff (h : command.BringsField c p fields k)
    (hget : vars.data.get? p = some (.obj fields)) (hk : Table.contains fields k = false) :
    (vars.run c command).2.error? = some (.schema (.closedObject p.text k)) ↔
      (vars.schema.at? p).any Schema.isClosedObject := by
  cases h with
  | @insert key value name v hkind hpath hargs hkey hname hvalue =>
    subst hname
    have hattempt : command.attempt c p vars =
        Change.insertField p fields (Change.keyText name) v vars := by
      simp only [attempt, hkind, Change.insert, Fallible.bind_apply, Fallible.get_apply, hget,
        Change.present, Fallible.liftM_apply, hargs, Change.resolveValue_of_value hkey,
        Change.resolveValue_of_value hvalue]
    rw [Variables.error?_run c vars hpath, hattempt]
    exact Change.insertField_error_iff hget hk v
  | @merge arg before v after hkind hpath hargs hvalue hbefore =>
    have hattempt : command.attempt c p vars =
        Change.merge p fields (.obj (before ++ (k, v) :: after)) vars := by
      simp only [attempt, hkind, Change.insert, Fallible.bind_apply, Fallible.get_apply, hget,
        Change.present, Fallible.liftM_apply, hargs, Change.resolveValue_of_value hvalue]
    rw [Variables.error?_run c vars hpath, hattempt]
    exact Change.merge_error_iff hget hk hbefore v
  | @set s rest arg v hkind hpath hs harg hvalue =>
    subst hs
    have hattempt : command.attempt c (p ++ s :: rest) vars =
        Change.createAt (p ++ s :: rest) (.value v) vars := by
      rw [attempt_set hkind harg hvalue, Json.get?_of_missing hget hk]
      simp
    rw [Variables.error?_run c vars hpath, hattempt]
    exact Change.createAt_error_iff hget hk rest v

namespace Bundle

open Json

/-- **An object takes new fields unless the one that stands for it is closed.** In the bundle of a
document in whose arrays there are no annotations, a command that would bring a new field into an
object is refused as one that the object does not accept exactly if the object is closed that is
found when every array on the way is entered at its first item. If this is the object itself, and
its annotation says that it is closed, then the command is refused, whatever the annotations of
other objects are. -/
theorem new_field_refused_iff {e : Bool} {document : Json} (hbare : document.ListsBare)
    (hp : ∀ s ∈ p, s.asKey ≠ metaKey) (hget : document.get? p = some (.obj fields))
    (hk : k ≠ metaKey) (hmissing : Table.get? fields k = none)
    (hcommand : command.BringsField c p (stripFields fields) k) :
    let refused := ((ofDocument e document).applyOne c command).2.error? =
      some (.schema (.closedObject p.text k))
    (refused ↔ ∃ inherited sample, document.sample? e false p = some (inherited, .obj sample) ∧
        (Schema.objectRules e none inherited sample).extensible = false) ∧
      (document.EntersFirst p → Schema.SaysClosed fields → refused) := by
  intro refused
  have hdata : (ofDocument e document).data.get? p = some (.obj (stripFields fields)) := by
    rw [ofDocument, hbare.get?_stripMeta hp, hget]
    rfl
  have hnew : Table.contains (stripFields fields) k = false := by
    rw [Table.contains, get?_stripFields hk, hmissing]
    rfl
  have hiff : refused ↔ ∃ inherited sample,
      document.sample? e false p = some (inherited, .obj sample) ∧
        (Schema.objectRules e none inherited sample).extensible = false := by
    refine (hcommand.error_iff hdata hnew).trans ?_
    rw [ofDocument, Schema.at?_infer hbare hp]
    rcases document.sample? e false p with _ | ⟨inherited, sample⟩
    · simp
    · rw [Option.map_some, Option.any_some, Schema.isClosedObject_infer]
      constructor
      · rintro ⟨fields, rfl, hclosed⟩
        exact ⟨inherited, fields, rfl, hclosed⟩
      · rintro ⟨_, fields, hsample, hclosed⟩
        cases hsample
        exact ⟨fields, rfl, hclosed⟩
  refine ⟨hiff, fun hfirst hsays => hiff.2 ?_⟩
  obtain ⟨inherited, hsample⟩ := hfirst.sample? hget e false
  exact ⟨inherited, fields, hsample, hsays.objectRules none⟩

/-- The annotation of a first item counts, and that of a later one does not. -/
theorem new_field_refused_iff_items :
    let closed : Json := .obj [("$meta", .obj [("extensible", .bool false)])]
    let document (items : List Json) : Json := .obj [("a", .arr items)]
    let insert (path : String) : Command :=
      ⟨.insert, path, [.literal (.value (.str "k")), .literal (.value .null)], none⟩
    let error? (items : List Json) (path : String) : Option CommandError :=
      ((ofDocument true (document items)).applyOne {} (insert path)).2.error?
    error? [closed, .obj []] "a[0]" = some (.schema (.closedObject "a[0]" "k")) ∧
      error? [.obj [], closed] "a[1]" ≠ some (.schema (.closedObject "a[1]" "k")) := by
  intro closed document insert error?
  have hbare (items : List Json) (h : items = [closed, .obj []] ∨ items = [.obj [], closed]) :
      (document items).ListsBare := by
    have hflag : (Json.bool false).Avoids arrayMetaKey := .scalar rfl
    refine Avoids.listsBare ?_
    rcases h with rfl | rfl <;>
      simpa [document, closed, avoids_obj, avoids_arr, arrayMetaKey] using hflag
  have hbrings (path : String) (p : Path) (fields : List (String × Json))
      (hpath : Path.parse path = .ok p) : (insert path).BringsField {} p fields "k" :=
    .insert rfl hpath rfl rfl rfl rfl
  have hpath : Path.parse "a[0]" = .ok [.key "a", .index 0] := rfl
  have hpath' : Path.parse "a[1]" = .ok [.key "a", .index 1] := rfl
  obtain ⟨-, hrefused⟩ := new_field_refused_iff (e := true) (hbare _ (.inl rfl)) (by decide) rfl
    (by decide) rfl (hbrings "a[0]" _ _ hpath)
  obtain ⟨hiff, -⟩ := new_field_refused_iff (e := true) (hbare _ (.inr rfl)) (by decide) rfl
    (by decide) rfl (hbrings "a[1]" _ _ hpath')
  refine ⟨hrefused ?_ ?_, fun h => ?_⟩
  · refine ⟨nofun, fun c hc => ?_⟩
    cases hc
    exact ⟨fun _ _ => rfl, fun _ _ => trivial⟩
  · exact ⟨[("extensible", .bool false)], rfl, rfl, by decide⟩
  · obtain ⟨inherited, sample, hsample, hclosed⟩ := hiff.1 h
    cases hsample
    cases hclosed

end Bundle

end StatVars
