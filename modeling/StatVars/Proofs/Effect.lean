import StatVars.Proofs.Refusal

/-!
# What commands do

`Command.Does` says what an applied command does: one constructor for each form that a command can
take, with what was read from its arguments, the checks that it has passed, the change that it
reports and the document after it, before the schema is brought up to date. Main statement:
`Command.does_of_attempt`, every change that a command makes is one of these.
-/

namespace StatVars

namespace Command

/-- What a command removes: the value that it unsets, the value at its path, or a member of it. -/
inductive Removes (c : Config) (vars : Variables) (p : Path) :
    Kind → List Argument → Path → Prop
  | unset {args arg current} (hp : p ≠ []) (harg : args.getLast? = some arg)
      (hl : arg.resolve c.literals = .ok .undefined) (hget : vars.data.get? p = some current)
      (hparent : ∀ parent last items, p.splitLast? = some (parent, last) →
        vars.data.get? parent ≠ some (.arr items)) :
      Removes c vars p .set args p
  | here : Removes c vars p .delete [] p
  | member {arg args target s} (hl : arg.resolve c.literals = .ok (.value target))
      (hs : Change.targetStep vars p target = .ok s) :
      Removes c vars p .delete (arg :: args) (p.child s)

/-- The item that a command puts into an array, and its place. -/
inductive Puts (c : Config) (items : List Json) : Kind → List Argument → Nat → Json → Prop
  | add {arg args v} (hl : arg.resolve c.literals = .ok (.value v))
      (hitems : (Json.arr items).isDescribed = false) :
      Puts c items .add (arg :: args) items.length v
  | last {arg v} (hl : arg.resolve c.literals = .ok (.value v)) :
      Puts c items .insert [arg] items.length v
  | nth {arg₁ arg₂ key place v} (hkey : arg₁.resolve c.literals = .ok (.value key))
      (hplace : Change.placeOf? key = some place)
      (hl : arg₂.resolve c.literals = .ok (.value v)) :
      Puts c items .insert [arg₁, arg₂] place v

/-- What an applied command does at the path `p`: the change that it reports and the document after
it. -/
inductive Does (c : Config) (vars : Variables) (p : Path) :
    Kind → List Argument → Change → Json → Prop
  | lay {args arg fields more} (hp : p = []) (harg : args.getLast? = some arg)
      (hl : arg.resolve c.literals = .ok (.value (.obj more)))
      (hdata : vars.data = .obj fields)
      (hcheck : ∀ k ∈ Table.keys more, vars.schema.checkSet vars.data [.key k] = .ok ()) :
      Does c vars p .set args
        ⟨p, some vars.data, some (.obj (Table.insertAll fields more))⟩
        (.obj (Table.insertAll fields more))
  | create {args arg v} (hp : p ≠ []) (harg : args.getLast? = some arg)
      (hl : arg.resolve c.literals = .ok (.value v)) (hget : vars.data.get? p = none)
      (hcheck : vars.schema.checkSet vars.data p = .ok ()) :
      Does c vars p .set args ⟨p, none, some v⟩ (vars.data.create p v).1
  | null {args arg current parent last items data} (harg : args.getLast? = some arg)
      (hl : arg.resolve c.literals = .ok .undefined)
      (hget : vars.data.get? p = some current) (hsplit : p.splitLast? = some (parent, last))
      (hparent : vars.data.get? parent = some (.arr items))
      (hdata : vars.data.replace? p .null = some data) :
      Does c vars p .set args ⟨p, some current, some .null⟩ data
  | write {args arg current v data} (hp : p ≠ []) (harg : args.getLast? = some arg)
      (hl : arg.resolve c.literals = .ok (.value v)) (hget : vars.data.get? p = some current)
      (hslot : Change.describedSlot? current v = none)
      (hdata : vars.data.replace? p (Change.coerceLike current v) = some data) :
      Does c vars p .set args ⟨p, some current, some (Change.coerceLike current v)⟩ data
  | writeValue {args arg current v old new data} (hp : p ≠ [])
      (harg : args.getLast? = some arg)
      (hl : arg.resolve c.literals = .ok (.value v)) (hget : vars.data.get? p = some current)
      (hslot : Change.describedSlot? current v = some old)
      (hnew : new = Change.coerceLike old (Change.unwrapValue v))
      (hdata : vars.data.replace? p (current.setDescribed new) = some data) :
      Does c vars p .set args ⟨p, some old, some new⟩ data
  | shift {args delta amount current new data} (hdelta : Change.deltaOf c args = .ok (.value delta))
      (hamount : delta.asNumber? = some amount) (hget : vars.data.get? p = some current)
      (hslot : current.described? = none)
      (hnew : Change.shifted c.precision p current amount = .ok new)
      (hdata : vars.data.replace? p new = some data) :
      Does c vars p .add args ⟨p, some current, some new⟩ data
  | shiftValue {args delta amount current old new data}
      (hdelta : Change.deltaOf c args = .ok (.value delta))
      (hamount : delta.asNumber? = some amount) (hget : vars.data.get? p = some current)
      (hslot : current.described? = some old)
      (hnew : Change.shifted c.precision p old amount = .ok new)
      (hdata : vars.data.replace? p (current.setDescribed new) = some data) :
      Does c vars p .add args ⟨p, some old, some new⟩ data
  | remove {kind args q removed data} (hq : Removes c vars p kind args q)
      (hcheck : vars.schema.checkDelete vars.data q = .ok ())
      (hdata : vars.data.remove? q = some (removed, data)) :
      Does c vars p kind args ⟨q, some removed, none⟩ data
  | putItem {kind args items place v item data} (hput : Puts c items kind args place v)
      (hget : vars.data.get? p = some (.arr items))
      (hcheck : vars.schema.checkInsert vars.data p (.index place) = .ok ())
      (hitem : item = v.completeItem (Change.declaredTemplate vars p) items place)
      (hdata : vars.data.replace? p (.arr (items.insertIdx place item)) = some data) :
      Does c vars p kind args ⟨p.child (.index place), none, some item⟩ data
  | putField {arg₁ arg₂ key k v new fields data}
      (hkey : arg₁.resolve c.literals = .ok (.value key)) (hk : k = Change.keyText key)
      (hl : arg₂.resolve c.literals = .ok (.value v))
      (hget : vars.data.get? p = some (.obj fields))
      (hcheck : vars.schema.checkInsert vars.data p (.key k) = .ok ())
      (hnew : new = if (Table.get? fields k).isSome then v
        else Change.completeField (Change.declaredTemplate vars p) v)
      (hdata : vars.data.replace? p (.obj (Table.insert fields k new)) = some data) :
      Does c vars p .insert [arg₁, arg₂] ⟨p.child (.key k), Table.get? fields k, some new⟩ data
  | merge {arg more fields new data} (hl : arg.resolve c.literals = .ok (.value (.obj more)))
      (hget : vars.data.get? p = some (.obj fields))
      (hcheck : ∀ k ∈ Table.keys more, vars.schema.checkInsert vars.data p (.key k) = .ok ())
      (hnew : new = .obj (Change.mergeFields (Change.declaredTemplate vars p) fields more))
      (hdata : vars.data.replace? p new = some data) :
      Does c vars p .insert [arg] ⟨p, some (.obj fields), some new⟩ data

end Command

namespace Change

open Fallible

variable {c : Config} {p : Path} {vars after : Variables}

/-! ## The parts of commands -/

theorem guarded_ok {check : Except Violation Unit} {u : Unit} (h : guarded check = .ok u) :
    check = .ok () := by
  cases check with
  | error e => cases h
  | ok => rfl

theorem present_ok {α : Type} {o : Option α} {a : α} (h : present p o = .ok a) : o = some a := by
  cases o with
  | none => cases h
  | some b => cases h; rfl

theorem resolve_ok {arg : Command.Argument} {l : Literal} (h : resolve c arg = .ok l) :
    arg.resolve c.literals = .ok l := by
  unfold resolve at h
  cases hl : arg.resolve c.literals with
  | error e => rw [hl] at h; cases h
  | ok l' => rw [hl] at h; cases h; rfl

theorem resolveValue_ok {arg : Command.Argument} {refusal : String} {v : Json}
    (h : resolveValue c p arg refusal = .ok v) :
    arg.resolve c.literals = .ok (.value v) := by
  unfold resolveValue at h
  cases hl : resolve c arg with
  | error e => rw [hl] at h; cases h
  | ok l =>
    rw [hl] at h
    cases l with
    | undefined => cases h
    | value w => cases h; exact resolve_ok hl

theorem forM_ok {α : Type} {l : List α} {check : α → Except Violation Unit} {u : PUnit}
    (h : (l.forM fun a => guarded (check a)) = .ok u) : ∀ a ∈ l, check a = .ok () := by
  induction l with
  | nil => exact fun _ ha => nomatch ha
  | cons a l ih =>
    cases ha : guarded (check a) with
    | error e => simp only [List.forM, ha] at h; cases h
    | ok u =>
      simp only [List.forM, ha] at h
      exact List.forall_mem_cons.2 ⟨guarded_ok ha, ih h⟩

/-- Checks that are passed are passed over. -/
theorem forM_append_of_ok {α : Type} {before after : List α} {check : α → Except Violation Unit}
    (h : ∀ a ∈ before, check a = .ok ()) :
    ((before ++ after).forM fun a => guarded (check a)) =
      after.forM fun a => guarded (check a) := by
  induction before with
  | nil => rfl
  | cons a before ih =>
    obtain ⟨ha, hbefore⟩ := List.forall_mem_cons.1 h
    simp only [List.cons_append, List.forM, ha]
    exact ih hbefore

theorem placeOf_ok {v : Json} {place : Nat} (h : placeOf v = .ok place) :
    placeOf? v = some place := by
  unfold placeOf at h
  split at h
  · cases h; assumption
  · cases h

theorem overwrite_ok {v : Json} {u : Unit} (h : overwrite p v vars = (.ok u, after)) :
    ∃ data, vars.data.replace? p v = some data ∧ after = { vars with data } := by
  obtain ⟨data, hdata, h⟩ := liftM_bind_ok (get_bind_ok h)
  cases h
  exact ⟨data, present_ok hdata, rfl⟩

/-- A write and the change reported behind it. -/
theorem overwrite_bind_ok {v : Json} {reported change : Change}
    (h : (do overwrite p v; return reported : Attempt Change) vars = (.ok change, after)) :
    ∃ data, vars.data.replace? p v = some data ∧ after = { vars with data } ∧
      change = reported := by
  obtain ⟨u, r, hwrite, h⟩ := bind_ok h
  obtain ⟨data, hdata, rfl⟩ := overwrite_ok hwrite
  cases h
  exact ⟨data, hdata, rfl, rfl⟩

theorem deleteAt_ok {change : Change} (h : deleteAt p vars = (.ok change, after)) :
    ∃ removed data, vars.schema.checkDelete vars.data p = .ok () ∧
      vars.data.remove? p = some (removed, data) ∧ after = { vars with data } ∧
      change = ⟨p, some removed, none⟩ := by
  obtain ⟨u, hcheck, h⟩ := liftM_bind_ok (get_bind_ok h)
  obtain ⟨removed, r, hremove, h⟩ := bind_ok h
  obtain ⟨⟨removed', data⟩, hdata, hremove⟩ := liftM_bind_ok (get_bind_ok hremove)
  cases hremove
  cases h
  exact ⟨removed, data, guarded_ok hcheck, present_ok hdata, rfl, rfl⟩

/-! ## The commands -/

variable {args : List Command.Argument} {change : Change}

theorem setRoot_ok {l : Literal} (h : setRoot p l vars = (.ok change, after)) :
    ∃ fields more, l = .value (.obj more) ∧ vars.data = .obj fields ∧
      (∀ k ∈ Table.keys more, vars.schema.checkSet vars.data [.key k] = .ok ()) ∧
      after = { vars with data := .obj (Table.insertAll fields more) } ∧
      change = ⟨p, some vars.data, some (.obj (Table.insertAll fields more))⟩ := by
  cases l with
  | undefined => cases h
  | value v =>
    cases v with
    | obj more =>
      obtain ⟨u, r, hcheck, h⟩ := bind_ok (get_bind_ok h)
      rw [forM_liftM_apply] at hcheck
      obtain ⟨hall, rfl⟩ := Prod.mk.inj hcheck
      obtain ⟨data, schema⟩ := vars
      cases data with
      | obj fields => cases h; exact ⟨fields, more, rfl, rfl, forM_ok hall, rfl, rfl⟩
      | _ => cases h
    | _ => cases h

theorem createAt_ok {l : Literal} (hget : vars.data.get? p = none)
    (h : createAt p l vars = (.ok change, after)) :
    ∃ v, l = .value v ∧ vars.schema.checkSet vars.data p = .ok () ∧
      after = { vars with data := (vars.data.create p v).1 } ∧ change = ⟨p, none, some v⟩ := by
  cases l with
  | undefined => cases h
  | value v =>
    obtain ⟨u, hcheck, h⟩ := liftM_bind_ok (get_bind_ok h)
    replace hcheck := guarded_ok hcheck
    rw [bind_apply, create_apply_of_done (Schema.create_done_of_checkSet hcheck hget _)] at h
    cases h
    exact ⟨v, rfl, hcheck, rfl, rfl⟩

theorem unsetAt_does {arg : Command.Argument} {current : Json} (hp : p ≠ [])
    (harg : args.getLast? = some arg) (hl : arg.resolve c.literals = .ok .undefined)
    (hget : vars.data.get? p = some current)
    (h : unsetAt p current vars = (.ok change, after)) :
    ∃ data, after = { vars with data } ∧ Command.Does c vars p .set args change data := by
  replace h := get_bind_ok h
  by_cases hparent : ∃ parent last items, p.splitLast? = some (parent, last) ∧
      vars.data.get? parent = some (.arr items)
  · obtain ⟨parent, last, items, hsplit, hparent⟩ := hparent
    simp only [hsplit, Option.bind_some, hparent] at h
    obtain ⟨data, hdata, rfl, rfl⟩ := overwrite_bind_ok h
    exact ⟨data, rfl, .null harg hl hget hsplit hparent hdata⟩
  · have hdelete : deleteAt p vars = (.ok change, after) := by
      refine (congrFun ?_ vars).trans h
      split
      · next items hitems =>
        obtain ⟨⟨parent, last⟩, hsplit, hitems⟩ := Option.bind_eq_some_iff.1 hitems
        exact absurd ⟨parent, last, items, hsplit, hitems⟩ hparent
      · rfl
    obtain ⟨removed, data, hcheck, hdata, rfl, rfl⟩ := deleteAt_ok hdelete
    refine ⟨data, rfl, .remove (.unset hp harg hl hget fun parent last items hsplit hitems => ?_)
      hcheck hdata⟩
    exact hparent ⟨parent, last, items, hsplit, hitems⟩

theorem replaceAt_does {arg : Command.Argument} {current v : Json} (hp : p ≠ [])
    (harg : args.getLast? = some arg) (hl : arg.resolve c.literals = .ok (.value v))
    (hget : vars.data.get? p = some current)
    (h : replaceAt p current v vars = (.ok change, after)) :
    ∃ data, after = { vars with data } ∧ Command.Does c vars p .set args change data := by
  unfold replaceAt at h
  cases hslot : describedSlot? current v with
  | some old =>
    rw [hslot] at h
    obtain ⟨data, hdata, rfl, rfl⟩ := overwrite_bind_ok h
    exact ⟨data, rfl, .writeValue hp harg hl hget hslot rfl hdata⟩
  | none =>
    rw [hslot] at h
    obtain ⟨data, hdata, rfl, rfl⟩ := overwrite_bind_ok h
    exact ⟨data, rfl, .write hp harg hl hget hslot hdata⟩

theorem set_does (h : set c p args vars = (.ok change, after)) :
    ∃ data, after = { vars with data } ∧ Command.Does c vars p .set args change data := by
  unfold set at h
  cases harg : args.getLast? with
  | none => rw [harg] at h; cases h
  | some arg =>
    rw [harg] at h
    obtain ⟨l, hl, h⟩ := liftM_bind_ok h
    replace hl := resolve_ok hl
    by_cases hp : p = []
    · rw [if_pos (List.isEmpty_iff.2 hp)] at h
      obtain ⟨fields, more, rfl, hdata, hcheck, rfl, rfl⟩ := setRoot_ok h
      exact ⟨_, rfl, .lay hp harg hl hdata hcheck⟩
    · rw [if_neg (mt List.isEmpty_iff.1 hp)] at h
      replace h := get_bind_ok h
      cases hget : vars.data.get? p with
      | none =>
        rw [hget] at h
        obtain ⟨v, rfl, hcheck, rfl, rfl⟩ := createAt_ok hget h
        exact ⟨_, rfl, .create hp harg hl hget hcheck⟩
      | some current =>
        rw [hget] at h
        cases l with
        | undefined => exact unsetAt_does hp harg hl hget h
        | value v => exact replaceAt_does hp harg hl hget h

theorem delete_does (h : delete c p args vars = (.ok change, after)) :
    ∃ data, after = { vars with data } ∧ Command.Does c vars p .delete args change data := by
  cases args with
  | nil =>
    obtain ⟨removed, data, hcheck, hdata, rfl, rfl⟩ := deleteAt_ok h
    exact ⟨data, rfl, .remove .here hcheck hdata⟩
  | cons arg rest =>
    obtain ⟨target, htarget, h⟩ := liftM_bind_ok h
    obtain ⟨s, hs, h⟩ := liftM_bind_ok (get_bind_ok h)
    obtain ⟨removed, data, hcheck, hdata, rfl, rfl⟩ := deleteAt_ok h
    exact ⟨data, rfl, .remove (.member (resolveValue_ok htarget) hs) hcheck hdata⟩

theorem insertItem_ok {items : List Json} {place : Nat} {v : Json}
    (h : insertItem p items place v vars = (.ok change, after)) :
    ∃ item data, vars.schema.checkInsert vars.data p (.index place) = .ok () ∧
      item = v.completeItem (declaredTemplate vars p) items place ∧
      vars.data.replace? p (.arr (items.insertIdx place item)) = some data ∧
      after = { vars with data } ∧ change = ⟨p.child (.index place), none, some item⟩ := by
  obtain ⟨u, hcheck, h⟩ := liftM_bind_ok (get_bind_ok h)
  obtain ⟨data, hdata, rfl, rfl⟩ := overwrite_bind_ok h
  exact ⟨_, data, guarded_ok hcheck, rfl, hdata, rfl, rfl⟩

theorem merge_ok {fields : List (String × Json)} {v : Json}
    (h : merge p fields v vars = (.ok change, after)) :
    ∃ more new data, v = .obj more ∧
      (∀ k ∈ Table.keys more, vars.schema.checkInsert vars.data p (.key k) = .ok ()) ∧
      new = .obj (mergeFields (declaredTemplate vars p) fields more) ∧
      vars.data.replace? p new = some data ∧ after = { vars with data } ∧
      change = ⟨p, some (.obj fields), some new⟩ := by
  cases v with
  | obj more =>
    obtain ⟨u, r, hcheck, h⟩ := bind_ok (get_bind_ok h)
    rw [forM_liftM_apply] at hcheck
    obtain ⟨hall, rfl⟩ := Prod.mk.inj hcheck
    obtain ⟨data, hdata, rfl, rfl⟩ := overwrite_bind_ok h
    exact ⟨more, _, data, rfl, forM_ok hall, rfl, hdata, rfl, rfl⟩
  | _ => cases h

theorem insert_does (h : insert c p args vars = (.ok change, after)) :
    ∃ data, after = { vars with data } ∧ Command.Does c vars p .insert args change data := by
  obtain ⟨current, hget, h⟩ := liftM_bind_ok (get_bind_ok h)
  replace hget := present_ok hget
  cases current with
  | arr items =>
    match args, h with
    | [_], h =>
      obtain ⟨v, hv, h⟩ := liftM_bind_ok h
      obtain ⟨item, data, hcheck, hitem, hdata, rfl, rfl⟩ := insertItem_ok h
      exact ⟨data, rfl, .putItem (.last (resolveValue_ok hv)) hget hcheck hitem hdata⟩
    | [_, _], h =>
      obtain ⟨key, hkey, h⟩ := liftM_bind_ok h
      obtain ⟨v, hv, h⟩ := liftM_bind_ok h
      obtain ⟨place, hplace, h⟩ := liftM_bind_ok h
      obtain ⟨item, data, hcheck, hitem, hdata, rfl, rfl⟩ := insertItem_ok h
      have hput : Command.Puts c items .insert _ place v :=
        .nth (resolveValue_ok hkey) (placeOf_ok hplace) (resolveValue_ok hv)
      exact ⟨data, rfl, .putItem hput hget hcheck hitem hdata⟩
    | [], h | _ :: _ :: _ :: _, h => cases h
  | obj fields =>
    match args, h with
    | [_], h =>
      obtain ⟨v, hv, h⟩ := liftM_bind_ok h
      obtain ⟨more, new, data, rfl, hcheck, hnew, hdata, rfl, rfl⟩ := merge_ok h
      exact ⟨data, rfl, .merge (resolveValue_ok hv) hget hcheck hnew hdata⟩
    | [_, _], h =>
      obtain ⟨key, hkey, h⟩ := liftM_bind_ok h
      obtain ⟨v, hv, h⟩ := liftM_bind_ok h
      obtain ⟨u, hcheck, h⟩ := liftM_bind_ok (get_bind_ok h)
      obtain ⟨data, hdata, rfl, rfl⟩ := overwrite_bind_ok h
      exact ⟨data, rfl, .putField (resolveValue_ok hkey) rfl (resolveValue_ok hv) hget
        (guarded_ok hcheck) rfl hdata⟩
    | [], h | _ :: _ :: _ :: _, h => cases h
  | _ => cases h

theorem shiftBy_does {delta : Literal} {current : Json} (hdelta : deltaOf c args = .ok delta)
    (hget : vars.data.get? p = some current)
    (h : shiftBy c.precision p current delta vars = (.ok change, after)) :
    ∃ data, after = { vars with data } ∧ Command.Does c vars p .add args change data := by
  unfold shiftBy at h
  cases hamount : delta.toValue?.bind Json.asNumber? with
  | none => rw [hamount] at h; cases h
  | some amount =>
    rw [hamount] at h
    cases delta with
    | undefined => cases hamount
    | value delta =>
      unfold shiftAt at h
      cases hslot : current.described? with
      | some old =>
        rw [hslot] at h
        obtain ⟨new, hnew, h⟩ := liftM_bind_ok h
        obtain ⟨data, hdata, rfl, rfl⟩ := overwrite_bind_ok h
        exact ⟨data, rfl, .shiftValue hdelta hamount hget hslot hnew hdata⟩
      | none =>
        rw [hslot] at h
        obtain ⟨new, hnew, h⟩ := liftM_bind_ok h
        obtain ⟨data, hdata, rfl, rfl⟩ := overwrite_bind_ok h
        exact ⟨data, rfl, .shift hdelta hamount hget hslot hnew hdata⟩

theorem add_does (h : add c p args vars = (.ok change, after)) :
    ∃ data, after = { vars with data } ∧ Command.Does c vars p .add args change data := by
  obtain ⟨delta, hdelta, h⟩ := liftM_bind_ok h
  obtain ⟨current, hget, h⟩ := liftM_bind_ok (get_bind_ok h)
  replace hget := present_ok hget
  by_cases hlist : ∃ items, current = .arr items ∧ current.isDescribed = false
  · obtain ⟨items, rfl, hitems⟩ := hlist
    rw [hitems] at h
    match args, delta, hdelta, h with
    | arg :: _, .value v, hdelta, h =>
      obtain ⟨item, data, hcheck, hitem, hdata, rfl, rfl⟩ := insertItem_ok h
      exact ⟨data, rfl, .putItem (.add (resolve_ok hdelta) hitems) hget hcheck hitem hdata⟩
    | _ :: _, .undefined, _, h => cases h
    | [], _, _, h => cases h
  · refine shiftBy_does hdelta hget ((congrFun ?_ vars).trans h)
    symm
    split
    · next items hitems => exact absurd ⟨items, rfl, hitems⟩ hlist
    · rfl

end Change

/-- Every change that a command makes is one of those listed. -/
theorem Command.does_of_attempt {c : Config} {command : Command} {p : Path}
    {vars after : Variables} {change : Change}
    (h : command.attempt c p vars = (.ok change, after)) :
    ∃ data, after = { vars with data } ∧
      Does c vars p command.kind command.args change data := by
  unfold attempt at h
  cases hkind : command.kind with
  | set => rw [hkind] at h; exact Change.set_does h
  | add => rw [hkind] at h; exact Change.add_does h
  | delete => rw [hkind] at h; exact Change.delete_does h
  | insert => rw [hkind] at h; exact Change.insert_does h

end StatVars
