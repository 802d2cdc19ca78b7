import StatVars.Proofs.Edit
import StatVars.Proofs.Shape

/-!
# Bringing a schema up to date

After a change the schema is inferred anew at one place only, which `reconcile` finds by cutting the
path of the change and looking for an object above. `refresh` walks down the path instead, as long
as there are objects on it. Both do the same if the schema has fitted the document before the change
and the change is at the path. So a schema that has fitted fits again.
-/

namespace StatVars

namespace Schema

variable {e inherited : Bool} {S T : Schema} {props : List (String × Schema)}
  {rules : ObjectRules} {fields : List (String × Json)} {v c w : Json} {s : Step} {p : Path}

/-- The schema and the data after a change at the path, inferred anew from the last field on that an
object on the path has. -/
def refresh (e inherited : Bool) (S : Schema) (data : Json) : Path → Schema × Json
  | [] => (infer e (some S) inherited data, data.stripMeta)
  | s :: p =>
    match S, data with
    | .object props rules, .obj fields =>
      match Table.get? fields s.asKey with
      | none => (.object (Table.erase props s.asKey) rules, .obj fields)
      | some c =>
        let within := rules.extensible && rules.recursive
        let (T, d) := match Table.get? props s.asKey with
          | some T => refresh e within T c p
          | none => (infer e none within c, c.stripMeta)
        (.object (Table.insert props s.asKey T) rules, .obj (Table.insert fields s.asKey d))
    | S, data => (infer e (some S) inherited data, data.stripMeta)

theorem refresh_missing (hs : Table.get? fields s.asKey = none) :
    refresh e inherited (.object props rules) (.obj fields) (s :: p) =
      (.object (Table.erase props s.asKey) rules, .obj fields) := by
  simp only [refresh, hs]

theorem refresh_new (hs : Table.get? fields s.asKey = some c)
    (hprop : Table.get? props s.asKey = none) :
    refresh e inherited (.object props rules) (.obj fields) (s :: p) =
      (.object (Table.insert props s.asKey
        (infer e none (rules.extensible && rules.recursive) c)) rules,
        .obj (Table.insert fields s.asKey c.stripMeta)) := by
  simp only [refresh, hs, hprop]

theorem refresh_field (hs : Table.get? fields s.asKey = some c)
    (hprop : Table.get? props s.asKey = some T) :
    refresh e inherited (.object props rules) (.obj fields) (s :: p) =
      (.object (Table.insert props s.asKey
        (refresh e (rules.extensible && rules.recursive) T c p).1) rules,
        .obj (Table.insert fields s.asKey
          (refresh e (rules.extensible && rules.recursive) T c p).2)) := by
  simp only [refresh, hs, hprop]

theorem refresh_array {element : Option Schema} {rules : ArrayRules} {items : List Json} :
    refresh e inherited (.array element rules) (.arr items) p =
      (infer e (some (.array element rules)) inherited (.arr items),
        (Json.arr items).stripMeta) := by
  cases p <;> rfl

/-- To prove something of what a refresh makes of a schema and a document, it is enough to prove it
where the schema is inferred anew and to carry it from a field to the object that has it. -/
theorem refresh_induction {motive : Schema → Json → Schema × Json → Prop}
    (anew : ∀ inherited S w, motive S w (infer e (some S) inherited w, w.stripMeta))
    (missing : ∀ props rules fields k, Table.get? fields k = none →
      motive (.object props rules) (.obj fields)
        (.object (Table.erase props k) rules, .obj fields))
    (new : ∀ inherited props rules fields k c, Table.get? fields k = some c →
      motive (.object props rules) (.obj fields)
        (.object (Table.insert props k (infer e none inherited c)) rules,
          .obj (Table.insert fields k c.stripMeta)))
    (field : ∀ props rules fields k c T r, Table.get? fields k = some c →
      Table.get? props k = some T → motive T c r →
      motive (.object props rules) (.obj fields)
        (.object (Table.insert props k r.1) rules, .obj (Table.insert fields k r.2)))
    (inherited : Bool) (S : Schema) (w : Json) (p : Path) :
    motive S w (refresh e inherited S w p) := by
  induction p generalizing S w inherited with
  | nil => exact anew inherited S w
  | cons s p ih =>
    cases S with
    | scalar | array => exact anew inherited _ w
    | object props rules =>
      cases w with
      | obj fields =>
        cases hc : Table.get? fields s.asKey with
        | none =>
          rw [refresh_missing hc]
          exact missing props rules fields s.asKey hc
        | some c =>
          cases hT : Table.get? props s.asKey with
          | none =>
            rw [refresh_new hc hT]
            exact new _ props rules fields s.asKey c hc
          | some T =>
            rw [refresh_field hc hT]
            exact field props rules fields s.asKey c T _ hc hT (ih _ T c)
      | _ => exact anew inherited _ _

/-- An object keeps its rules, and its other properties stay. -/
theorem refresh_object (e inherited : Bool) (props : List (String × Schema)) (rules : ObjectRules)
    (fields : List (String × Json)) (s : Step) (p : Path) :
    ∃ props', (refresh e inherited (.object props rules) (.obj fields) (s :: p)).1 =
        .object props' rules ∧
      ∀ k, s.asKey ≠ k → Table.get? props' k = Table.get? props k := by
  cases hc : Table.get? fields s.asKey with
  | none =>
    rw [refresh_missing hc]
    exact ⟨_, rfl, fun k hk => by rw [Table.get?_erase, if_neg hk]⟩
  | some c =>
    cases hT : Table.get? props s.asKey with
    | none =>
      rw [refresh_new hc hT]
      exact ⟨_, rfl, fun k hk => by rw [Table.get?_insert, if_neg hk]⟩
    | some T =>
      rw [refresh_field hc hT]
      exact ⟨_, rfl, fun k hk => by rw [Table.get?_insert, if_neg hk]⟩

/-! ## The two agree -/

/-- What `reconcile` does below an object at `parent`. -/
def reconcileAt (e : Bool) (S : Schema) (data : Json) (parent : Path) (last : Step) :
    Schema × Json :=
  let property := (data.get? (parent ++ [last])).map
    (infer e (S.at? (parent ++ [last])) ((S.at? parent).any passesOn))
  ((S.modify? (setProperty last.asKey property) parent).getD S,
    (data.modify? (fun v => some v.stripMeta) (parent ++ [last])).getD data)

theorem reconcile_of_anchor {parent : Path} {last : Step}
    (h : anchor? S (beforeArray w p) = some (parent, last)) :
    reconcile e S w p = reconcileAt e S w parent last := by
  simp only [reconcile, h, reconcileAt]

theorem reconcile_of_no_anchor (h : anchor? S (beforeArray w p) = none) :
    reconcile e S w p = (infer e (some S) false w, w.stripMeta) := by
  simp only [reconcile, h]

/-- At the lowest object `reconcile` does what `refresh` does if that infers the field anew. -/
theorem reconcileAt_nil
    (hinfer : ∀ c T, Table.get? fields s.asKey = some c → Table.get? props s.asKey = some T →
      refresh e (rules.extensible && rules.recursive) T c p =
        (infer e (some T) (rules.extensible && rules.recursive) c, c.stripMeta)) :
    reconcileAt e (.object props rules) (.obj fields) [] s =
      refresh e inherited (.object props rules) (.obj fields) (s :: p) := by
  cases hc : Table.get? fields s.asKey with
  | none =>
    rw [refresh_missing hc]
    simp [reconcileAt, Json.get?, Json.child?, hc, modify?, setProperty, Json.modify?,
      Json.modifyChild?, Table.modify?_of_get?_eq_none hc]
  | some c =>
    cases hT : Table.get? props s.asKey with
    | none =>
      rw [refresh_new hc hT]
      simp [reconcileAt, Json.get?, Json.child?, hc, at?, child?, hT, modify?, setProperty,
        passesOn, Json.modify?, Json.modifyChild?, Table.modify?_of_get? hc]
    | some T =>
      rw [refresh_field hc hT, hinfer c T hc hT]
      simp [reconcileAt, Json.get?, Json.child?, hc, at?, child?, hT, modify?, setProperty,
        passesOn, Json.modify?, Json.modifyChild?, Table.modify?_of_get? hc]

/-- Above it, what `reconcile` does to a field it does to the object. -/
theorem reconcileAt_cons {parent : Path} {last : Step} (hc : Table.get? fields s.asKey = some c)
    (hT : Table.get? props s.asKey = some T) :
    reconcileAt e (.object props rules) (.obj fields) (s :: parent) last =
      (.object (Table.insert props s.asKey (reconcileAt e T c parent last).1) rules,
        .obj (Table.insert fields s.asKey (reconcileAt e T c parent last).2)) := by
  have hschema (f : Schema → Option Schema) :
      ((object props rules).modify? f (s :: parent)).getD (object props rules) =
        .object (Table.insert props s.asKey ((T.modify? f parent).getD T)) rules := by
    simp only [modify?, modifyChild?, Table.modify?_of_get? hT]
    cases T.modify? f parent with
    | none => simp [Table.insert_of_get? hT]
    | some T' => rfl
  have hdata (f : Json → Option Json) :
      ((Json.obj fields).modify? f (s :: (parent ++ [last]))).getD (.obj fields) =
        .obj (Table.insert fields s.asKey ((c.modify? f (parent ++ [last])).getD c)) := by
    simp only [Json.modify?, Json.modifyChild?, Table.modify?_of_get? hc]
    cases c.modify? f (parent ++ [last]) with
    | none => simp [Table.insert_of_get? hc]
    | some c' => rfl
  simp [reconcileAt, hschema, hdata, Json.get?, Json.child?, hc, at?, child?, hT]

/-- What `refresh` is in terms of the place that `reconcile` finds. -/
theorem refresh_eq_of_edited (e inherited : Bool) {R : Option Schema} (hfits : S.Fits v)
    (h : Json.Edited R v p w) :
    match anchor? S (beforeArray w p) with
    | none => refresh e inherited S w p = (infer e (some S) inherited w, w.stripMeta)
    | some (parent, last) => refresh e inherited S w p = reconcileAt e S w parent last := by
  induction h generalizing S inherited with
  | here => simp [beforeArray, anchor?, refresh]
  | item | newItem | noItem =>
    cases hfits with
    | array => simp [beforeArray, anchor?, refresh_array]
    | scalar hv => cases hv
  | @field _ fields s p c d hc h ih =>
    cases hfits with
    | scalar hv => cases hv
    | @object props rules _ hfields =>
      obtain ⟨T, hT, hfits⟩ := hfields.property hc
      have hd : Table.get? (Table.insert fields s.asKey d) s.asKey = some d :=
        Table.get?_insert_self ..
      simp only [beforeArray, Json.child?, hd, anchor?, child?, hT, Option.bind_some]
      have hrest := ih (rules.extensible && rules.recursive) hfits
      cases hanchor : anchor? T (beforeArray d p) with
      | none =>
        -- No object lies below this field on the path, so the field itself is inferred anew.
        rw [hanchor] at hrest
        refine (reconcileAt_nil fun c' T' hc' hT' => ?_).symm
        obtain rfl := Option.some.inj (hc'.symm.trans hd)
        obtain rfl := Option.some.inj (hT'.symm.trans hT)
        exact hrest
      | some found =>
        obtain ⟨parent, last⟩ := found
        rw [hanchor] at hrest
        simp only [refresh_field hd hT, reconcileAt_cons hd hT, hrest]
  | @newField _ fields s p d hs =>
    cases hfits with
    | scalar hv => cases hv
    | @object props rules _ hfields =>
      have hT : Table.get? props s.asKey = none := hfields.no_property hs
      have hd : Table.get? (Table.insert fields s.asKey d) s.asKey = some d :=
        Table.get?_insert_self ..
      simp only [beforeArray, Json.child?, hd, anchor?, child?, hT, Option.bind_none]
      refine (reconcileAt_nil fun c' T' _ hT' => ?_).symm
      rw [hT] at hT'
      cases hT'
  | @noField _ fields s c hs =>
    cases hfits with
    | scalar hv => cases hv
    | @object props rules _ hfields =>
      have hgone : Table.get? (Table.erase fields s.asKey) s.asKey = none := by
        rw [Table.get?_erase, if_pos rfl]
      have hanchor : anchor? (.object props rules) [s] = some ([], s) := by
        simp [anchor?, Option.bind_fun_none]
      simp only [beforeArray, Json.child?, hgone, hanchor]
      refine (reconcileAt_nil fun c' T' hc' _ => ?_).symm
      rw [hgone] at hc'
      cases hc'

/-- After a change of a document that its schema has fitted, `reconcile` does the same. -/
theorem reconcile_eq_refresh {R : Option Schema} (hfits : S.Fits v) (h : Json.Edited R v p w) :
    reconcile e S w p = refresh e false S w p := by
  have hrefresh := refresh_eq_of_edited e false hfits h
  cases hanchor : anchor? S (beforeArray w p) with
  | none =>
    rw [hanchor] at hrefresh
    rw [reconcile_of_no_anchor hanchor, hrefresh]
  | some found =>
    obtain ⟨parent, last⟩ := found
    rw [hanchor] at hrefresh
    rw [reconcile_of_anchor hanchor, hrefresh]

/-! ## The shape is kept -/

theorem refresh_fits {R : Option Schema} (hfits : S.Fits v) (h : Json.Edited R v p w) :
    (refresh e inherited S w p).1.Fits (refresh e inherited S w p).2 := by
  induction h generalizing S inherited with
  | here => exact infer_fits e _ _ _
  | item | newItem | noItem =>
    cases hfits with
    | array =>
      rw [refresh_array]
      exact infer_fits e _ _ _
    | scalar hv => cases hv
  | @field _ fields s p c d hc h ih =>
    cases hfits with
    | scalar hv => cases hv
    | object hfields =>
      obtain ⟨T, hT, hfits⟩ := hfields.property hc
      rw [refresh_field (Table.get?_insert_self ..) hT, Table.insert_insert]
      exact .object (hfields.insert (ih hfits) s.asKey)
  | @newField _ fields s p d hs =>
    cases hfits with
    | scalar hv => cases hv
    | object hfields =>
      rw [refresh_new (Table.get?_insert_self ..) (hfields.no_property hs), Table.insert_insert]
      exact .object (hfields.insert (infer_fits e _ _ _) s.asKey)
  | @noField _ fields s =>
    cases hfits with
    | scalar hv => cases hv
    | object hfields =>
      rw [refresh_missing (by rw [Table.get?_erase, if_pos rfl])]
      exact .object (hfields.erase s.asKey)

end Schema

namespace Variables

variable (c : Config) {vars : Variables}

/-- A command keeps the schema in the shape of the document. -/
theorem run_fits (h : vars.schema.Fits vars.data) (command : Command) :
    (vars.run c command).1.schema.Fits (vars.run c command).1.data := by
  obtain ⟨p, e, hrun⟩ | ⟨p, change, after, -, hattempt, hrun⟩ := vars.run_cases c command
  · rw [hrun]
    exact h
  · obtain ⟨data, rfl, hdoes⟩ := Command.does_of_attempt hattempt
    rw [hrun]
    simp only [reconcile, Schema.reconcile_eq_refresh h hdoes.edited]
    exact Schema.refresh_fits h hdoes.edited

theorem runAll_fits (h : vars.schema.Fits vars.data) (commands : List Command) :
    (vars.runAll c commands).1.schema.Fits (vars.runAll c commands).1.data := by
  induction commands generalizing vars with
  | nil => exact h
  | cons command commands ih =>
    rw [runAll_cons]
    exact ih (run_fits c h command)

end Variables

namespace Bundle

/-- The bundles that batches of commands lead to from the empty one and from those of documents. -/
inductive Reachable : Bundle → Prop
  | empty : Reachable {}
  | ofDocument (extensibleByDefault : Bool) (document : Json) :
      Reachable (.ofDocument extensibleByDefault document)
  | apply {b} (c : Config) (commands : List Command) (h : Reachable b) :
      Reachable (b.apply c commands).1

theorem Reachable.fits {b : Bundle} (h : Reachable b) : b.schema.Fits b.data := by
  induction h with
  | empty => exact .object .nil
  | ofDocument e document => exact Schema.infer_fits e none false document
  | apply c commands _ ih => exact Variables.runAll_fits c ih commands

/-- **The schema of a bundle keeps the shape of its document.** -/
theorem schema_fits_data :
    (∀ e document, (ofDocument e document).schema.Fits (ofDocument e document).data) ∧
      ∀ b, Reachable b → ∀ c : Config,
        (∀ command, (b.applyOne c command).1.schema.Fits (b.applyOne c command).1.data) ∧
        ∀ commands, (b.apply c commands).1.schema.Fits (b.apply c commands).1.data :=
  ⟨fun e document => (Reachable.ofDocument e document).fits, fun _ h c =>
    ⟨fun command => Variables.run_fits c h.fits command,
      fun commands => (h.apply c commands).fits⟩⟩

/-- A key `$meta` that a path names stays in the document, and the schema has it too. -/
theorem schema_fits_data_meta_key :
    let b := ofDocument true (.obj [("a", .obj [])])
    let command : Command := ⟨.set, "a.$meta", [.literal (.value (.ofNat 1))], none⟩
    (b.applyOne {} command).1.data = .obj [("a", .obj [("$meta", .ofNat 1)])] ∧
      (b.applyOne {} command).1.schema.Fits (b.applyOne {} command).1.data := by
  intro b command
  exact ⟨by decide +kernel, (schema_fits_data.2 b (.ofDocument _ _) {}).1 command⟩

end Bundle

end StatVars
