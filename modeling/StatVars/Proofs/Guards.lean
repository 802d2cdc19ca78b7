import StatVars.Proofs.Unannotated

/-!
# Guards of containers

A closed object keeps its fields, a closed array its length, a required field stays and an array
does not grow beyond its bound: `Schema.Guarded` compares a container and its schema with what has
become of them. This holds over every run of commands that leave the containers around alone, write
to the container itself only by `insert`, `add` and the removal of members, and bring in no
annotation. A change elsewhere touches neither the container nor its schema, and one inside the
container has passed the checks of its schema, which each refresh keeps.
-/

namespace StatVars

namespace Json

/-- Whether each step of the path leads to a field of an object. -/
def throughFields (v : Json) : Path → Bool
  | [] => true
  | s :: p =>
    match v with
    | .obj fields => (Table.get? fields s.asKey).any (throughFields · p)
    | _ => false

end Json

namespace Schema

/-- The path leads through fields of objects from a value and its schema to these two. -/
inductive Reaches : Schema → Json → Path → Schema → Json → Prop
  | here {S v} : Reaches S v [] S v
  | field {props rules fields s p T c U w} (hT : Table.get? props s.asKey = some T)
      (hc : Table.get? fields s.asKey = some c) (h : Reaches T c p U w) :
      Reaches (.object props rules) (.obj fields) (s :: p) U w

/-- The guards that a container has are those that it has had, and what they guard is unchanged. -/
inductive Guarded : Schema → Json → Schema → Json → Prop
  | object {ps rules fields ps' rules' fields'}
      (hclosed : rules.extensible = false → rules'.extensible = false ∧
        ∀ k, Table.contains fields' k = Table.contains fields k)
      (hrequired : ∀ k ∈ rules.required, k ∈ rules'.required ∧
        (Table.contains fields k → Table.contains fields' k)) :
      Guarded (.object ps rules) (.obj fields) (.object ps' rules') (.obj fields')
  | array {element rules items element' rules' items'}
      (hclosed : rules.extensible = false → rules'.extensible = false ∧
        items'.length = items.length)
      (hmax : rules'.maxLen = rules.maxLen)
      (hlength : ∀ m, rules.maxLen = some m → items'.length ≤ max items.length m) :
      Guarded (.array element rules) (.arr items) (.array element' rules') (.arr items')

variable {e inherited : Bool} {S T T' T'' : Schema} {v w c c' c'' new : Json} {s : Step}
  {p r : Path} {props : List (String × Schema)} {rules : ObjectRules}
  {fields fields' : List (String × Json)}

/-! ## What guards say -/

theorem Guarded.refl (hfits : T.Fits c) (hc : c.isScalar = false) : Guarded T c T c := by
  cases hfits with
  | object => exact .object (fun h => ⟨h, fun _ => rfl⟩) fun k hk => ⟨hk, id⟩
  | array => exact .array (fun h => ⟨h, rfl⟩) rfl fun m _ => Nat.le_max_left ..
  | scalar hv => rw [hv] at hc; cases hc

theorem Guarded.trans (h : Guarded T c T' c') (h' : Guarded T' c' T'' c'') :
    Guarded T c T'' c'' := by
  cases h with
  | object hclosed hrequired =>
    cases h' with
    | object hclosed' hrequired' =>
      refine .object (fun h => ?_) fun k hk => ?_
      · obtain ⟨h, hkeys⟩ := hclosed h
        obtain ⟨h, hkeys'⟩ := hclosed' h
        exact ⟨h, fun k => (hkeys' k).trans (hkeys k)⟩
      · obtain ⟨hk, hstays⟩ := hrequired k hk
        obtain ⟨hk, hstays'⟩ := hrequired' k hk
        exact ⟨hk, hstays' ∘ hstays⟩
  | array hclosed hmax hlength =>
    cases h' with
    | array hclosed' hmax' hlength' =>
      refine .array (fun h => ?_) (hmax'.trans hmax) fun m hm => ?_
      · obtain ⟨h, hlen⟩ := hclosed h
        obtain ⟨h, hlen'⟩ := hclosed' h
        exact ⟨h, hlen'.trans hlen⟩
      · have hbound := hlength m hm
        have hbound' := hlength' m (hmax.trans hm)
        omega

theorem Guarded.not_isScalar (h : Guarded T c T' c') : c'.isScalar = false := by
  cases h <;> rfl

/-- An object whose schema is inferred anew is guarded if its fields are. -/
theorem guarded_infer_object (h : (Json.obj fields').Avoids metaKey)
    (hclosed : rules.extensible = false →
      ∀ k, Table.contains fields' k = Table.contains fields k)
    (hrequired : ∀ k ∈ rules.required, Table.contains fields k → Table.contains fields' k) :
    Guarded (.object props rules) (.obj fields)
      (infer e (some (.object props rules)) inherited (.obj fields')) (.obj fields') := by
  obtain ⟨hopen, hkept, -⟩ := objectRules_of_avoids e inherited h props rules
  exact .object (fun hext => ⟨hopen hext, hclosed hext⟩) fun k hk => ⟨hkept k hk, hrequired k hk⟩

/-- An array whose schema is inferred anew is guarded if its length is. -/
theorem guarded_infer_array {element : Option Schema} {rules : ArrayRules}
    {items items' : List Json} (h : (Json.arr items').Avoids metaKey)
    (hclosed : rules.extensible = false → items'.length = items.length)
    (hlength : ∀ m, rules.maxLen = some m → items'.length ≤ max items.length m) :
    Guarded (.array element rules) (.arr items)
      (infer e (some (.array element rules)) inherited (.arr items')) (.arr items') := by
  obtain ⟨hopen, hmax, -⟩ := arrayRules_of_avoids e inherited h element rules
  exact .array (fun hext => ⟨hopen hext, hclosed hext⟩) hmax hlength

/-! ## Reaching a container -/

theorem Fits.reaches (hfits : S.Fits v) (hp : v.throughFields p) (hc : v.get? p = some c) :
    ∃ T, Reaches S v p T c := by
  induction p generalizing S v with
  | nil =>
    cases hc
    exact ⟨S, .here⟩
  | cons s p ih =>
    cases hfits with
    | @object props rules fields hfields =>
      obtain ⟨d, hd, hc⟩ := Option.bind_eq_some_iff.1 hc
      obtain ⟨U, hU, hfits⟩ := hfields.property hd
      rw [Json.child?] at hd
      rw [Json.throughFields, hd, Option.any_some] at hp
      obtain ⟨T, hT⟩ := ih hfits hp hc
      exact ⟨T, .field hU hd hT⟩
    | array => cases hp
    | @scalar v hv =>
      cases v with
      | obj => cases hv
      | _ => cases hp

theorem Reaches.get? (h : Reaches S v p T c) (hr : r.map Step.asKey = p.map Step.asKey) :
    v.get? r = some c ∧ S.at? r = some T := by
  induction h generalizing r with
  | here =>
    obtain rfl := List.map_eq_nil_iff.1 hr
    exact ⟨rfl, rfl⟩
  | field hT hc h ih =>
    obtain ⟨s, r, rfl, hs, hr⟩ := List.map_eq_cons_iff.1 hr
    rw [← hs] at hT hc
    simp only [Json.get?, Json.child?, hc, at?, child?, hT, Option.bind_some]
    exact ih hr

theorem Reaches.fits (h : Reaches S v p T c) (hfits : S.Fits v) : T.Fits c := by
  induction h with
  | here => exact hfits
  | @field props rules fields s _ T c _ _ hT hc h ih =>
    cases hfits with
    | object hfields =>
      obtain ⟨T', hT', hfits⟩ := hfields.property hc
      obtain rfl := Option.some.inj (hT'.symm.trans hT)
      exact ih hfits

/-! ## Changes inside and elsewhere -/

/-- A change at or behind a member of a container is one that the guards allow. -/
theorem guarded_of_edited_member (h : Json.Edited (some S) v (s :: p) w) (hfits : S.Fits v)
    (hw : w.Avoids metaKey) : Guarded S v (refresh e inherited S w (s :: p)).1 w := by
  cases hfits with
  | scalar hv => cases h <;> cases hv
  | @array element rules items hfirst =>
    cases h with
    | @item _ _ _ place _ c d _ hc =>
      rw [refresh_array]
      exact guarded_infer_array hw (fun _ => List.length_set) fun m _ => by
        rw [List.length_set]; exact Nat.le_max_left ..
    | @newItem _ _ _ place _ d _ hplace hS =>
      obtain ⟨hopen, hmax⟩ := hS element rules rfl
      rw [refresh_array]
      refine guarded_infer_array hw (fun hclosed => ?_) fun m hm => ?_
      · rw [hopen] at hclosed
        cases hclosed
      · rw [List.length_insertIdx_of_le_length hplace]
        have hlt := hmax m hm
        omega
    | @noItem _ _ _ place _ hplace hS =>
      rw [refresh_array]
      refine guarded_infer_array hw (fun hclosed => ?_) fun m _ => ?_
      · rw [hS element rules rfl] at hclosed
        cases hclosed
      · rw [List.length_eraseIdx_of_lt hplace]
        omega
  | @object props rules fields hfields =>
    cases h with
    | @field _ _ _ _ c d hc =>
      obtain ⟨props', hprops', -⟩ := refresh_object e inherited props rules
        (Table.insert fields s.asKey d) s p
      rw [hprops']
      have hkeys := Table.contains_insert_of_get? hc d
      exact .object (fun h => ⟨h, hkeys⟩) fun k hk => ⟨hk, fun h => (hkeys k).trans h⟩
    | @newField _ _ _ _ d hs hS =>
      obtain ⟨props', hprops', -⟩ := refresh_object e inherited props rules
        (Table.insert fields s.asKey d) s p
      rw [hprops']
      refine .object (fun hclosed => ?_) fun k hk => ⟨hk, fun h => ?_⟩
      · rw [hS props rules rfl] at hclosed
        cases hclosed
      · simp [h]
    | @noField _ _ _ c hs hS =>
      obtain ⟨props', hprops', -⟩ := refresh_object e inherited props rules
        (Table.erase fields s.asKey) s []
      obtain ⟨hopen, hfree⟩ := hS props rules rfl
      rw [hprops']
      refine .object (fun hclosed => ?_) fun k hk => ⟨hk, fun h => ?_⟩
      · rw [hopen] at hclosed
        cases hclosed
      · have hne : s.asKey ≠ k := fun h => hfree (h ▸ hk)
        simp [h, hne]

/-- A change of an object leaves its other fields. -/
theorem edited_obj_frame {R : Option Schema} (h : Json.Edited R (.obj fields) (s :: p) w) :
    ∃ fields', w = .obj fields' ∧
      ∀ k, s.asKey ≠ k → Table.get? fields' k = Table.get? fields k := by
  cases h with
  | field | newField => exact ⟨_, rfl, fun k hk => by rw [Table.get?_insert, if_neg hk]⟩
  | noField => exact ⟨_, rfl, fun k hk => by rw [Table.get?_erase, if_neg hk]⟩

/-- **A change that is not at the container or above leaves it guarded.** -/
theorem Reaches.guarded_of_edited (e inherited : Bool) (h : Reaches S v p T c)
    (hedit : Json.Edited (some S) v r w) (hr : ¬ r.map Step.asKey <+: p.map Step.asKey)
    (hfits : S.Fits v) (hc : c.isScalar = false) (hw : w.Avoids metaKey) :
    ∃ T' c', Reaches (refresh e inherited S w r).1 w p T' c' ∧ Guarded T c T' c' := by
  induction h generalizing r w inherited with
  | @here S v =>
    cases r with
    | nil => exact absurd (List.nil_prefix) hr
    | cons s r => exact ⟨_, w, .here, guarded_of_edited_member hedit hfits hw⟩
  | @field props rules fields t q U d T c hU hd hrest ih =>
    cases r with
    | nil => exact absurd (List.nil_prefix) hr
    | cons s r =>
      -- The change goes into the field that leads to the container, or into another one.
      by_cases hs : s.asKey = t.asKey
      · cases hedit with
        | @field _ _ _ _ d' w' hd' hedit =>
          obtain rfl : d' = d := Option.some.inj (hd'.symm.trans (hs ▸ hd))
          rw [← hs] at hU
          rw [Option.bind_some, child?, hU] at hedit
          have hr' : ¬ r.map Step.asKey <+: q.map Step.asKey := fun hprefix =>
            hr (List.cons_prefix_cons.2 ⟨hs, hprefix⟩)
          have hfits' := (Reaches.field hU (hs ▸ hd) .here : Reaches _ _ [s] U d').fits hfits
          obtain ⟨T', c', hreach, hguarded⟩ := ih (rules.extensible && rules.recursive)
            hedit hr' hfits' hc (hw.field (Table.get?_insert_self ..)).2
          refine ⟨T', c', ?_, hguarded⟩
          rw [refresh_field (Table.get?_insert_self ..) hU]
          exact .field (hs ▸ Table.get?_insert_self ..) (hs ▸ Table.get?_insert_self ..) hreach
        | newField hmissing =>
          rw [hs, hd] at hmissing
          cases hmissing
        | noField => exact absurd (List.cons_prefix_cons.2 ⟨hs, List.nil_prefix⟩) hr
      · obtain ⟨fields', rfl, hfields'⟩ := edited_obj_frame hedit
        obtain ⟨props', hprops', hsame⟩ := refresh_object e inherited props rules fields' s r
        rw [hprops']
        refine ⟨T, c, .field ((hsame _ hs).trans hU) ((hfields' _ hs).trans hd) hrest, ?_⟩
        exact .refl ((Reaches.field hU hd hrest).fits hfits) hc

/-- A value written over the container has the schema of the container, inferred anew. -/
theorem Reaches.guarded_of_overwrite (e inherited : Bool) (h : Reaches S v p T c)
    (hr : r.map Step.asKey = p.map Step.asKey) (hreplace : v.replace? r new = some w)
    (hnew : ∀ inherited, Guarded T c (infer e (some T) inherited new) new) :
    ∃ T' c', Reaches (refresh e inherited S w r).1 w p T' c' ∧ Guarded T c T' c' := by
  induction h generalizing r w inherited with
  | here =>
    obtain rfl := List.map_eq_nil_iff.1 hr
    cases hreplace
    exact ⟨_, new, .here, hnew inherited⟩
  | @field props rules fields t q U d T c hU hd hrest ih =>
    obtain ⟨s, r, rfl, hs, hr⟩ := List.map_eq_cons_iff.1 hr
    rw [← hs] at hU hd
    rw [Json.replace?_cons] at hreplace
    obtain ⟨_, d', d'', hfields, hd', hd'', rfl⟩ | ⟨_, _, _, _, hitems, -⟩ :=
      Json.modifyChild?_eq_some hreplace
    · cases hfields
      obtain rfl := Option.some.inj (hd'.symm.trans hd)
      obtain ⟨T', c', hreach, hguarded⟩ := ih (rules.extensible && rules.recursive)
        hr hd'' hnew
      refine ⟨T', c', ?_, hguarded⟩
      rw [refresh_field (Table.get?_insert_self ..) hU]
      exact .field (hs ▸ Table.get?_insert_self ..) (hs ▸ Table.get?_insert_self ..) hreach
    · cases hitems

/-! ## Changes of the container itself -/

/-- A described value keeps its shape when its scalar is replaced. -/
theorem guarded_setDescribed {old : Json} (hfits : T.Fits c) (hold : c.described? = some old)
    (hw : (c.setDescribed w).Avoids metaKey) :
    Guarded T c (infer e (some T) inherited (c.setDescribed w)) (c.setDescribed w) := by
  obtain ⟨a, b, rfl⟩ | ⟨fields, rfl, hvalue⟩ := Json.described?_eq_some hold
  · cases hfits with
    | array => exact guarded_infer_array hw (fun _ => rfl) fun m _ => Nat.le_max_left ..
    | scalar hv => cases hv
  · have hkeys := Table.contains_insert_of_get? hvalue w
    cases hfits with
    | object => exact guarded_infer_object hw (fun _ => hkeys) fun k _ h => (hkeys k).trans h
    | scalar hv => cases hv

theorem contains_mergeFields (template : Option Json) (more : List (String × Json)) (k : String) :
    Table.contains (Change.mergeFields template fields more) k =
      (Table.contains fields k || (Table.keys more).contains k) := by
  unfold Change.mergeFields
  induction more generalizing fields with
  | nil => simp [Table.keys]
  | cons f more ih =>
    rw [List.foldl_cons, ih, Table.contains_insert]
    simp only [Table.keys, List.map_cons, List.contains_cons]
    by_cases hk : f.1 = k
    · simp [hk]
    · simp [hk, beq_eq_false_iff_ne.2 (Ne.symm hk)]

/-- The fields of an object stay when others are laid over them, and none is new if it is closed. -/
theorem guarded_merge {template : Option Json} {more : List (String × Json)} {data : Json}
    {S : Schema} (hfits : T.Fits (.obj fields)) (hget : data.get? p = some (.obj fields))
    (hT : S.at? p = some T)
    (hcheck : ∀ k ∈ Table.keys more, S.checkInsert data p (.key k) = .ok ())
    (hw : (Json.obj (Change.mergeFields template fields more)).Avoids metaKey) :
    Guarded T (.obj fields)
      (infer e (some T) inherited (.obj (Change.mergeFields template fields more)))
      (.obj (Change.mergeFields template fields more)) := by
  cases hfits with
  | scalar hv => cases hv
  | @object props rules =>
    refine guarded_infer_object hw (fun hclosed k => ?_) fun k _ h => ?_
    · rw [contains_mergeFields]
      cases hmore : (Table.keys more).contains k with
      | false => rw [Bool.or_false]
      | true =>
        have hk := hcheck k (List.contains_iff_mem.1 hmore)
        simp only [checkInsert, hget, hT, checkField, Step.asKey, hclosed] at hk
        split at hk
        · next hhas => simp [hhas]
        · cases hk
    · simp [contains_mergeFields, h]

end Schema

/-- A command leaves the containers around `p` alone, and writes to `p` itself only by `insert`,
`add` and the removal of a member. Steps that lead to the same field count as the same. -/
def Command.Spares (command : Command) (p : Path) : Prop :=
  ∀ q, Path.parse command.path = .ok q → q.map Step.asKey <+: p.map Step.asKey →
    q.length = p.length ∧
      (command.kind = .insert ∨ command.kind = .add ∨ command.kind = .delete ∧ command.args ≠ [])

/-- A command reports a change at its path or at a member of what is there. -/
theorem Command.Does.path {c : Config} {vars : Variables} {p : Path} {kind : Command.Kind}
    {args : List Command.Argument} {change : Change} {data : Json}
    (h : Does c vars p kind args change data) :
    change.path = p ∨ ∃ s, change.path = p.child s := by
  cases h with
  | remove hq =>
    cases hq with
    | unset | here => exact .inl rfl
    | member => exact .inr ⟨_, rfl⟩
  | putItem | putField => exact .inr ⟨_, rfl⟩
  | _ => exact .inl rfl

/-- **A command that spares a container leaves it guarded.** -/
theorem Command.Does.guarded {c : Config} {vars : Variables} {command : Command} {q p : Path}
    {change : Change} {data v : Json} {T : Schema} {e inherited : Bool}
    (h : Does c vars q command.kind command.args change data)
    (hq : Path.parse command.path = .ok q) (hspares : command.Spares p)
    (hfits : vars.schema.Fits vars.data) (hreach : vars.schema.Reaches vars.data p T v)
    (hv : v.isScalar = false) (hdata : data.Avoids metaKey) :
    ∃ T' v', (Schema.refresh e inherited vars.schema data change.path).1.Reaches data p T' v' ∧
      T.Guarded v T' v' := by
  by_cases hprefix : change.path.map Step.asKey <+: p.map Step.asKey
  · -- Only a command at the container itself may come so far up, and it may not write over it.
    have hshort : change.path.length ≤ p.length := by simpa using hprefix.length_le
    have hqp : q.map Step.asKey <+: p.map Step.asKey := by
      rcases h.path with hpath | ⟨s, hpath⟩
      · exact hpath ▸ hprefix
      · refine .trans ?_ hprefix
        rw [hpath, Path.child, List.map_append]
        exact List.prefix_append ..
    obtain ⟨hlength, hkind⟩ := hspares q hq hqp
    have hsame : q.map Step.asKey = p.map Step.asKey := hqp.eq_of_length (by simpa using hlength)
    have hlong (s : Step) : ¬ (q.child s).length ≤ p.length := by
      rw [Path.child, List.length_append, hlength]
      exact Nat.not_succ_le_self _
    obtain ⟨hgetv, hgetT⟩ := hreach.get? hsame
    have hfitsv := hreach.fits hfits
    generalize command.kind = kind, command.args = args at h hkind
    cases h with
    | lay | create | null | write | writeValue => simp at hkind
    | shift _ _ hget _ hnew =>
      obtain rfl := Option.some.inj (hgetv.symm.trans hget)
      rw [(Json.shifted_isScalar hnew).1] at hv
      cases hv
    | shiftValue _ _ hget hold hnew hdata' =>
      obtain rfl := Option.some.inj (hgetv.symm.trans hget)
      exact hreach.guarded_of_overwrite e inherited hsame hdata' fun _ =>
        Schema.guarded_setDescribed hfitsv hold (hdata.get? (Json.get?_of_replace? hdata'))
    | remove hremoves =>
      cases hremoves with
      | unset => simp at hkind
      | here => simp at hkind
      | member => exact absurd hshort (hlong _)
    | putItem | putField => exact absurd hshort (hlong _)
    | merge _ hget hcheck hnew hdata' =>
      obtain rfl := Option.some.inj (hgetv.symm.trans hget)
      subst hnew
      exact hreach.guarded_of_overwrite e inherited hsame hdata' fun _ =>
        Schema.guarded_merge hfitsv hget hgetT hcheck (hdata.get? (Json.get?_of_replace? hdata'))
  · exact hreach.guarded_of_edited e inherited h.edited hprefix hfits hv hdata

/-! ## Runs -/

namespace Variables

/-- The schema fits the document, and neither the document nor a template has annotations. -/
structure Unannotated (vars : Variables) : Prop where
  fits : vars.schema.Fits vars.data
  data : vars.data.Avoids metaKey
  templates : vars.schema.TemplatesAvoid metaKey

variable {c : Config} {vars : Variables} {p : Path} {T : Schema} {v : Json}
  {commands : List Command}

/-- An applied command leaves the document that it has made, and refreshes the schema only. -/
theorem Unannotated.run_cases (h : vars.Unannotated) {command : Command}
    (hcommand : command.Avoids c metaKey) :
    (vars.run c command).1 = vars ∨ ∃ q change data, Path.parse command.path = .ok q ∧
      Command.Does c vars q command.kind command.args change data ∧ data.Avoids metaKey ∧
      (vars.run c command).1 =
        ⟨data, (Schema.refresh c.extensibleByDefault false vars.schema data change.path).1⟩ := by
  obtain ⟨q, e, hrun⟩ | ⟨q, change, after, hq, hattempt, hrun⟩ := vars.run_cases c command
  · exact .inl (by rw [hrun])
  · obtain ⟨data, rfl, hdoes⟩ := Command.does_of_attempt hattempt
    have hdata : data.Avoids metaKey := by
      refine hdoes.avoids hcommand.omits hq h.data fun t ht => ?_
      obtain ⟨S, hS, ht⟩ := Option.bind_eq_some_iff.1 ht
      exact (h.templates.at? hS).template? ht
    refine .inr ⟨q, change, data, hq, hdoes, hdata, ?_⟩
    rw [hrun]
    simp only [reconcile, Schema.reconcile_eq_refresh h.fits hdoes.edited,
      Schema.refresh_data hdata]

/-- A command that brings in no annotation leaves a document without annotations. -/
theorem Unannotated.run (h : vars.Unannotated) {command : Command}
    (hcommand : command.Avoids c metaKey) : (vars.run c command).1.Unannotated := by
  refine ⟨run_fits c h.fits command, ?_, ?_⟩ <;>
    obtain hrun | ⟨q, change, data, -, -, hdata, hrun⟩ := h.run_cases hcommand <;> rw [hrun]
  · exact h.data
  · exact hdata
  · exact h.templates
  · exact Schema.refresh_templatesAvoid hdata h.templates

theorem Unannotated.runAll (h : vars.Unannotated)
    (hcommands : ∀ command ∈ commands, command.Avoids c metaKey) :
    (vars.runAll c commands).1.Unannotated := by
  induction commands generalizing vars with
  | nil => exact h
  | cons command commands ih =>
    obtain ⟨hcommand, hcommands⟩ := List.forall_mem_cons.1 hcommands
    rw [runAll_cons]
    exact ih (h.run hcommand) hcommands

/-- A command that spares a container leaves it guarded. -/
theorem Unannotated.run_guarded (h : vars.Unannotated) {command : Command}
    (hcommand : command.Avoids c metaKey) (hspares : command.Spares p) (hv : v.isScalar = false)
    (hreach : vars.schema.Reaches vars.data p T v) :
    ∃ T' v', (vars.run c command).1.schema.Reaches (vars.run c command).1.data p T' v' ∧
      T.Guarded v T' v' := by
  obtain hrun | ⟨q, change, data, hq, hdoes, hdata, hrun⟩ := h.run_cases hcommand <;> rw [hrun]
  · exact ⟨T, v, hreach, .refl (hreach.fits h.fits) hv⟩
  · exact hdoes.guarded hq hspares h.fits hreach hv hdata

theorem Unannotated.runAll_guarded (h : vars.Unannotated)
    (hcommands : ∀ command ∈ commands, command.Avoids c metaKey ∧ command.Spares p)
    (hv : v.isScalar = false) (hreach : vars.schema.Reaches vars.data p T v) :
    ∃ T' v', (vars.runAll c commands).1.schema.Reaches (vars.runAll c commands).1.data p T' v' ∧
      T.Guarded v T' v' := by
  induction commands generalizing vars T v with
  | nil => exact ⟨T, v, hreach, .refl (hreach.fits h.fits) hv⟩
  | cons command commands ih =>
    obtain ⟨⟨havoids, hspares⟩, hcommands⟩ := List.forall_mem_cons.1 hcommands
    obtain ⟨T', v', hreach', hguarded⟩ := h.run_guarded havoids hspares hv hreach
    obtain ⟨T'', v'', hreach'', hguarded'⟩ :=
      ih (h.run havoids) hcommands hguarded.not_isScalar hreach'
    exact ⟨T'', v'', hreach'', hguarded.trans hguarded'⟩

end Variables

namespace Bundle

variable {c : Config} {e : Bool} {document v : Json} {p : Path}
  {commands before after : List Command}

/-- **Guards hold over whole runs.** Commands that bring in no annotation and spare a container of a
document keep its fields if it is closed, its required fields, its length if it is a closed array,
and the bound of its length, after each of them. -/
theorem guards_hold (hp : (ofDocument e document).data.throughFields p)
    (hget : (ofDocument e document).data.get? p = some v) (hv : v.isScalar = false)
    (htemplates : (ofDocument e document).schema.TemplatesAvoid metaKey)
    (hcommands : ∀ command ∈ commands, command.Avoids c metaKey ∧ command.Spares p)
    (hsplit : commands = before ++ after) :
    ∃ T T' v', (ofDocument e document).schema.at? p = some T ∧
      ((ofDocument e document).apply c before).1.schema.at? p = some T' ∧
      ((ofDocument e document).apply c before).1.data.get? p = some v' ∧ T.Guarded v T' v' := by
  have hfits : (ofDocument e document).schema.Fits (ofDocument e document).data :=
    (Reachable.ofDocument e document).fits
  have hstart : (ofDocument e document).Unannotated :=
    ⟨hfits, Json.stripMeta_avoids document, htemplates⟩
  obtain ⟨T, hreach⟩ := hfits.reaches hp hget
  have hbefore : ∀ command ∈ before, command.Avoids c metaKey ∧ command.Spares p :=
    fun command h => hcommands command (hsplit ▸ List.mem_append_left _ h)
  obtain ⟨T', v', hreach', hguarded⟩ := hstart.runAll_guarded hbefore hv hreach
  exact ⟨T, T', v', (hreach.get? rfl).2, (hreach'.get? rfl).2, (hreach'.get? rfl).1, hguarded⟩

/-- A closed bag keeps its gold, which may be changed but not removed. -/
theorem guards_hold_bag :
    let document := Json.obj [("bag", .obj
      [("$meta", .obj [("extensible", .bool false)]), ("gold", .ofNat 1)])]
    let b := ofDocument true document
    let remove : Command := ⟨.delete, "bag", [.literal (.value (.str "gold"))], none⟩
    let add : Command := ⟨.add, "bag.gold", [.literal (.value (.ofNat 2))], none⟩
    (b.apply {} [remove, add]).1.data = .obj [("bag", .obj [("gold", .ofNat 3)])] ∧
      ∃ T T' v', b.schema.at? [.key "bag"] = some T ∧
        (b.apply {} [remove, add]).1.schema.at? [.key "bag"] = some T' ∧
        (b.apply {} [remove, add]).1.data.get? [.key "bag"] = some v' ∧
        T.Guarded (.obj [("gold", .ofNat 1)]) T' v' := by
  intro document b remove add
  have htemplates : b.schema.TemplatesAvoid metaKey := by
    have hschema : b.schema = .object [("bag", .object [("gold", .scalar .number)] {})]
        { extensible := true } := rfl
    rw [hschema]
    refine .object nofun fun k S hS => ?_
    rw [Table.get?_cons] at hS
    split at hS <;> cases hS
    refine .object nofun fun k S hS => ?_
    rw [Table.get?_cons] at hS
    split at hS <;> cases hS
    exact .scalar
  have hbag : Path.parse "bag" = .ok [.key "bag"] := rfl
  have hgold : Path.parse "bag.gold" = .ok [.key "bag", .key "gold"] := rfl
  have hremove : remove.Avoids {} metaKey ∧ remove.Spares [.key "bag"] := by
    refine ⟨⟨fun p hp => ?_, nofun, fun arg harg v hv => ?_⟩, fun q hq _ => ?_⟩
    · cases hbag.symm.trans hp
      decide
    · cases List.mem_singleton.1 harg
      cases hv
      exact .scalar rfl
    · cases hbag.symm.trans hq
      exact ⟨rfl, .inr (.inr ⟨rfl, nofun⟩)⟩
  have hadd : add.Avoids {} metaKey ∧ add.Spares [.key "bag"] := by
    refine ⟨⟨fun p hp => ?_, nofun, fun arg harg v hv => ?_⟩, fun q hq hprefix => ?_⟩
    · cases hgold.symm.trans hp
      decide
    · cases List.mem_singleton.1 harg
      cases hv
      exact .scalar rfl
    · cases hgold.symm.trans hq
      exact absurd hprefix.length_le (by decide)
  have hcommands : ∀ command ∈ [remove, add],
      command.Avoids {} metaKey ∧ command.Spares [.key "bag"] :=
    List.forall_mem_cons.2 ⟨hremove, List.forall_mem_cons.2 ⟨hadd, nofun⟩⟩
  exact ⟨by decide +kernel, guards_hold (by decide +kernel) (by decide +kernel) rfl htemplates
    hcommands (List.append_nil _).symm⟩

end Bundle

end StatVars
