import StatVars.Proofs.Avoid
import StatVars.Proofs.Refresh

/-!
# Documents without annotations

In a document that avoids `$meta` there is no annotation. Bringing the schema up to date changes
nothing in such a document, and in the schema no rule is lost and no template is new.
-/

namespace StatVars

namespace Json

variable {v : Json} {items : List Json}

mutual

/-- What annotations are removed from avoids `$meta`. -/
theorem stripMeta_avoids (v : Json) : v.stripMeta.Avoids metaKey := by
  cases v with
  | arr items => exact stripItems_avoids items
  | obj fields => exact stripFields_avoids fields
  | _ => exact .scalar rfl

theorem stripItems_avoids (items : List Json) : (Json.arr (stripItems items)).Avoids metaKey := by
  match items with
  | [] => exact .arr nofun
  | v :: items =>
    rw [stripItems]
    split
    · exact stripItems_avoids items
    · exact .cons (stripMeta_avoids v) (stripItems_avoids items)

theorem stripFields_avoids (fields : List (String × Json)) :
    (Json.obj (stripFields fields)).Avoids metaKey := by
  match fields with
  | [] => exact .obj nofun nofun
  | (k, v) :: fields =>
    rw [stripFields]
    split
    · exact stripFields_avoids fields
    · next hk =>
      exact avoids_obj.2 (List.forall_mem_cons.2
        ⟨⟨hk, stripMeta_avoids v⟩, avoids_obj.1 (stripFields_avoids fields)⟩)

end

theorem Avoids.not_isArrayMeta (h : v.Avoids metaKey) : v.isArrayMeta = false := by
  cases v with
  | obj fields => simp [isArrayMeta, Table.contains, h.get?_self]
  | _ => rfl

theorem stripItems_of_bare (h : ∀ item ∈ items, item.isArrayMeta = false) :
    stripItems items = items.map stripMeta := by
  induction items with
  | nil => rfl
  | cons v items ih =>
    obtain ⟨hv, hitems⟩ := List.forall_mem_cons.1 h
    rw [stripItems, if_neg (by simp [hv]), ih hitems, List.map_cons]

/-- There is nothing to remove. -/
theorem Avoids.stripMeta (h : v.Avoids metaKey) : v.stripMeta = v := by
  induction h with
  | @scalar v hv =>
    cases v with
    | arr | obj => cases hv
    | _ => rfl
  | @arr items h ih =>
    refine congrArg Json.arr ?_
    rw [stripItems_of_bare fun item hitem => (h item hitem).not_isArrayMeta]
    exact (List.map_congr_left ih).trans (List.map_id _)
  | @obj fields hk h ih =>
    refine congrArg Json.obj ?_
    induction fields with
    | nil => rfl
    | cons f fields ihfields =>
      obtain ⟨k, v⟩ := f
      rw [List.forall_mem_cons] at hk h ih
      rw [stripFields, if_neg hk.1, ih.1, ihfields hk.2 h.2 ih.2]

end Json

namespace Schema

variable {e inherited : Bool} {old : Option Schema} {v w : Json} {items : List Json}
  {fields : List (String × Json)} {ps : List (String × Schema)} {k : String}

theorem objectSettings?_of_avoids (h : (Json.obj fields).Avoids metaKey) :
    objectSettings? fields = none := by
  rw [objectSettings?, h.get?_self, Option.bind_none]

theorem arraySettings?_of_avoids (h : (Json.arr items).Avoids metaKey) :
    arraySettings? items = none := by
  have hnone : items.find? Json.isArrayMeta = none :=
    List.find?_eq_none.2 fun v hv => by simp [(Json.avoids_arr.1 h v hv).not_isArrayMeta]
  rw [arraySettings?, hnone]
  rfl

theorem mem_addMember {l : List String} {k k' : String} (h : k ∈ l) : k ∈ addMember l k' := by
  unfold addMember
  split
  · exact h
  · exact List.mem_append_left _ h

/-- Without an annotation an object keeps its rules, and may become closed and require more. -/
theorem objectRules_of_avoids (e inherited : Bool) (h : (Json.obj fields).Avoids metaKey)
    (ps : List (String × Schema)) (rules : ObjectRules) :
    let after := objectRules e (some (.object ps rules)) inherited fields
    (rules.extensible = false → after.extensible = false) ∧
      (∀ k ∈ rules.required, k ∈ after.required) ∧ after.template = rules.template := by
  simp only [objectRules, objectSettings?_of_avoids h]
  split
  · exact ⟨fun _ => rfl, fun k hk => mem_addMember (mem_addMember hk), rfl⟩
  · exact ⟨id, fun _ => id, rfl⟩

/-- Without an annotation an array keeps its rules, and may become closed. -/
theorem arrayRules_of_avoids (e inherited : Bool) (h : (Json.arr items).Avoids metaKey)
    (element : Option Schema) (rules : ArrayRules) :
    let after := arrayRules e (some (.array element rules)) inherited items
    (rules.extensible = false → after.extensible = false) ∧
      after.maxLen = rules.maxLen ∧ after.template = rules.template := by
  simp only [arrayRules, arraySettings?_of_avoids h]
  split
  · exact ⟨fun _ => rfl, rfl, rfl⟩
  · exact ⟨id, rfl, rfl⟩

theorem get?_inferFields (h : (Json.obj fields).Avoids metaKey) (k : String) :
    Table.get? (inferFields e ps inherited fields) k =
      (Table.get? fields k).map (infer e (Table.get? ps k) inherited) := by
  rw [Json.avoids_obj] at h
  induction fields with
  | nil => rfl
  | cons f fields ih =>
    obtain ⟨k', v⟩ := f
    obtain ⟨⟨hk', -⟩, h⟩ := List.forall_mem_cons.1 h
    rw [inferFields, if_neg hk', Table.get?_cons, Table.get?_cons, ih h]
    split
    · next hk => rw [hk, Option.map_some]
    · rfl

theorem inferFirst_of_bare (h : ∀ item ∈ items, item.isArrayMeta = false) :
    inferFirst e old inherited items = items.head?.map (infer e old inherited) := by
  cases items with
  | nil => rfl
  | cons v items =>
    rw [inferFirst, if_neg (by simp [h v (.head _)])]
    rfl

/-! ## Templates -/

/-- No template in the schema has a field of this name. -/
inductive TemplatesAvoid (k : String) : Schema → Prop
  | object {ps rules} (ht : ∀ t, rules.template = some t → t.Avoids k)
      (h : ∀ k' S, Table.get? ps k' = some S → TemplatesAvoid k S) :
      TemplatesAvoid k (.object ps rules)
  | array {element rules} (ht : ∀ t, rules.template = some t → t.Avoids k)
      (h : ∀ S, element = some S → TemplatesAvoid k S) : TemplatesAvoid k (.array element rules)
  | scalar {kind} : TemplatesAvoid k (.scalar kind)

theorem TemplatesAvoid.insert {props : List (String × Schema)} {rules : ObjectRules} {T : Schema}
    (h : (Schema.object props rules).TemplatesAvoid k) (hT : T.TemplatesAvoid k) (s : String) :
    (Schema.object (Table.insert props s T) rules).TemplatesAvoid k := by
  obtain ⟨ht, hprops⟩ | _ | _ := h
  refine .object ht fun k' U hU => ?_
  rw [Table.get?_insert] at hU
  split at hU
  · cases hU
    exact hT
  · exact hprops k' U hU

theorem TemplatesAvoid.at? {S T : Schema} {p : Path} (h : S.TemplatesAvoid k)
    (hT : S.at? p = some T) : T.TemplatesAvoid k := by
  induction p generalizing S with
  | nil =>
    cases hT
    exact h
  | cons s p ih =>
    obtain ⟨U, hU, hT⟩ := Option.bind_eq_some_iff.1 hT
    refine ih ?_ hT
    cases h with
    | object _ h => exact h _ U hU
    | array _ h =>
      obtain ⟨_, -, hU⟩ := Option.bind_eq_some_iff.1 hU
      exact h U hU
    | scalar => cases hU

theorem TemplatesAvoid.template? {S : Schema} (h : S.TemplatesAvoid k) {t : Json}
    (ht : S.template? = some t) : t.Avoids k := by
  cases h with
  | object h => exact h t ht
  | array h => exact h t ht
  | scalar => cases ht

/-- Without an annotation the template of an object is the one that it has had. -/
theorem template_objectRules {t : Json} (h : (Json.obj fields).Avoids metaKey)
    (ht : (objectRules e old inherited fields).template = some t) :
    ∃ ps rules, old = some (.object ps rules) ∧ rules.template = some t := by
  match old with
  | some (.object ps rules) =>
    rw [(objectRules_of_avoids e _ h ps rules).2.2] at ht
    exact ⟨ps, rules, rfl, ht⟩
  | none | some (.array ..) | some (.scalar _) =>
    simp only [objectRules, objectSettings?_of_avoids h] at ht
    split at ht <;> cases ht

theorem template_arrayRules {t : Json} (h : (Json.arr items).Avoids metaKey)
    (ht : (arrayRules e old inherited items).template = some t) :
    ∃ element rules, old = some (.array element rules) ∧ rules.template = some t := by
  match old with
  | some (.array element rules) =>
    rw [(arrayRules_of_avoids e _ h element rules).2.2] at ht
    exact ⟨element, rules, rfl, ht⟩
  | none | some (.object ..) | some (.scalar _) =>
    simp only [arrayRules, arraySettings?_of_avoids h] at ht
    split at ht <;> cases ht

/-- Without annotations templates are only taken over. -/
theorem infer_templatesAvoid (hv : v.Avoids metaKey)
    (hold : ∀ S, old = some S → S.TemplatesAvoid k) :
    (infer e old inherited v).TemplatesAvoid k := by
  induction hv generalizing old inherited with
  | @scalar v hv =>
    cases v with
    | arr | obj => cases hv
    | _ => exact .scalar
  | @arr items h ih =>
    have hitems : (Json.arr items).Avoids metaKey := .arr h
    rw [infer]
    refine .array (fun t ht => ?_) fun S hS => ?_
    · obtain ⟨element, rules, rfl, htemplate⟩ := template_arrayRules hitems ht
      cases hold _ rfl with
      | array hrules _ => exact hrules t htemplate
    · rw [inferFirst_of_bare fun item hitem => (h item hitem).not_isArrayMeta] at hS
      obtain ⟨v, hv, rfl⟩ := Option.map_eq_some_iff.1 hS
      refine ih v (List.mem_of_head? hv) fun T hT => ?_
      match old, hT with
      | some (.array element rules), hT =>
        cases hold _ rfl with
        | array _ helement => exact helement T hT
  | @obj fields hk h ih =>
    have hfields : (Json.obj fields).Avoids metaKey := .obj hk h
    rw [infer]
    refine .object (fun t ht => ?_) fun k' S hS => ?_
    · obtain ⟨ps, rules, rfl, htemplate⟩ := template_objectRules hfields ht
      cases hold _ rfl with
      | object hrules _ => exact hrules t htemplate
    · rw [get?_inferFields hfields] at hS
      obtain ⟨v, hv, rfl⟩ := Option.map_eq_some_iff.1 hS
      refine ih _ (Table.mem_of_get? hv) fun T hT => ?_
      match old, hT with
      | some (.object ps rules), hT =>
        cases hold _ rfl with
        | object _ hps => exact hps k' T hT

/-! ## Bringing a schema up to date -/

variable {S : Schema} {p : Path}

theorem refresh_data (hw : w.Avoids metaKey) : (refresh e inherited S w p).2 = w := by
  refine refresh_induction (motive := fun _ w r => w.Avoids metaKey → r.2 = w)
    ?anew ?missing ?new ?field inherited S w p hw
  case anew => exact fun _ _ _ hw => hw.stripMeta
  case missing => exact fun _ _ _ _ _ _ => rfl
  case new =>
    intro _ _ _ fields k c hc hw
    simp only [(hw.field hc).2.stripMeta, Table.insert_of_get? hc]
  case field =>
    intro _ _ fields k c _ r hc _ ih hw
    simp only [ih (hw.field hc).2, Table.insert_of_get? hc]

theorem refresh_templatesAvoid (hw : w.Avoids metaKey) (hS : S.TemplatesAvoid k) :
    (refresh e inherited S w p).1.TemplatesAvoid k := by
  refine refresh_induction
    (motive := fun S w r => w.Avoids metaKey → S.TemplatesAvoid k → r.1.TemplatesAvoid k)
    ?anew ?missing ?new ?field inherited S w p hw hS
  case anew => exact fun _ S w hw hS => infer_templatesAvoid hw fun _ h => Option.some.inj h ▸ hS
  case missing =>
    rintro props rules fields s - - (⟨ht, hprops⟩ | _ | _)
    refine .object ht fun k' T hT => ?_
    rw [Table.get?_erase] at hT
    split at hT
    · cases hT
    · exact hprops k' T hT
  case new =>
    intro _ _ _ _ s c hc hw hS
    exact hS.insert (infer_templatesAvoid (hw.field hc).2 fun _ h => by cases h) s
  case field =>
    intro _ _ _ s c T _ hc hT ih hw hS
    refine hS.insert (ih (hw.field hc).2 ?_) s
    obtain ⟨-, hprops⟩ | _ | _ := hS
    exact hprops _ T hT

end Schema

end StatVars
