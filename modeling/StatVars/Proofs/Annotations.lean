import StatVars.Proofs.Unannotated

/-!
# Annotations that stay in documents

Annotations are removed where the schema is inferred anew, which covers every value that a command
writes. What it does not cover is a field of the name `$meta` that the path of a command or the name
of an inserted field brings in: the field itself stays. So no item of an array is an annotation, and
every field `$meta` of a document is one that an applied command has named. Main statement:
`Bundle.annotations_named`.
-/

namespace StatVars

namespace Json

/-- A field `$meta` in the value is one of an object that no array is around, and the names that
lead to it are among those that `named` says. -/
inductive AnnotatedOnly : (named : List String → Prop) → Json → Prop
  | scalar {named v} (hv : v.isScalar) : AnnotatedOnly named v
  | arr {named items} (h : (Json.arr items).Avoids metaKey) : AnnotatedOnly named (.arr items)
  | obj {named fields} (hk : ∀ f ∈ fields, f.1 = metaKey → named [metaKey])
      (h : ∀ f ∈ fields, AnnotatedOnly (fun q => named (f.1 :: q)) f.2) :
      AnnotatedOnly named (.obj fields)

variable {named named' : List String → Prop} {v w c d : Json} {s : Step} {p q : Path}
  {items : List Json} {fields : List (String × Json)}

theorem annotatedOnly_obj : (Json.obj fields).AnnotatedOnly named ↔
    ∀ f ∈ fields, (f.1 = metaKey → named [metaKey]) ∧
      f.2.AnnotatedOnly fun q => named (f.1 :: q) := by
  refine ⟨fun h f hf => ?_, fun h => .obj (fun f hf => (h f hf).1) fun f hf => (h f hf).2⟩
  cases h with
  | scalar hv => cases hv
  | obj hk h => exact ⟨hk f hf, h f hf⟩

theorem AnnotatedOnly.avoids_arr (h : (Json.arr items).AnnotatedOnly named) :
    (Json.arr items).Avoids metaKey := by
  cases h with
  | scalar hv => cases hv
  | arr h => exact h

theorem Avoids.annotatedOnly (h : v.Avoids metaKey) : v.AnnotatedOnly named := by
  induction h generalizing named with
  | scalar hv => exact .scalar hv
  | arr h => exact .arr (.arr h)
  | obj hk _ ih => exact .obj (fun f hf hmeta => absurd hmeta (hk f hf)) fun f hf => ih f hf

theorem AnnotatedOnly.mono (h : v.AnnotatedOnly named) (hnamed : ∀ q, named q → named' q) :
    v.AnnotatedOnly named' := by
  induction h generalizing named' with
  | scalar hv => exact .scalar hv
  | arr h => exact .arr h
  | obj hk _ ih =>
    exact .obj (fun f hf hmeta => hnamed _ (hk f hf hmeta)) fun f hf => ih f hf fun q => hnamed _

/-- A value has no field `$meta` if no names that lead to one are named. -/
theorem AnnotatedOnly.avoids (h : v.AnnotatedOnly named) (hnamed : ∀ q, named q → metaKey ∉ q) :
    v.Avoids metaKey := by
  induction h with
  | scalar hv => exact .scalar hv
  | arr h => exact h
  | obj hk _ ih =>
    refine .obj (fun f hf hmeta => ?_) fun f hf => ih f hf fun q hq => ?_
    · exact hnamed _ (hk f hf hmeta) (List.mem_singleton_self _)
    · exact fun hmem => hnamed _ hq (List.mem_cons_of_mem _ hmem)

theorem AnnotatedOnly.get?_obj (h : v.AnnotatedOnly named) (hv : v.get? q = some (.obj fields))
    (hmeta : Table.contains fields metaKey) : named (q.map Step.asKey ++ [metaKey]) := by
  induction q generalizing v named with
  | nil =>
    cases hv
    obtain ⟨c, hc⟩ := Option.isSome_iff_exists.1 hmeta
    exact (annotatedOnly_obj.1 h _ (Table.mem_of_get? hc)).1 rfl
  | cons s q ih =>
    obtain ⟨c, hc, hrest⟩ := Option.bind_eq_some_iff.1 hv
    cases v with
    | obj fields' => exact ih (annotatedOnly_obj.1 h _ (Table.mem_of_get? hc)).2 hrest
    | arr items =>
      -- There is no such field inside an array.
      have hobj := (h.avoids_arr.child? hc).get? hrest
      rw [Table.contains, hobj.get?_self] at hmeta
      cases hmeta
    | _ => cases hc

theorem AnnotatedOnly.get?_arr (h : v.AnnotatedOnly named) (hv : v.get? q = some (.arr items)) :
    (Json.arr items).Avoids metaKey := by
  induction q generalizing v named with
  | nil =>
    cases hv
    exact h.avoids_arr
  | cons s q ih =>
    obtain ⟨c, hc, hrest⟩ := Option.bind_eq_some_iff.1 hv
    cases v with
    | obj fields' => exact ih (annotatedOnly_obj.1 h _ (Table.mem_of_get? hc)).2 hrest
    | arr items' => exact (h.avoids_arr.child? hc).get? hrest
    | _ => cases hc

theorem AnnotatedOnly.insert (h : (Json.obj fields).AnnotatedOnly named) {k : String}
    (hk : k = metaKey → named [metaKey]) (hw : w.AnnotatedOnly fun q => named (k :: q)) :
    (Json.obj (Table.insert fields k w)).AnnotatedOnly named := by
  refine annotatedOnly_obj.2 fun f hf => ?_
  rcases Table.mem_insert hf with hf | rfl
  · exact annotatedOnly_obj.1 h f hf
  · exact ⟨hk, hw⟩

end Json

namespace Schema

variable {named : List String → Prop} {e inherited : Bool} {R : Option Schema} {S : Schema}
  {v w : Json} {p : Path}

/-- Bringing the schema up to date after a change at a path leaves no field `$meta` that was not
there before, unless it is on the path. -/
theorem refresh_annotatedOnly (hfits : S.Fits v) (h : Json.Edited R v p w)
    (hv : v.AnnotatedOnly named) :
    (refresh e inherited S w p).2.AnnotatedOnly fun q => named q ∨ q <+: p.map Step.asKey := by
  induction h generalizing S inherited named with
  | here => exact (Json.stripMeta_avoids _).annotatedOnly
  | item | newItem | noItem =>
    cases hfits with
    | array =>
      rw [refresh_array]
      exact (Json.stripMeta_avoids _).annotatedOnly
    | scalar hv => cases hv
  | @field _ fields s p c d hc h ih =>
    cases hfits with
    | scalar hv => cases hv
    | object hfields =>
      obtain ⟨T, hT, hfits⟩ := hfields.property hc
      obtain ⟨hmeta, hc⟩ := Json.annotatedOnly_obj.1 hv _ (Table.mem_of_get? hc)
      rw [refresh_field (Table.get?_insert_self ..) hT, Table.insert_insert]
      refine (hv.mono fun q => .inl).insert (fun hs => .inl (hmeta hs)) ?_
      refine (ih hfits hc).mono fun q hq => hq.imp_right fun hq => ?_
      exact List.cons_prefix_cons.2 ⟨rfl, hq⟩
  | @newField _ fields s p d hs =>
    cases hfits with
    | scalar hv => cases hv
    | object hfields =>
      rw [refresh_new (Table.get?_insert_self ..) (hfields.no_property hs), Table.insert_insert]
      refine (hv.mono fun q => .inl).insert (fun hmeta => .inr ?_)
        (Json.stripMeta_avoids _).annotatedOnly
      rw [List.map_cons, hmeta]
      exact List.cons_prefix_cons.2 ⟨rfl, List.nil_prefix⟩
  | @noField _ fields s =>
    cases hfits with
    | scalar hv => cases hv
    | object hfields =>
      rw [refresh_missing (by rw [Table.get?_erase, if_pos rfl])]
      have hkept : (Json.obj fields).AnnotatedOnly
          fun q => named q ∨ q <+: [s].map Step.asKey :=
        hv.mono fun q => .inl
      refine Json.annotatedOnly_obj.2 fun f hf => ?_
      exact Json.annotatedOnly_obj.1 hkept f (List.mem_filter.1 hf).1

end Schema

/-- The result is that of a change whose path begins with these names. -/
def Command.Result.Names (r : Command.Result) (q : List String) : Prop :=
  r.applied ∧ ∃ p, r.path = some p ∧ q <+: p.map Step.asKey

namespace Variables

variable (c : Config) {vars : Variables} {named : List String → Prop}

theorem run_annotatedOnly (hfits : vars.schema.Fits vars.data)
    (h : vars.data.AnnotatedOnly named) (command : Command) :
    (vars.run c command).1.data.AnnotatedOnly
      fun q => named q ∨ (vars.run c command).2.Names q := by
  obtain ⟨p, e, hrun⟩ | ⟨p, change, after, -, hattempt, hrun⟩ := vars.run_cases c command
  · rw [hrun]
    exact h.mono fun q => .inl
  · obtain ⟨data, rfl, hdoes⟩ := Command.does_of_attempt hattempt
    rw [hrun]
    simp only [reconcile, Schema.reconcile_eq_refresh hfits hdoes.edited]
    refine (Schema.refresh_annotatedOnly hfits hdoes.edited h).mono fun q hq => ?_
    exact hq.imp_right fun hq => ⟨rfl, _, rfl, hq⟩

theorem runAll_annotatedOnly (hfits : vars.schema.Fits vars.data)
    (h : vars.data.AnnotatedOnly named) (commands : List Command) :
    (vars.runAll c commands).1.data.AnnotatedOnly
      fun q => named q ∨ ∃ r ∈ (vars.runAll c commands).2, r.Names q := by
  induction commands generalizing vars named with
  | nil => exact h.mono fun q => .inl
  | cons command commands ih =>
    rw [runAll_cons]
    refine (ih (run_fits c hfits command) (run_annotatedOnly c hfits h command)).mono fun q hq => ?_
    obtain (hq | hq) | ⟨r, hr, hq⟩ := hq
    · exact .inl hq
    · exact .inr ⟨_, .head _, hq⟩
    · exact .inr ⟨r, .tail _ hr, hq⟩

end Variables

namespace Bundle

/-- **No item of an array is an annotation, and every field `$meta` of a document has been named by
the path of an applied command.** If none of these paths has a step `$meta`, there is nothing to
remove from the document. -/
theorem annotations_named (extensibleByDefault : Bool) (document : Json) (c : Config)
    (commands : List Command) :
    let (after, results) := (ofDocument extensibleByDefault document).apply c commands
    (∀ q items, after.data.get? q = some (.arr items) → ∀ v ∈ items, v.isArrayMeta = false) ∧
      (∀ q fields, after.data.get? q = some (.obj fields) → Table.contains fields metaKey →
        ∃ r ∈ results, r.applied ∧
          ∃ p, r.path = some p ∧ q.map Step.asKey ++ [metaKey] <+: p.map Step.asKey) ∧
      ((∀ r ∈ results, r.applied → ∀ p, r.path = some p → ∀ s ∈ p, s.asKey ≠ metaKey) →
        after.data.stripMeta = after.data) := by
  have hstart : (ofDocument extensibleByDefault document).data.AnnotatedOnly fun _ => False :=
    (Json.stripMeta_avoids document).annotatedOnly
  have hrun := Variables.runAll_annotatedOnly c
    (Reachable.ofDocument extensibleByDefault document).fits hstart commands
  simp only [false_or] at hrun
  refine ⟨fun q items hitems v hv => ?_, fun q fields hfields hmeta => ?_, fun hnames => ?_⟩
  · exact (Json.avoids_arr.1 (hrun.get?_arr hitems) v hv).not_isArrayMeta
  · exact hrun.get?_obj hfields hmeta
  · refine (hrun.avoids fun q hq hmem => ?_).stripMeta
    obtain ⟨r, hr, happlied, p, hp, hleads⟩ := hq
    obtain ⟨s, hs, hmeta⟩ := List.mem_map.1 (hleads.subset hmem)
    exact hnames r hr happlied p hp s hs hmeta

/-- The field `$meta` that an insertion names stays, with the settings in it. -/
theorem annotations_named_insertion :
    let settings : Json := .obj [("extensible", .bool false)]
    let insertion : Command :=
      ⟨.insert, "a", [.literal (.value (.str "$meta")), .literal (.value settings)], none⟩
    let (after, results) := (ofDocument true (.obj [("a", .obj [])])).apply {} [insertion]
    after.data = .obj [("a", .obj [("$meta", settings)])] ∧
      ∃ r ∈ results, r.applied ∧ ∃ p, r.path = some p ∧ ["a", "$meta"] <+: p.map Step.asKey := by
  intro settings insertion
  refine ⟨by decide +kernel, ?_⟩
  have hnamed := annotations_named true (.obj [("a", .obj [])]) {} [insertion]
  exact hnamed.2.1 [.key "a"] [("$meta", settings)] (by decide +kernel) rfl

end Bundle

end StatVars
