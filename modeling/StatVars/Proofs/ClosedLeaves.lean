import StatVars.Proofs.Descriptions
import StatVars.Proofs.Guards

/-!
# Described values are closed

Where the schema of a described value is inferred, it accepts no member and, for a record, requires
both fields. It is inferred when the value comes to be, unless a change within an object makes the
object a described record, or an annotation makes it look like another object at that time. Main
statement: `Bundle.described_closed`.
-/

namespace StatVars

namespace Json

/-- What the path leads to is no described value that carries an annotation. -/
def BareAt (v : Json) (p : Path) : Prop :=
  ∀ w, v.get? p = some w → w.stripMeta.isDescribed → w.isDescribed

/-- A change at `r`, within what `p` leads to, makes that a described record. -/
def CompletedWithin (p : Path) (v : Json) (r : Path) (w : Json) : Prop :=
  p.map Step.asKey <+: r.map Step.asKey ∧ p.length < r.length ∧
    ∃ old fields, v.get? p = some old ∧ old.isDescribed = false ∧
      w.get? p = some (.obj fields) ∧ (Json.obj fields).isDescribed

variable {v c w d : Json} {fields fields' : List (String × Json)} {s t : Step} {p r : Path}

theorem Avoids.bareAt (h : v.Avoids metaKey) (p : Path) : v.BareAt p := by
  intro w hw hdescribed
  rwa [(h.get? hw).stripMeta] at hdescribed

theorem BareAt.field (h : (Json.obj fields).BareAt (s :: p))
    (hc : Table.get? fields s.asKey = some c) : c.BareAt p := by
  intro w hw
  refine h w ?_
  rw [get?, child?, hc]
  exact hw

theorem isDescribed_of_not_completedWithin (h : ¬ CompletedWithin [] v (s :: r) (.obj fields))
    (hdescribed : (Json.obj fields).isDescribed) : v.isDescribed := by
  cases hv : v.isDescribed with
  | true => rfl
  | false =>
    exact absurd ⟨List.nil_prefix, Nat.succ_pos _, v, fields, rfl, hv, rfl, hdescribed⟩ h

theorem CompletedWithin.field (hc : Table.get? fields t.asKey = some c)
    (hd : Table.get? fields' t.asKey = some d) (hs : t.asKey = s.asKey)
    (h : CompletedWithin p c r d) :
    CompletedWithin (t :: p) (.obj fields) (s :: r) (.obj fields') := by
  obtain ⟨hwithin, hlength, old, leaf, hold, hplain, hleaf, hdescribed⟩ := h
  refine ⟨List.cons_prefix_cons.2 ⟨hs, hwithin⟩, Nat.succ_lt_succ hlength, old, leaf, ?_, hplain,
    ?_, hdescribed⟩
  · rw [get?, child?, hc]
    exact hold
  · rw [get?, child?, hd]
    exact hleaf

end Json

namespace Schema

/-- The schema of a described value lets none of its members go and takes none. -/
inductive ClosedOver : Schema → Json → Prop
  | pair {element rules items} (hclosed : rules.extensible = false) :
      ClosedOver (.array element rules) (.arr items)
  | record {props rules fields} (hclosed : rules.extensible = false)
      (hvalue : "value" ∈ rules.required) (htext : "description" ∈ rules.required) :
      ClosedOver (.object props rules) (.obj fields)

section

variable {S T : Schema} {v leaf : Json} {s : Step} {p : Path} {props : List (String × Schema)}
  {rules : ObjectRules} {fields : List (String × Json)}

theorem reaches_nil : Reaches S v [] T leaf ↔ T = S ∧ leaf = v := by
  constructor
  · intro h
    cases h
    exact ⟨rfl, rfl⟩
  · rintro ⟨rfl, rfl⟩
    exact .here

theorem reaches_field : Reaches (.object props rules) (.obj fields) (s :: p) T leaf ↔
    ∃ U c, Table.get? props s.asKey = some U ∧ Table.get? fields s.asKey = some c ∧
      Reaches U c p T leaf := by
  constructor
  · intro h
    cases h with
    | field hU hc h => exact ⟨_, _, hU, hc, h⟩
  · rintro ⟨U, c, hU, hc, h⟩
    exact .field hU hc h

end

/-- Where a described value stands at the path, its schema is closed. -/
def ClosedAt (S : Schema) (v : Json) (p : Path) : Prop :=
  ∀ T leaf, Reaches S v p T leaf → leaf.isDescribed → T.ClosedOver leaf

variable {e inherited : Bool} {S T : Schema} {old : Option Schema} {v w leaf : Json} {s : Step}
  {p r : Path} {props : List (String × Schema)} {rules : ObjectRules}
  {fields : List (String × Json)}

theorem mem_addMember_self (l : List String) (k : String) : k ∈ addMember l k := by
  unfold addMember
  split
  · next h => exact List.contains_iff_mem.1 h
  · exact List.mem_append_right _ List.mem_cons_self

/-- The schema that is inferred for a described value is closed. -/
theorem infer_closedOver (e inherited : Bool) (old : Option Schema) (h : v.isDescribed) :
    (infer e old inherited v).ClosedOver v := by
  cases v with
  | obj fields =>
    rw [infer]
    have hrules : objectRules e old inherited fields = _ := if_pos h
    rw [hrules]
    exact .record rfl (mem_addMember (mem_addMember_self ..)) (mem_addMember_self ..)
  | arr items =>
    rw [infer]
    have hrules : arrayRules e old inherited items = _ := if_pos h
    rw [hrules]
    exact .pair rfl
  | _ => cases h

theorem get?_inferFields_of_ne {k : String} (hk : k ≠ metaKey) (ps : List (String × Schema))
    (fields : List (String × Json)) :
    Table.get? (inferFields e ps inherited fields) k =
      (Table.get? fields k).map (infer e (Table.get? ps k) inherited) := by
  induction fields with
  | nil => rfl
  | cons f fields ih =>
    obtain ⟨k', v⟩ := f
    rw [inferFields, Table.get?_cons]
    by_cases hmeta : k' = metaKey
    · have hne : k' ≠ k := fun h => hk (h ▸ hmeta)
      rw [if_pos hmeta, if_neg hne, ih]
    · rw [if_neg hmeta, Table.get?_cons, ih]
      split
      · next h => rw [h, Option.map_some]
      · rfl

theorem infer_closedAt (e inherited : Bool) (old : Option Schema) (h : v.BareAt p) :
    (infer e old inherited v).ClosedAt v.stripMeta p := by
  intro T leaf hreach hleaf
  induction p generalizing v old inherited with
  | nil =>
    obtain ⟨rfl, rfl⟩ := reaches_nil.1 hreach
    have hdescribed := h v rfl hleaf
    obtain ⟨place, text, hplace⟩ := Json.isDescribed_iff.1 hdescribed
    rw [hplace.avoids.stripMeta]
    exact infer_closedOver e inherited old hdescribed
  | cons s p ih =>
    cases v with
    | obj fields =>
      rw [infer, Json.stripMeta, reaches_field] at hreach
      obtain ⟨U, c, hU, hc, hrest⟩ := hreach
      have hs : s.asKey ≠ metaKey := by
        intro hs
        rw [hs, (Json.stripFields_avoids fields).get?_self] at hc
        cases hc
      rw [Json.get?_stripFields hs] at hc
      obtain ⟨d, hd, rfl⟩ := Option.map_eq_some_iff.1 hc
      rw [get?_inferFields_of_ne hs, hd, Option.map_some] at hU
      cases hU
      exact ih _ _ (h.field hd) hrest
    | arr items =>
      rw [infer, Json.stripMeta] at hreach
      cases hreach
    | _ => cases hreach

/-- What a change of one field of an object has to keep so that the schema stays closed at the
path: if the object is a described record behind it, it was one before, and the schema is closed in
the field. -/
theorem ClosedAt.of_field {props' : List (String × Schema)} {fields' : List (String × Json)}
    (h : ClosedAt (.object props rules) (.obj fields) p)
    (hprops : ∀ k, s.asKey ≠ k → Table.get? props' k = Table.get? props k)
    (hfields : ∀ k, s.asKey ≠ k → Table.get? fields' k = Table.get? fields k)
    (hhere : p = [] → (Json.obj fields').isDescribed → (Json.obj fields).isDescribed)
    (hthere : ∀ t q, p = t :: q → s.asKey = t.asKey → ∀ U c, Table.get? props' s.asKey = some U →
      Table.get? fields' s.asKey = some c → U.ClosedAt c q) :
    ClosedAt (.object props' rules) (.obj fields') p := by
  intro T leaf hreach hleaf
  cases p with
  | nil =>
    obtain ⟨rfl, rfl⟩ := reaches_nil.1 hreach
    cases h _ _ .here (hhere rfl hleaf) with
    | record hclosed hvalue htext => exact .record hclosed hvalue htext
  | cons t q =>
    obtain ⟨U, c, hU, hc, hrest⟩ := reaches_field.1 hreach
    by_cases ht : s.asKey = t.asKey
    · rw [← ht] at hU hc
      exact hthere t q rfl ht U c hU hc T leaf hrest hleaf
    · rw [hprops _ ht] at hU
      rw [hfields _ ht] at hc
      exact h T leaf (.field hU hc hrest) hleaf

/-- A change leaves the schema closed at the path unless it completes a record there. -/
theorem refresh_closedAt (e inherited : Bool) {R : Option Schema} (hfits : S.Fits v)
    (hedit : Json.Edited R v r w) (hbare : w.BareAt p) (hclosed : S.ClosedAt v p)
    (hwhole : ¬ Json.CompletedWithin p v r (refresh e inherited S w r).2) :
    (refresh e inherited S w r).1.ClosedAt (refresh e inherited S w r).2 p := by
  induction hedit generalizing S inherited p with
  | here => exact infer_closedAt e inherited _ hbare
  | item | newItem | noItem =>
    cases hfits with
    | array =>
      rw [refresh_array]
      exact infer_closedAt e inherited _ hbare
    | scalar hv => cases hv
  | @field _ fields s r c d hc h ih =>
    cases hfits with
    | scalar hv => cases hv
    | @object props rules _ hfields =>
      obtain ⟨T, hT, hfits⟩ := hfields.property hc
      have hd : Table.get? (Table.insert fields s.asKey d) s.asKey = some d :=
        Table.get?_insert_self ..
      rw [refresh_field hd hT, Table.insert_insert] at hwhole ⊢
      refine hclosed.of_field (s := s) (fun k hk => ?_) (fun k hk => ?_) (fun hp => ?_)
        fun t q hp ht U c' hU hc' => ?_
      · rw [Table.get?_insert, if_neg hk]
      · rw [Table.get?_insert, if_neg hk]
      · subst hp
        exact Json.isDescribed_of_not_completedWithin hwhole
      · subst hp
        rw [Table.get?_insert_self] at hU hc'
        cases hU
        cases hc'
        rw [ht] at hc hT
        have hbelow : ClosedAt _ c q := fun U leaf h => hclosed U leaf (.field hT hc h)
        refine ih _ hfits (hbare.field (ht ▸ hd)) hbelow ?_
        intro hcompleted
        refine hwhole (hcompleted.field hc ?_ ht.symm)
        rw [ht, Table.get?_insert_self]
  | @newField _ fields s r d hs =>
    cases hfits with
    | scalar hv => cases hv
    | @object props rules _ hfields =>
      have hd : Table.get? (Table.insert fields s.asKey d) s.asKey = some d :=
        Table.get?_insert_self ..
      rw [refresh_new hd (hfields.no_property hs), Table.insert_insert] at hwhole ⊢
      refine hclosed.of_field (s := s) (fun k hk => ?_) (fun k hk => ?_) (fun hp => ?_)
        fun t q hp ht U c hU hc => ?_
      · rw [Table.get?_insert, if_neg hk]
      · rw [Table.get?_insert, if_neg hk]
      · subst hp
        exact Json.isDescribed_of_not_completedWithin hwhole
      · subst hp
        rw [Table.get?_insert_self] at hU hc
        cases hU
        cases hc
        exact infer_closedAt e _ none (hbare.field (ht ▸ hd))
  | @noField _ fields s c hs =>
    cases hfits with
    | scalar hv => cases hv
    | @object props rules _ hfields =>
      have hgone : Table.get? (Table.erase fields s.asKey) s.asKey = none := by
        rw [Table.get?_erase, if_pos rfl]
      rw [refresh_missing hgone] at hwhole ⊢
      refine hclosed.of_field (s := s) (fun k hk => ?_) (fun k hk => ?_) (fun hp => ?_)
        fun t q hp ht U c hU hc => ?_
      · rw [Table.get?_erase, if_neg hk]
      · rw [Table.get?_erase, if_neg hk]
      · subst hp
        exact Json.isDescribed_of_not_completedWithin hwhole
      · rw [hgone] at hc
        cases hc

end Schema

/-! ## Deleting from a described value -/

namespace Schema

variable {S T : Schema} {v leaf : Json} {p : Path}

/-- No member of a closed value can be removed. -/
theorem ClosedOver.checkDelete (h : T.ClosedOver leaf) (hT : S.at? p = some T)
    (hleaf : v.get? p = some leaf) (s : Step) : S.checkDelete v (p.child s) ≠ .ok () := by
  have hsplit : (p.child s).splitLast? = some (p, s) := by
    simp [Path.child, Path.splitLast?]
  cases hmember : v.resolves (p.child s) with
  | false => simp [Schema.checkDelete, hsplit, hmember]
  | true =>
    cases h with
    | pair hclosed => simp [Schema.checkDelete, hsplit, hmember, hleaf, hT, hclosed]
    | record hclosed => simp [Schema.checkDelete, hsplit, hmember, hleaf, hT, hclosed]

end Schema

/-! ## Running commands -/

namespace Variables

variable {c : Config} {vars : Variables} {p : Path} {command : Command} {commands : List Command}

/-- The document that a command leaves, before annotations in it take effect. -/
def written? (c : Config) (vars : Variables) (command : Command) : Option Json :=
  match Path.parse command.path with
  | .error _ => none
  | .ok p =>
    match command.attempt c p vars with
    | (.error _, _) => none
    | (.ok _, after) => some after.data

/-- The command leaves no annotated described value at the path, and does not make what is there a
described record by a change within it. -/
structure KeepsLeaf (c : Config) (vars : Variables) (p : Path) (command : Command) : Prop where
  bare : ∀ data, vars.written? c command = some data → data.BareAt p
  whole : ∀ r, (vars.run c command).2.path = some r →
    ¬ Json.CompletedWithin p vars.data r (vars.run c command).1.data

theorem KeepsLeaf.closedAt (h : vars.KeepsLeaf c p command) (hfits : vars.schema.Fits vars.data)
    (hclosed : vars.schema.ClosedAt vars.data p) :
    (vars.run c command).1.schema.ClosedAt (vars.run c command).1.data p := by
  obtain ⟨q, e, hrun⟩ | ⟨q, change, after, hpath, hattempt, hrun⟩ := vars.run_cases c command
  · rw [hrun]
    exact hclosed
  · obtain ⟨data, rfl, hdoes⟩ := Command.does_of_attempt hattempt
    have hbare := h.bare data (by simp only [written?, hpath, hattempt])
    have hwhole := h.whole change.path (by rw [hrun])
    rw [hrun] at hwhole ⊢
    simp only [reconcile, Schema.reconcile_eq_refresh hfits hdoes.edited] at hwhole ⊢
    exact Schema.refresh_closedAt _ _ hfits hdoes.edited hbare hclosed hwhole

theorem runAll_closedAt (hfits : vars.schema.Fits vars.data)
    (hclosed : vars.schema.ClosedAt vars.data p)
    (hkeeps : ∀ before command after, commands = before ++ command :: after →
      (vars.runAll c before).1.KeepsLeaf c p command) :
    (vars.runAll c commands).1.schema.ClosedAt (vars.runAll c commands).1.data p := by
  induction commands generalizing vars with
  | nil => exact hclosed
  | cons command commands ih =>
    have hfirst : vars.KeepsLeaf c p command := hkeeps [] command commands rfl
    rw [runAll_cons]
    refine ih (run_fits c hfits command) (hfirst.closedAt hfits hclosed) ?_
    rintro before command' after rfl
    exact hkeeps (command :: before) command' after rfl

end Variables

namespace Bundle

variable {c : Config} {e : Bool} {document leaf : Json} {p : Path} {commands : List Command}

/-- **Described values are closed.** After any commands that are run on the bundle of a document,
the schema of a described value that fields lead to accepts no member and requires both fields of a
record, so none of its members can be deleted. This holds if the value has not carried an annotation
when its schema was inferred, and has not become a described record by a change of one of its
fields. -/
theorem described_closed (hdocument : document.BareAt p)
    (hcommands : ∀ before command after, commands = before ++ command :: after →
      ((ofDocument e document).apply c before).1.KeepsLeaf c p command)
    (hp : ((ofDocument e document).apply c commands).1.data.throughFields p)
    (hleaf : ((ofDocument e document).apply c commands).1.data.get? p = some leaf)
    (hdescribed : leaf.isDescribed) :
    let b := ((ofDocument e document).apply c commands).1
    ∃ T, b.schema.at? p = some T ∧ T.ClosedOver leaf ∧
      ∀ s, b.schema.checkDelete b.data (p.child s) ≠ .ok () := by
  intro b
  have hfits := (Reachable.ofDocument e document).fits
  have hclosed : b.schema.ClosedAt b.data p := Variables.runAll_closedAt hfits
    (Schema.infer_closedAt e false none hdocument) hcommands
  obtain ⟨T, hreach⟩ := ((Reachable.ofDocument e document).apply c commands).fits.reaches hp hleaf
  have hT := (hreach.get? rfl).2
  have hover := hclosed T leaf hreach hdescribed
  exact ⟨T, hT, hover, hover.checkDelete hT hleaf⟩

/-- A described value is set and raised, and its description cannot be deleted. -/
theorem described_closed_raised :
    let b := ofDocument true (.obj [("hp", .ofNat 1)])
    let record (n : Nat) := Json.obj [("value", .ofNat n), ("description", .str "health")]
    let create : Command := ⟨.set, "hp", [.literal (.value (record 2))], none⟩
    let raise : Command := ⟨.set, "hp.value", [.literal (.value (.ofNat 3))], none⟩
    let after := (b.apply {} [create, raise]).1
    after.data.get? [.key "hp"] = some (record 3) ∧
      ∃ T, after.schema.at? [.key "hp"] = some T ∧ T.ClosedOver (record 3) ∧
        ∀ s, after.schema.checkDelete after.data [.key "hp", s] ≠ .ok () := by
  intro b record create raise after
  have hleaf : after.data.get? [.key "hp"] = some (record 3) := by decide +kernel
  have hcreate : b.KeepsLeaf {} [.key "hp"] create := by
    refine ⟨fun data hdata w hw => ?_, fun r hr hcompleted => ?_⟩
    · have hdata' : b.written? {} create = some (.obj [("hp", record 2)]) := by decide +kernel
      cases hdata.symm.trans hdata'
      cases hw
      exact id
    · have hr' : (b.run {} create).2.path = some [.key "hp"] := by decide +kernel
      cases hr.symm.trans hr'
      exact absurd hcompleted.2.1 (Nat.lt_irrefl _)
  have hraise : (b.apply {} [create]).1.KeepsLeaf {} [.key "hp"] raise := by
    refine ⟨fun data hdata w hw => ?_, fun r _ hcompleted => ?_⟩
    · have hdata' : (b.apply {} [create]).1.written? {} raise = some (.obj [("hp", record 3)]) := by
        decide +kernel
      cases hdata.symm.trans hdata'
      cases hw
      exact id
    · obtain ⟨-, -, old, fields, hold, hplain, -⟩ := hcompleted
      have hold' : (b.apply {} [create]).1.data.get? [.key "hp"] = some (record 2) := by
        decide +kernel
      cases hold.symm.trans hold'
      cases hplain
  have hdocument : (Json.obj [("hp", .ofNat 1)]).BareAt [.key "hp"] :=
    (Json.avoids_obj.2 (List.forall_mem_singleton.2 ⟨by decide, .scalar rfl⟩)).bareAt _
  have hcommands (before : List Command) (command : Command) (rest : List Command)
      (hsplit : [create, raise] = before ++ command :: rest) :
      (b.apply {} before).1.KeepsLeaf {} [.key "hp"] command := by
    match before, hsplit with
    | [], hsplit =>
      cases hsplit
      exact hcreate
    | [_], hsplit =>
      cases hsplit
      exact hraise
    | _ :: _ :: _, hsplit => simp at hsplit
  exact ⟨hleaf, described_closed hdocument hcommands (by decide +kernel) hleaf rfl⟩

/-- A value that joins the description completes the record, and its schema stays open. -/
example :
    let b := ofDocument true (.obj [("hp", .obj [("description", .str "health")])])
    let create : Command := ⟨.set, "hp.value", [.literal (.value (.ofNat 2))], none⟩
    let after := (b.apply {} [create]).1
    after.data = .obj [("hp", .obj [("description", .str "health"), ("value", .ofNat 2)])] ∧
      after.schema.checkDelete after.data [.key "hp", .key "description"] = .ok () :=
  ⟨by decide +kernel, rfl⟩

/-- With an annotation the record has three fields when its schema is inferred. -/
example :
    let annotated := Json.obj
      [("$meta", .obj []), ("value", .ofNat 1), ("description", .str "health")]
    let b := ofDocument true (.obj [("hp", annotated)])
    b.schema.checkDelete b.data [.key "hp", .key "description"] = .ok () :=
  rfl

end Bundle

end StatVars
