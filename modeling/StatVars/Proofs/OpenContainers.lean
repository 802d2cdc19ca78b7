import Mathlib.Data.List.Induction
import StatVars.Proofs.ClosedLeaves

/-!
# Containers that stay open

In a document without annotations, where containers accept new members by default, a container is
closed just if it has been a described value: its schema was closed then, and inferring it anew has
taken that over as long as there was a container of the same kind. `Reaches.of_refresh` says what a
change can do to a schema that fields lead to. Main statement: `Bundle.closed_iff_since_described`.
-/

namespace StatVars

/-! ## What has held since -/

section

variable {α : Type} {begins holds : List α → Prop} {l : List α} {a : α}

/-- Of the beginnings of a list, one is a place where it begins, and it holds from there on. -/
def Since (begins holds : List α → Prop) (l : List α) : Prop :=
  ∃ before after, l = before ++ after ∧ begins before ∧
    ∀ part, part <+: after → holds (before ++ part)

theorem Since.now (h : Since begins holds l) : holds l := by
  obtain ⟨before, after, rfl, -, hholds⟩ := h
  exact hholds after (List.prefix_refl _)

theorem Since.imp {begins' : List α → Prop} (h : Since begins holds l)
    (himp : ∀ before, before <+: l → begins before → holds before → begins' before) :
    Since begins' holds l := by
  obtain ⟨before, after, rfl, hbegins, hholds⟩ := h
  refine ⟨before, after, rfl, himp before (List.prefix_append ..) hbegins ?_, hholds⟩
  have hhere := hholds [] List.nil_prefix
  rwa [List.append_nil] at hhere

theorem since_nil : Since begins holds [] ↔ begins [] ∧ holds [] := by
  constructor
  · intro h
    refine ⟨?_, h.now⟩
    obtain ⟨before, after, hsplit, hbegins, -⟩ := h
    rwa [(List.append_eq_nil_iff.1 hsplit.symm).1] at hbegins
  · rintro ⟨hbegins, hholds⟩
    refine ⟨[], [], rfl, hbegins, fun part hpart => ?_⟩
    rwa [List.prefix_nil.1 hpart]

theorem since_concat : Since begins holds (l ++ [a]) ↔
    (begins (l ++ [a]) ∨ Since begins holds l) ∧ holds (l ++ [a]) := by
  constructor
  · intro h
    refine ⟨?_, h.now⟩
    obtain ⟨before, after, hsplit, hbegins, hholds⟩ := h
    obtain rfl | ⟨rest, b, rfl⟩ := List.eq_nil_or_concat after
    · rw [List.append_nil] at hsplit
      exact .inl (hsplit ▸ hbegins)
    · rw [List.concat_eq_append, ← List.append_assoc] at hsplit
      obtain ⟨rfl, -⟩ := List.append_inj' hsplit rfl
      refine .inr ⟨before, rest, rfl, hbegins, fun part hpart => hholds part ?_⟩
      exact hpart.trans (List.prefix_concat ..)
  · rintro ⟨hbegins | ⟨before, after, rfl, hbegins, hholds⟩, hnow⟩
    · refine ⟨l ++ [a], [], by simp, hbegins, fun part hpart => ?_⟩
      rwa [List.prefix_nil.1 hpart, List.append_nil]
    · refine ⟨before, after ++ [a], by simp, hbegins, fun part hpart => ?_⟩
      obtain rfl | hpart := List.prefix_concat_iff.1 hpart
      · rwa [← List.append_assoc]
      · exact hholds part hpart

end

namespace Json

/-- Whether both values are objects or both are arrays. -/
def sameKind : Json → Json → Bool
  | obj _, obj _ => true
  | arr _, arr _ => true
  | _, _ => false

/-- Fields lead to a value with the property. -/
def LeadsTo (v : Json) (p : Path) (P : Json → Prop) : Prop :=
  v.throughFields p ∧ ∃ w, v.get? p = some w ∧ P w

variable {v w : Json}

theorem sameKind_self (hv : v.isScalar = false) : v.sameKind v := by
  cases v with
  | obj | arr => rfl
  | _ => cases hv

theorem sameKind_congr (h : v.sameKind w) (u : Json) : u.sameKind v = u.sameKind w := by
  cases v with
  | obj =>
    cases w with
    | obj => cases u <;> rfl
    | _ => cases h
  | arr =>
    cases w with
    | arr => cases u <;> rfl
    | _ => cases h
  | _ => cases h

theorem sameKind_of_isScalar (hv : v.isScalar) (w : Json) :
    v.sameKind w = false ∧ w.sameKind v = false := by
  cases v with
  | obj | arr => cases hv
  | _ => cases w <;> exact ⟨rfl, rfl⟩

theorem not_isScalar_of_sameKind (h : v.sameKind w) : v.isScalar = false := by
  cases hv : v.isScalar with
  | false => rfl
  | true =>
    rw [(sameKind_of_isScalar hv w).1] at h
    cases h

end Json

namespace Schema

/-- Whether the schema is one of a container that accepts no members. -/
def isClosed : Schema → Bool
  | object _ rules => !rules.extensible
  | array _ rules => !rules.extensible
  | scalar _ => false

/-- How many items there may be at most. -/
def maxLen? : Schema → Option Nat
  | array _ rules => rules.maxLen
  | _ => none

/-- Whether both schemas are those of objects or both are those of arrays. -/
def sameKind : Schema → Schema → Bool
  | object _ _, object _ _ => true
  | array _ _, array _ _ => true
  | _, _ => false

/-- The schema that what the path leads to has had, if `old` is the schema before. -/
def propertyAt (old : Option Schema) : Path → Option Schema
  | [] => old
  | s :: p => propertyAt (Table.get? (properties old) s.asKey) p

/-- The rules of a container without annotations, where `old` is the schema that it has had: it is
closed if it is a described value or if it was closed and has the same kind. -/
structure Follows (old : Option Schema) (T : Schema) (v : Json) : Prop where
  closed : T.isClosed → v.isDescribed ∨ ∃ U, old = some U ∧ U.isClosed ∧ U.sameKind T
  keeps : ∀ U, old = some U → U.isClosed → U.sameKind T → T.isClosed
  maxLen : T.maxLen? = none ∨ ∃ U, old = some U ∧ U.maxLen? = T.maxLen?

variable {e inherited : Bool} {old : Option Schema} {S T U : Schema} {v w c d : Json} {s : Step}
  {p r : Path} {fields : List (String × Json)} {items : List Json}

theorem follows_of_eq (hclosed : U.isClosed = T.isClosed) (hmaxLen : U.maxLen? = T.maxLen?)
    (hkind : T.isClosed → U.sameKind T) (v : Json) : Follows (some U) T v := by
  refine ⟨fun h => .inr ⟨U, rfl, hclosed.trans h, hkind h⟩, ?_, .inr ⟨U, rfl, hmaxLen⟩⟩
  rintro _ ⟨⟩ h -
  exact hclosed.symm.trans h

theorem follows_self (T : Schema) (v : Json) : Follows (some T) T v := by
  refine follows_of_eq rfl rfl (fun hclosed => ?_) v
  cases T with
  | object | array => rfl
  | scalar => cases hclosed

theorem follows_scalar (old : Option Schema) (kind : ScalarKind) (v : Json) :
    Follows old (.scalar kind) v := by
  refine ⟨nofun, fun U _ _ hkind => ?_, .inl rfl⟩
  cases U <;> cases hkind

/-- Without an annotation, the rules start from those that the container has had, or it is open. -/
theorem follows_objectRules (old : Option Schema) (inherited : Bool)
    (h : (Json.obj fields).Avoids metaKey) (props : List (String × Schema)) :
    Follows old (.object props (objectRules true old inherited fields)) (.obj fields) := by
  cases hdescribed : (Json.obj fields).isDescribed with
  | true =>
    have hrules : objectRules true old inherited fields = _ := if_pos hdescribed
    rw [hrules]
    exact ⟨fun _ => .inl hdescribed, fun _ _ _ _ => rfl, .inl rfl⟩
  | false =>
    have hplain : ¬ (Json.obj fields).isDescribed := by simp [hdescribed]
    simp only [objectRules, objectSettings?_of_avoids h, if_neg hplain]
    refine ⟨fun hclosed => .inr ?_, ?_, .inl rfl⟩
    · obtain _ | ⟨ps, rules⟩ | _ | _ := old
      case some.object => exact ⟨_, rfl, hclosed, rfl⟩
      all_goals cases hclosed
    · rintro (⟨ps, rules⟩ | _ | _) rfl hclosed hkind
      · exact hclosed
      · cases hkind
      · cases hkind

theorem follows_arrayRules (old : Option Schema) (inherited : Bool)
    (h : (Json.arr items).Avoids metaKey) (element : Option Schema) :
    Follows old (.array element (arrayRules true old inherited items)) (.arr items) := by
  have hmaxLen : (arrayRules true old inherited items).maxLen = none ∨
      ∃ U, old = some U ∧ U.maxLen? = (arrayRules true old inherited items).maxLen := by
    obtain _ | _ | ⟨element, rules⟩ | _ := old
    case some.array =>
      exact .inr ⟨_, rfl, (arrayRules_of_avoids true inherited h element rules).2.1.symm⟩
    all_goals
      simp only [arrayRules, arraySettings?_of_avoids h]
      split <;> exact .inl rfl
  cases hdescribed : (Json.arr items).isDescribed with
  | true =>
    have hrules : arrayRules true old inherited items = _ := if_pos hdescribed
    refine ⟨fun _ => .inl hdescribed, fun _ _ _ _ => ?_, hmaxLen⟩
    rw [hrules]
    rfl
  | false =>
    have hplain : ¬ (Json.arr items).isDescribed := by simp [hdescribed]
    refine ⟨fun hclosed => .inr ?_, ?_, hmaxLen⟩
    all_goals simp only [arrayRules, arraySettings?_of_avoids h, if_neg hplain] at *
    · obtain _ | _ | ⟨element, rules⟩ | _ := old
      case some.array => exact ⟨_, rfl, hclosed, rfl⟩
      all_goals cases hclosed
    · rintro (_ | ⟨element, rules⟩ | _) rfl hclosed hkind
      · cases hkind
      · exact hclosed
      · cases hkind

/-- Where a schema is inferred, containers are open by default. -/
theorem follows_infer (old : Option Schema) (inherited : Bool) (h : v.Avoids metaKey) :
    Follows old (infer true old inherited v) v := by
  cases v with
  | obj fields => exact follows_objectRules old inherited h _
  | arr items => exact follows_arrayRules old inherited h _
  | _ => exact follows_scalar old _ _

/-! ## What a change does -/

/-- What a schema that fields lead to is after a change: it has been inferred anew, or nothing has
changed there, or it is one of an object of which members have changed, and has kept its rules. -/
inductive Succeeds (e : Bool) (S : Schema) (v : Json) (p : Path) : Schema → Json → Prop
  | anew {inherited : Bool} {c : Json} :
      Succeeds e S v p (infer e (propertyAt (some S) p) inherited c) c
  | same {T : Schema} {c : Json} (h : Reaches S v p T c) : Succeeds e S v p T c
  | within {props props' : List (String × Schema)} {rules : ObjectRules}
      {fields fields' : List (String × Json)}
      (h : Reaches S v p (.object props rules) (.obj fields)) :
      Succeeds e S v p (.object props' rules) (.obj fields')

theorem Reaches.of_infer (h : v.Avoids metaKey)
    (hreach : Reaches (infer e old inherited v) v p T c) :
    ∃ inherited', T = infer e (propertyAt old p) inherited' c := by
  induction p generalizing v old inherited with
  | nil =>
    obtain ⟨rfl, rfl⟩ := reaches_nil.1 hreach
    exact ⟨inherited, rfl⟩
  | cons s p ih =>
    cases v with
    | obj fields =>
      rw [infer, reaches_field] at hreach
      obtain ⟨U, d, hU, hd, hrest⟩ := hreach
      rw [get?_inferFields h, hd] at hU
      cases hU
      exact ih (h.field hd).2 hrest
    | _ => cases hreach

theorem Reaches.propertyAt_eq (h : Reaches S v p T c) : propertyAt (some S) p = some T := by
  induction h with
  | here => rfl
  | field hT _ _ ih =>
    rw [propertyAt, properties, hT]
    exact ih

section

variable {props props' : List (String × Schema)} {rules : ObjectRules}
  {fields' : List (String × Json)}

theorem Succeeds.field (hU : Table.get? props s.asKey = some U)
    (hd : Table.get? fields s.asKey = some d) (h : Succeeds e U d p T c) :
    Succeeds e (.object props rules) (.obj fields) (s :: p) T c := by
  cases h with
  | anew =>
    have hold : propertyAt (some U) p = propertyAt (some (.object props rules)) (s :: p) := by
      rw [propertyAt, properties, hU]
    rw [hold]
    exact .anew
  | same h => exact .same (.field hU hd h)
  | within h => exact .within (.field hU hd h)

/-- A change of one field leaves the rules of the object and the schemas of its other fields. -/
theorem Succeeds.of_field {k : String}
    (hreach : Reaches (.object props' rules) (.obj fields') p T c)
    (hprops : ∀ k', k ≠ k' → Table.get? props' k' = Table.get? props k')
    (hfields : ∀ k', k ≠ k' → Table.get? fields' k' = Table.get? fields k')
    (hthere : ∀ t q, p = t :: q → k = t.asKey → ∀ U d, Table.get? props' k = some U →
      Table.get? fields' k = some d → Reaches U d q T c →
      Succeeds e (.object props rules) (.obj fields) p T c) :
    Succeeds e (.object props rules) (.obj fields) p T c := by
  cases p with
  | nil =>
    obtain ⟨rfl, rfl⟩ := reaches_nil.1 hreach
    exact .within .here
  | cons t q =>
    obtain ⟨U, d, hU, hd, hrest⟩ := reaches_field.1 hreach
    by_cases ht : k = t.asKey
    · rw [← ht] at hU hd
      exact hthere t q rfl ht U d hU hd hrest
    · rw [hprops _ ht] at hU
      rw [hfields _ ht] at hd
      exact .same (.field hU hd hrest)

end

/-- **What bringing a schema up to date does** to a schema that fields lead to. -/
theorem Reaches.of_refresh {R : Option Schema} (hfits : S.Fits v) (hedit : Json.Edited R v r w)
    (hw : w.Avoids metaKey) (hreach : Reaches (refresh e inherited S w r).1 w p T c) :
    Succeeds e S v p T c := by
  induction hedit generalizing S inherited p with
  | here =>
    obtain ⟨inherited', rfl⟩ := hreach.of_infer hw
    exact .anew
  | item | newItem | noItem =>
    cases hfits with
    | array =>
      rw [refresh_array] at hreach
      obtain ⟨inherited', rfl⟩ := hreach.of_infer hw
      exact .anew
    | scalar hv => cases hv
  | @field _ fields s r c' d' hc' h ih =>
    cases hfits with
    | scalar hv => cases hv
    | @object props rules _ hfields =>
      obtain ⟨U', hU', hfits⟩ := hfields.property hc'
      have hd' : Table.get? (Table.insert fields s.asKey d') s.asKey = some d' :=
        Table.get?_insert_self ..
      rw [refresh_field hd' hU'] at hreach
      refine .of_field (k := s.asKey) hreach (fun k hk => ?_) (fun k hk => ?_)
        fun t q hp ht U d hU hd hrest => ?_
      · rw [Table.get?_insert, if_neg hk]
      · rw [Table.get?_insert, if_neg hk]
      · subst hp
        rw [Table.get?_insert_self] at hU hd
        cases hU
        cases hd
        rw [ht] at hU' hc'
        exact (ih hfits (hw.field hd').2 hrest).field hU' hc'
  | @newField _ fields s r d' hs =>
    cases hfits with
    | scalar hv => cases hv
    | @object props rules _ hfields =>
      have hd' : Table.get? (Table.insert fields s.asKey d') s.asKey = some d' :=
        Table.get?_insert_self ..
      have hnone := hfields.no_property hs
      rw [refresh_new hd' hnone] at hreach
      refine .of_field (k := s.asKey) hreach (fun k hk => ?_) (fun k hk => ?_)
        fun t q hp ht U d hU hd hrest => ?_
      · rw [Table.get?_insert, if_neg hk]
      · rw [Table.get?_insert, if_neg hk]
      · subst hp
        rw [Table.get?_insert_self] at hU hd
        cases hU
        cases hd
        obtain ⟨inherited', rfl⟩ := hrest.of_infer (hw.field hd').2
        have hold : propertyAt none q = propertyAt (some (.object props rules)) (t :: q) := by
          rw [propertyAt, properties, ← ht, hnone]
        rw [hold]
        exact .anew
  | @noField _ fields s c' hs =>
    cases hfits with
    | scalar hv => cases hv
    | @object props rules _ hfields =>
      have hgone : Table.get? (Table.erase fields s.asKey) s.asKey = none := by
        rw [Table.get?_erase, if_pos rfl]
      rw [refresh_missing hgone] at hreach
      refine .of_field (k := s.asKey) hreach (fun k hk => ?_) (fun k hk => ?_)
        fun t q hp ht U d hU hd hrest => ?_
      · rw [Table.get?_erase, if_neg hk]
      · rw [Table.get?_erase, if_neg hk]
      · rw [hgone] at hd
        cases hd

theorem Succeeds.follows (h : Succeeds true S v p T c) (hc : c.Avoids metaKey) :
    Follows (propertyAt (some S) p) T c := by
  cases h with
  | anew => exact follows_infer _ _ hc
  | same h =>
    rw [h.propertyAt_eq]
    exact follows_self T c
  | @within props props' rules fields fields' h =>
    rw [h.propertyAt_eq]
    exact follows_of_eq (U := .object props rules) (T := .object props' rules) rfl rfl
      (fun _ => rfl) _

theorem ClosedOver.isClosed (h : T.ClosedOver v) : T.isClosed := by
  cases h with
  | pair hclosed | record hclosed => simp [Schema.isClosed, hclosed]

/-- A described pair is closed after a change if what has been a described pair before was. -/
theorem Succeeds.isClosed_pair (h : Succeeds e S v p T (.arr items))
    (hpair : (Json.arr items).isDescribed) (hbefore : Reaches S v p T (.arr items) → T.isClosed) :
    T.isClosed := by
  cases h with
  | anew => exact (infer_closedOver e _ _ hpair).isClosed
  | same h => exact hbefore h

theorem Reaches.throughFields (h : Reaches S v p T c) : v.throughFields p := by
  induction h with
  | here => rfl
  | field _ hc _ ih =>
    rw [Json.throughFields, hc]
    exact ih

theorem propertyAt_none (p : Path) : propertyAt none p = none := by
  induction p with
  | nil => rfl
  | cons s p ih => exact ih

/-- What has a schema is there. -/
theorem Fits.reaches_propertyAt (h : S.Fits v) (hU : propertyAt (some S) p = some U) :
    ∃ w, Reaches S v p U w := by
  induction p generalizing S v with
  | nil =>
    cases hU
    exact ⟨v, .here⟩
  | cons s p ih =>
    cases h with
    | @object props rules fields hfields =>
      rw [propertyAt, properties] at hU
      obtain ⟨hnone, -⟩ | ⟨T, c, hT, hc, hfits⟩ := hfields.get? s.asKey
      · rw [hnone, propertyAt_none] at hU
        cases hU
      · rw [hT] at hU
        obtain ⟨w, hreach⟩ := ih hfits hU
        exact ⟨w, .field hT hc hreach⟩
    | _ =>
      have hnone : propertyAt none p = some U := hU
      rw [propertyAt_none] at hnone
      cases hnone

theorem Fits.sameKind_eq (hU : U.Fits w) (hT : T.Fits v) : U.sameKind T = w.sameKind v := by
  cases hU with
  | object =>
    cases hT with
    | scalar hv => exact (Json.sameKind_of_isScalar hv _).2.symm
    | _ => rfl
  | array =>
    cases hT with
    | scalar hv => exact (Json.sameKind_of_isScalar hv _).2.symm
    | _ => rfl
  | scalar hw => exact (Json.sameKind_of_isScalar hw _).1.symm

end Schema

/-! ## Running commands -/

namespace Variables

/-- Fields lead to a described value. -/
def LeafAt (p : Path) (vars : Variables) : Prop :=
  vars.data.LeadsTo p (·.isDescribed)

/-- Fields lead to a described value whose schema is closed. -/
def ClosedLeafAt (p : Path) (vars : Variables) : Prop :=
  vars.LeafAt p ∧ ∃ T, vars.schema.at? p = some T ∧ T.isClosed

/-- Fields lead to a container of this kind. -/
def KindAt (p : Path) (v : Json) (vars : Variables) : Prop :=
  vars.data.LeadsTo p (·.sameKind v)

/-- If fields lead to a described pair, its schema is closed. -/
def PairClosedAt (p : Path) (vars : Variables) : Prop :=
  ∀ T items, vars.schema.Reaches vars.data p T (.arr items) → (Json.arr items).isDescribed →
    T.isClosed

variable {c : Config} {vars : Variables} {p : Path} {command : Command} {commands : List Command}
  {T : Schema} {v w : Json}

theorem ClosedLeafAt.isClosed (h : vars.ClosedLeafAt p)
    (hreach : vars.schema.Reaches vars.data p T v) : T.isClosed := by
  obtain ⟨-, U, hU, hclosed⟩ := h
  obtain rfl := Option.some.inj ((hreach.get? rfl).2.symm.trans hU)
  exact hclosed

theorem closedLeafAt_of_reaches (hreach : vars.schema.Reaches vars.data p T v)
    (hdescribed : v.isDescribed) (hclosed : T.isClosed) : vars.ClosedLeafAt p :=
  ⟨⟨hreach.throughFields, v, (hreach.get? rfl).1, hdescribed⟩, T, (hreach.get? rfl).2, hclosed⟩

theorem kindAt_of_reaches (hreach : vars.schema.Reaches vars.data p T w) (h : w.sameKind v) :
    vars.KindAt p v :=
  ⟨hreach.throughFields, w, (hreach.get? rfl).1, h⟩

theorem Unannotated.run_succeeds (h : vars.Unannotated) (hcommand : command.Avoids c metaKey)
    (hreach : (vars.run c command).1.schema.Reaches (vars.run c command).1.data p T v) :
    vars.schema.Succeeds c.extensibleByDefault vars.data p T v := by
  obtain hrun | ⟨q, change, data, -, hdoes, hdata, hrun⟩ := h.run_cases hcommand <;>
    rw [hrun] at hreach
  · exact .same hreach
  · exact hreach.of_refresh h.fits hdoes.edited hdata

/-- Whatever a command does, it leaves what is closed and closes described values only. -/
theorem Unannotated.run_follows (h : vars.Unannotated) (hopen : c.extensibleByDefault = true)
    (hcommand : command.Avoids c metaKey)
    (hreach : (vars.run c command).1.schema.Reaches (vars.run c command).1.data p T v) :
    Schema.Follows (Schema.propertyAt (some vars.schema) p) T v := by
  have hsucceeds := h.run_succeeds hcommand hreach
  rw [hopen] at hsucceeds
  exact hsucceeds.follows ((h.run hcommand).data.get? (hreach.get? rfl).1)

/-- A container is closed after a command if there is a closed leaf, or if there was a closed
container of its kind before. -/
theorem Unannotated.run_isClosed (h : vars.Unannotated) (hopen : c.extensibleByDefault = true)
    (hcommand : command.Avoids c metaKey)
    (hreach : (vars.run c command).1.schema.Reaches (vars.run c command).1.data p T v) :
    T.isClosed ↔ (vars.run c command).1.ClosedLeafAt p ∨
      ∃ U w, vars.schema.Reaches vars.data p U w ∧ w.sameKind v ∧ U.isClosed := by
  have hfollows := h.run_follows hopen hcommand hreach
  have hfits := hreach.fits (h.run hcommand).fits
  constructor
  · intro hclosed
    obtain hdescribed | ⟨U, hU, hUclosed, hkind⟩ := hfollows.closed hclosed
    · exact .inl (closedLeafAt_of_reaches hreach hdescribed hclosed)
    · obtain ⟨w, hw⟩ := h.fits.reaches_propertyAt hU
      rw [(hw.fits h.fits).sameKind_eq hfits] at hkind
      exact .inr ⟨U, w, hw, hkind, hUclosed⟩
  · rintro (hleaf | ⟨U, w, hw, hkind, hUclosed⟩)
    · exact hleaf.isClosed hreach
    · refine hfollows.keeps U hw.propertyAt_eq hUclosed ?_
      rw [(hw.fits h.fits).sameKind_eq hfits]
      exact hkind

theorem Unannotated.runAll_pairClosedAt (h : vars.Unannotated) (hpair : vars.PairClosedAt p)
    (hcommands : ∀ command ∈ commands, command.Avoids c metaKey) :
    (vars.runAll c commands).1.PairClosedAt p := by
  induction commands generalizing vars with
  | nil => exact hpair
  | cons command commands ih =>
    obtain ⟨hcommand, hcommands⟩ := List.forall_mem_cons.1 hcommands
    rw [runAll_cons]
    refine ih (h.run hcommand) (fun T items hreach hdescribed => ?_) hcommands
    have hsucceeds := h.run_succeeds hcommand hreach
    exact hsucceeds.isClosed_pair hdescribed fun hreach' => hpair T items hreach' hdescribed

section

variable (h : vars.Unannotated) (hopen : c.extensibleByDefault = true)
  (hstart : ∀ T v, vars.schema.Reaches vars.data p T v → Schema.Follows none T v)
  (hcommands : ∀ command ∈ commands, command.Avoids c metaKey)

include h hopen hstart hcommands

/-- No length is bounded. -/
theorem Unannotated.runAll_maxLen
    (hreach : (vars.runAll c commands).1.schema.Reaches (vars.runAll c commands).1.data p T v) :
    T.maxLen? = none := by
  induction commands using List.reverseRecOn generalizing T v with
  | nil =>
    obtain hnone | ⟨U, hU, -⟩ := (hstart T v hreach).maxLen
    · exact hnone
    · cases hU
  | append_singleton commands command ih =>
    obtain ⟨hcommands, hcommand⟩ := List.forall_mem_append.1 hcommands
    have hbefore := h.runAll hcommands
    rw [runAll_concat] at hreach
    have hfollows := hbefore.run_follows hopen (hcommand command (.head _)) hreach
    obtain hnone | ⟨U, hU, hmaxLen⟩ := hfollows.maxLen
    · exact hnone
    · obtain ⟨w, hreach'⟩ := hbefore.fits.reaches_propertyAt hU
      rw [← hmaxLen]
      exact ih hcommands hreach'

/-- A container is closed just if a closed leaf was there, and a container of its kind since. -/
theorem Unannotated.runAll_isClosed (hv : v.isScalar = false)
    (hreach : (vars.runAll c commands).1.schema.Reaches (vars.runAll c commands).1.data p T v) :
    T.isClosed ↔ Since (fun part => (vars.runAll c part).1.ClosedLeafAt p)
      (fun part => (vars.runAll c part).1.KindAt p v) commands := by
  have hkind := kindAt_of_reaches hreach (Json.sameKind_self hv)
  induction commands using List.reverseRecOn generalizing T v with
  | nil =>
    rw [since_nil, and_iff_left hkind]
    constructor
    · intro hclosed
      obtain hdescribed | ⟨U, hU, -⟩ := (hstart T v hreach).closed hclosed
      · exact closedLeafAt_of_reaches hreach hdescribed hclosed
      · cases hU
    · exact fun hleaf => hleaf.isClosed hreach
  | append_singleton commands command ih =>
    obtain ⟨hcommands, hcommand⟩ := List.forall_mem_append.1 hcommands
    have hbefore := h.runAll hcommands
    rw [since_concat, and_iff_left hkind, runAll_concat]
    rw [runAll_concat] at hreach
    rw [hbefore.run_isClosed hopen (hcommand command (.head _)) hreach]
    -- What was there before has the same history as a container of its kind.
    have hhistory {U w} (hU : (vars.runAll c commands).1.schema.Reaches
        (vars.runAll c commands).1.data p U w) (hw : w.sameKind v) :
        U.isClosed ↔ Since (fun part => (vars.runAll c part).1.ClosedLeafAt p)
          (fun part => (vars.runAll c part).1.KindAt p v) commands := by
      have hw' := Json.not_isScalar_of_sameKind hw
      have hthere := ih hcommands hw' hU (kindAt_of_reaches hU (Json.sameKind_self hw'))
      simpa only [KindAt, Json.LeadsTo, Json.sameKind_congr hw] using hthere
    refine or_congr_right ⟨?_, fun hsince => ?_⟩
    · rintro ⟨U, w, hU, hw, hclosed⟩
      exact (hhistory hU hw).1 hclosed
    · obtain ⟨hthrough, w, hget, hw⟩ := hsince.now
      obtain ⟨U, hU⟩ := hbefore.fits.reaches hthrough hget
      exact ⟨U, w, hU, hw, (hhistory hU hw).2 hsince⟩

end

/-- Where there has been an array since, each leaf that was there was a closed one. -/
theorem Unannotated.since_leafAt_iff (h : vars.Unannotated) (hpair : vars.PairClosedAt p)
    (hcommands : ∀ command ∈ commands, command.Avoids c metaKey) {items : List Json} :
    Since (fun part => (vars.runAll c part).1.ClosedLeafAt p)
        (fun part => (vars.runAll c part).1.KindAt p (.arr items)) commands ↔
      Since (fun part => (vars.runAll c part).1.LeafAt p)
        (fun part => (vars.runAll c part).1.KindAt p (.arr items)) commands := by
  constructor
  · exact fun hsince => hsince.imp fun _ _ hleaf _ => hleaf.1
  · refine fun hsince => hsince.imp fun before hpart hleaf hkind => ?_
    obtain ⟨hthrough, leaf, hget, hdescribed⟩ := hleaf
    obtain ⟨-, w, hget', hkind⟩ := hkind
    cases hget.symm.trans hget'
    have hcommands' : ∀ command ∈ before, command.Avoids c metaKey :=
      fun command hmem => hcommands command (hpart.subset hmem)
    obtain ⟨T, hreach⟩ := (h.runAll hcommands').fits.reaches hthrough hget
    cases leaf with
    | arr items' =>
      have hclosed := h.runAll_pairClosedAt hpair hcommands' T items' hreach hdescribed
      exact closedLeafAt_of_reaches hreach hdescribed hclosed
    | _ => cases hkind

end Variables

namespace Schema

/-- An open container whose length is not bounded takes what it has a place for. -/
theorem checkInsert_of_open {S T : Schema} {data v : Json} {p : Path} {s : Step}
    (hfits : T.Fits v) (hT : S.at? p = some T) (hget : data.get? p = some v)
    (hopen : T.isClosed = false) (hmaxLen : T.maxLen? = none) (hs : v.admits s) :
    S.checkInsert data p s = .ok () := by
  rw [checkInsert, hget]
  cases hfits with
  | object =>
    simp only [isClosed, Bool.not_eq_false'] at hopen
    simp only [checkField, hT, hopen, if_true, ite_self]
  | array =>
    obtain ⟨place, hplace, hle⟩ := (Option.any_eq_true ..).1 hs
    simp only [isClosed, Bool.not_eq_false'] at hopen
    simp only [maxLen?] at hmaxLen
    simp only [hplace, checkItem, hT, hopen, hmaxLen, if_true]
    exact if_neg (Nat.not_lt.2 (of_decide_eq_true hle))
  | scalar hv =>
    cases v with
    | obj | arr => cases hv
    | _ => cases hs

end Schema

namespace Bundle

variable {c : Config} {document v : Json} {p : Path} {commands : List Command}

theorem ofDocument_of_avoids (e : Bool) (h : document.Avoids metaKey) :
    ofDocument e document = ⟨⟨document, Schema.infer e none false document⟩, 0⟩ := by
  rw [ofDocument, h.stripMeta]

theorem ofDocument_unannotated (e : Bool) (h : document.Avoids metaKey) :
    (ofDocument e document).Unannotated := by
  refine ⟨(Reachable.ofDocument e document).fits, ?_, Schema.infer_templatesAvoid h nofun⟩
  rw [ofDocument_of_avoids e h]
  exact h

theorem follows_ofDocument (h : document.Avoids metaKey) (T : Schema) (v : Json)
    (hreach : (ofDocument true document).schema.Reaches (ofDocument true document).data p T v) :
    Schema.Follows none T v := by
  rw [ofDocument_of_avoids true h] at hreach
  obtain ⟨inherited, rfl⟩ := hreach.of_infer h
  rw [Schema.propertyAt_none]
  exact Schema.follows_infer none inherited (h.get? (hreach.get? rfl).1)

theorem pairClosedAt_ofDocument (e : Bool) (h : document.Avoids metaKey) (p : Path) :
    (ofDocument e document).PairClosedAt p := by
  intro T items hreach hdescribed
  rw [ofDocument_of_avoids e h] at hreach
  obtain ⟨inherited, rfl⟩ := hreach.of_infer h
  exact (Schema.infer_closedOver e inherited _ hdescribed).isClosed

/-- **A container is closed just if it has been a closed leaf.** If containers are open by default
and neither a document nor commands have annotations, a container that fields lead to is closed just
if, at some time, a described value with a closed schema was there, and since then a container of
the same kind was always there. For an array, each described value counts. Any other container takes
what it has a place for. -/
theorem closed_iff_since_described (hdocument : document.Avoids metaKey)
    (hopen : c.extensibleByDefault = true)
    (hcommands : ∀ command ∈ commands, command.Avoids c metaKey)
    (hp : ((ofDocument true document).apply c commands).1.data.throughFields p)
    (hget : ((ofDocument true document).apply c commands).1.data.get? p = some v)
    (hv : v.isScalar = false) :
    let b := ((ofDocument true document).apply c commands).1
    let after (part : List Command) := ((ofDocument true document).apply c part).1.toVariables
    ∃ T, b.schema.at? p = some T ∧
      (T.isClosed ↔ Since (fun part => (after part).ClosedLeafAt p)
        (fun part => (after part).KindAt p v) commands) ∧
      (∀ items, v = .arr items → (T.isClosed ↔ Since (fun part => (after part).LeafAt p)
        (fun part => (after part).KindAt p v) commands)) ∧
      (T.isClosed = false → ∀ s, v.admits s → b.schema.checkInsert b.data p s = .ok ()) := by
  intro b after
  have hfits : b.schema.Fits b.data := ((Reachable.ofDocument true document).apply c commands).fits
  have hstart := ofDocument_unannotated true hdocument
  obtain ⟨T, hreach⟩ := hfits.reaches hp hget
  have hT := (hreach.get? rfl).2
  have hclosed := hstart.runAll_isClosed hopen (follows_ofDocument hdocument) hcommands hv hreach
  refine ⟨T, hT, hclosed, fun items hitems => ?_, fun hopen' s hs => ?_⟩
  · subst hitems
    rw [hclosed]
    exact hstart.since_leafAt_iff (pairClosedAt_ofDocument true hdocument p) hcommands
  · exact Schema.checkInsert_of_open (hreach.fits hfits) hT hget hopen'
      (hstart.runAll_maxLen hopen (follows_ofDocument hdocument) hcommands hreach) hs

/-- A described pair whose value becomes a text is a list of texts then, and it is still closed. -/
theorem closed_iff_since_described_pair :
    let document := Json.obj [("p", .arr [.ofNat 1, .str "d"])]
    let write : Command := ⟨.set, "p", [.literal (.value (.str "a"))], none⟩
    let after (part : List Command) := ((ofDocument true document).apply {} part).1.toVariables
    let items : List Json := [.str "a", .str "d"]
    (Json.arr items).isDescribed = false ∧ ∃ T, (after [write]).schema.at? [.key "p"] = some T ∧
      (T.isClosed ↔ Since (fun part => (after part).ClosedLeafAt [.key "p"])
        (fun part => (after part).KindAt [.key "p"] (.arr items)) [write]) ∧
      (∀ items', Json.arr items = .arr items' →
        (T.isClosed ↔ Since (fun part => (after part).LeafAt [.key "p"])
          (fun part => (after part).KindAt [.key "p"] (.arr items)) [write])) ∧
      (T.isClosed = false → ∀ s, (Json.arr items).admits s →
        (after [write]).schema.checkInsert (after [write]).data [.key "p"] s = .ok ()) := by
  intro document write after items
  have hdocument : document.Avoids metaKey := by
    have hitems : ∀ v ∈ [Json.ofNat 1, .str "d"], v.Avoids metaKey :=
      List.forall_mem_cons.2 ⟨.scalar rfl, List.forall_mem_singleton.2 (.scalar rfl)⟩
    exact Json.avoids_obj.2 (List.forall_mem_singleton.2 ⟨by decide, .arr hitems⟩)
  have hpath : Path.parse "p" = .ok [.key "p"] := rfl
  have hwrite : write.Avoids {} metaKey := by
    refine ⟨fun q hq => ?_, nofun, fun arg harg v hv => ?_⟩
    · cases hpath.symm.trans hq
      decide
    · cases List.mem_singleton.1 harg
      cases hv
      exact .scalar rfl
  have hdata : (after [write]).data = .obj [("p", .arr items)] := by decide +kernel
  refine ⟨rfl, closed_iff_since_described hdocument rfl (List.forall_mem_singleton.2 hwrite) ?_ ?_
    rfl⟩
  · exact congrArg (·.throughFields [.key "p"]) hdata
  · exact congrArg (·.get? [.key "p"]) hdata

/-- The list takes no further text. -/
example :
    let b := ofDocument true (.obj [("p", .arr [.ofNat 1, .str "d"])])
    let write : Command := ⟨.set, "p", [.literal (.value (.str "a"))], none⟩
    let after := (b.apply {} [write]).1
    after.schema.checkInsert after.data [.key "p"] (.index 2) = .error (.closedArray "p") := by
  decide +kernel

end Bundle

end StatVars
