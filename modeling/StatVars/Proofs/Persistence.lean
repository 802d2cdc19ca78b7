import StatVars.Proofs.Hereditary
import StatVars.Proofs.LiteralText
import StatVars.Proofs.Records
import StatVars.Proofs.Refresh
import StatVars.Proofs.SchemaText

/-!
# Bundles that are read back

What commands make of the bundle of a document is regular: no object in the document and no schema
in it has a name twice, and the count of changes fits a number. So the bundle that is read from the
text of such a bundle is the bundle itself, apart from templates that are `null`, which are read as
missing, and from numbers that are not read back; and nothing is read from a text that nests deeper
than the reader goes. Main statement: `Bundle.Regular.read?_write`.
-/

namespace StatVars

namespace Json

variable {P : Number → Prop} {v : Json}

theorem hereditary_regular : Hereditary (fun _ => True) (Regular fun _ => True) where
  scalar hv := .scalar hv fun _ _ => trivial
  arr := ⟨Regular.items, .arr⟩
  empty := .obj List.nodup_nil nofun
  field h f hf := ⟨trivial, h.fields.2 f hf⟩
  insert h _ hw := by
    refine .obj (Table.nodup_keys_insert h.fields.1 _ _) fun f hf => ?_
    rcases Table.mem_insert hf with hf | rfl
    · exact h.fields.2 f hf
    · exact hw
  erase _ h := by
    refine .obj (h.fields.1.sublist (List.filter_sublist.map _)) fun f hf => ?_
    exact h.fields.2 f (List.mem_filter.1 hf).1

theorem mem_stripItems {items : List Json} {w : Json} (h : w ∈ stripItems items) :
    ∃ v ∈ items, w = v.stripMeta := by
  induction items with
  | nil => cases h
  | cons v items ih =>
    rw [stripItems] at h
    split at h
    · obtain ⟨v, hv, rfl⟩ := ih h
      exact ⟨v, .tail _ hv, rfl⟩
    · obtain rfl | h := List.mem_cons.1 h
      · exact ⟨v, .head _, rfl⟩
      · obtain ⟨v, hv, rfl⟩ := ih h
        exact ⟨v, .tail _ hv, rfl⟩

theorem stripFields_eq (fields : List (String × Json)) : stripFields fields =
    (fields.filter fun f => f.1 ≠ metaKey).map fun f => (f.1, f.2.stripMeta) := by
  induction fields with
  | nil => rfl
  | cons f fields ih =>
    obtain ⟨k, v⟩ := f
    rw [stripFields]
    split <;> simp [*]

theorem Regular.stripMeta (h : v.Regular P) : v.stripMeta.Regular P := by
  induction h with
  | @scalar v hv hnum =>
    cases v with
    | arr | obj => cases hv
    | _ => exact .scalar rfl hnum
  | arr _ ih =>
    refine .arr fun w hw => ?_
    obtain ⟨v, hv, rfl⟩ := mem_stripItems hw
    exact ih v hv
  | @obj fields hkeys _ ih =>
    rw [Json.stripMeta, stripFields_eq]
    refine .obj ?_ fun f hf => ?_
    · rw [Table.keys, List.map_map]
      exact hkeys.sublist (List.filter_sublist.map _)
    · obtain ⟨g, hg, rfl⟩ := List.mem_map.1 hf
      exact ih g (List.mem_filter.1 hg).1

end Json

namespace Schema

variable {e inherited : Bool} {old : Option Schema} {S T : Schema} {v w : Json} {p : Path}
  {items : List Json} {fields : List (String × Json)} {settings : List (String × Json)}

/-! ## Rules -/

theorem nodup_addMember {l : List String} (h : l.Nodup) (k : String) : (addMember l k).Nodup := by
  unfold addMember
  split
  · exact h
  · next hk =>
    refine List.nodup_append.2 ⟨h, by simp, fun a ha b hb hab => hk ?_⟩
    rw [List.mem_singleton.1 hb] at hab
    simpa [← hab] using ha

theorem nodup_foldl_addMember {l : List String} (h : l.Nodup) (names : List String) :
    (names.foldl addMember l).Nodup := by
  induction names generalizing l with
  | nil => exact h
  | cons k names ih => exact ih (nodup_addMember h k)

theorem asNat?_lt {n : Nat} (h : v.asNat? = some n) : n < 18446744073709551616 := by
  unfold Json.asNat? at h
  split at h
  · next m hm =>
    split at h
    · cases h
      omega
    · cases h
  · cases h

/-- The template in an annotation, or the one that is there. -/
theorem template_or {rest : Option Json} (h : (Json.obj settings).Regular fun _ => True)
    (hrest : ∀ t, rest = some t → t.Regular fun _ => True) :
    ∀ t, (Table.get? settings "template").or rest = some t → t.Regular fun _ => True := by
  intro t ht
  obtain ht | ⟨-, ht⟩ := Option.or_eq_some_iff.1 ht
  · exact (Json.hereditary_regular.get h ht).2
  · exact hrest t ht

theorem objectSettings?_regular (h : (Json.obj fields).Regular fun _ => True)
    (hsettings : objectSettings? fields = some settings) :
    (Json.obj settings).Regular fun _ => True := by
  obtain ⟨v, hv, hsettings⟩ := Option.bind_eq_some_iff.1 hsettings
  have hv := (Json.hereditary_regular.get h hv).2
  cases v with
  | obj => cases hsettings; exact hv
  | _ => cases hsettings

theorem arraySettings?_regular (h : (Json.arr items).Regular fun _ => True)
    (hsettings : arraySettings? items = some settings) :
    (Json.obj settings).Regular fun _ => True := by
  obtain ⟨item, hitem, hsettings⟩ := Option.bind_eq_some_iff.1 hsettings
  have hitem := h.items item (List.mem_of_find?_eq_some hitem)
  obtain ⟨fields, hfields, hsettings⟩ := Option.bind_eq_some_iff.1 hsettings
  cases item with
  | obj => cases hfields; exact objectSettings?_regular hitem hsettings
  | _ => cases hfields

/-- The rules that `objectRules` makes of those to start with. -/
theorem annotated_regular {rules : ObjectRules} (h : (Json.obj fields).Regular fun _ => True)
    (hrules : rules.Regular) :
    let annotated := match objectSettings? fields with
      | some settings => annotateObject settings rules
      | none => rules
    (if (Json.obj fields).isDescribed then
      { annotated with
        extensible := false
        required := addMember (addMember annotated.required "value") "description" }
    else annotated).Regular := by
  intro annotated
  have hannotated : annotated.Regular := by
    unfold annotated
    split
    · next settings hsettings =>
      exact ⟨nodup_foldl_addMember hrules.required _,
        template_or (objectSettings?_regular h hsettings) hrules.template⟩
    · exact hrules
  split
  · exact ⟨nodup_addMember (nodup_addMember hannotated.required _) _, hannotated.template⟩
  · exact hannotated

theorem objectRules_regular (h : (Json.obj fields).Regular fun _ => True)
    (hold : ∀ S, old = some S → S.Regular) : (objectRules e old inherited fields).Regular := by
  match old, hold with
  | some (.object ps rules), hold =>
    cases hold _ rfl with
    | object _ hrules _ => exact annotated_regular h hrules
  | none, _ | some (.array ..), _ | some (.scalar _), _ =>
    exact annotated_regular h ⟨List.nodup_nil, nofun⟩

theorem annotatedItems_regular {rules : ArrayRules} (h : (Json.arr items).Regular fun _ => True)
    (hrules : rules.Regular) :
    let annotated := match arraySettings? items with
      | some settings => annotateArray settings rules
      | none => rules
    (if (Json.arr items).isDescribed then { annotated with extensible := false }
    else annotated).Regular := by
  intro annotated
  have hannotated : annotated.Regular := by
    unfold annotated
    split
    · next settings hsettings =>
      refine ⟨fun n hn => ?_, template_or (arraySettings?_regular h hsettings) hrules.template⟩
      obtain hn | ⟨-, hn⟩ := Option.or_eq_some_iff.1 hn
      · obtain ⟨v, -, hn⟩ := Option.bind_eq_some_iff.1 hn
        exact asNat?_lt hn
      · exact hrules.maxLen n hn
    · exact hrules
  split
  · exact ⟨hannotated.maxLen, hannotated.template⟩
  · exact hannotated

theorem arrayRules_regular (h : (Json.arr items).Regular fun _ => True)
    (hold : ∀ S, old = some S → S.Regular) : (arrayRules e old inherited items).Regular := by
  match old, hold with
  | some (.array element rules), hold =>
    cases hold _ rfl with
    | array hrules _ => exact annotatedItems_regular h hrules
  | none, _ | some (.object ..), _ | some (.scalar _), _ =>
    exact annotatedItems_regular h ⟨nofun, nofun⟩

/-! ## Schemas -/

theorem keys_inferFields (ps : List (String × Schema)) :
    Table.keys (inferFields e ps inherited fields) = Table.keys (Json.stripFields fields) := by
  induction fields with
  | nil => rfl
  | cons f fields ih =>
    obtain ⟨k, v⟩ := f
    rw [inferFields, Json.stripFields]
    split
    · exact ih
    · exact congrArg (k :: ·) ih

theorem mem_inferFields {ps : List (String × Schema)} {g : String × Schema}
    (h : g ∈ inferFields e ps inherited fields) :
    ∃ f ∈ fields, g.2 = infer e (Table.get? ps f.1) inherited f.2 := by
  induction fields with
  | nil => cases h
  | cons f fields ih =>
    obtain ⟨k, v⟩ := f
    rw [inferFields] at h
    split at h
    · obtain ⟨f, hf, hg⟩ := ih h
      exact ⟨f, .tail _ hf, hg⟩
    · obtain rfl | h := List.mem_cons.1 h
      · exact ⟨(k, v), .head _, rfl⟩
      · obtain ⟨f, hf, hg⟩ := ih h
        exact ⟨f, .tail _ hf, hg⟩

theorem inferFirst_eq_some (h : inferFirst e old inherited items = some S) :
    ∃ v ∈ items, S = infer e old inherited v := by
  induction items with
  | nil => cases h
  | cons v items ih =>
    rw [inferFirst] at h
    split at h
    · obtain ⟨v, hv, hS⟩ := ih h
      exact ⟨v, .tail _ hv, hS⟩
    · cases h
      exact ⟨v, .head _, rfl⟩

theorem properties_regular (hold : ∀ S, old = some S → S.Regular) {k : String}
    (hT : Table.get? (properties old) k = some T) : T.Regular := by
  match old, hold with
  | some (.object ps rules), hold =>
    cases hold _ rfl with
    | object _ _ hps => exact hps _ (Table.mem_of_get? hT)
  | none, _ | some (.array ..), _ | some (.scalar _), _ => cases hT

theorem element_regular (hold : ∀ S, old = some S → S.Regular)
    (hT : element? old = some T) : T.Regular := by
  match old, hold with
  | some (.array element rules), hold =>
    cases hold _ rfl with
    | array _ helement => exact helement T hT
  | none, _ | some (.object ..), _ | some (.scalar _), _ => cases hT

/-- The schema that is read off a regular value is regular. -/
theorem infer_regular (hv : v.Regular fun _ => True) (hold : ∀ S, old = some S → S.Regular) :
    (infer e old inherited v).Regular := by
  induction hv generalizing old inherited with
  | @scalar v hv =>
    cases v with
    | arr | obj => cases hv
    | _ => exact .scalar
  | @arr items h ih =>
    rw [infer]
    refine .array (arrayRules_regular (.arr h) hold) fun S hS => ?_
    obtain ⟨v, hv, rfl⟩ := inferFirst_eq_some hS
    exact ih v hv fun T => element_regular hold
  | @obj fields hkeys h ih =>
    rw [infer]
    refine .object ?_ (objectRules_regular (.obj hkeys h) hold) fun g hg => ?_
    · rw [keys_inferFields]
      exact (Json.Regular.obj hkeys h).stripMeta.fields.1
    · obtain ⟨f, hf, hg⟩ := mem_inferFields hg
      rw [hg]
      exact ih f hf fun T => properties_regular hold

theorem Regular.insert {props : List (String × Schema)} {rules : ObjectRules}
    (h : (Schema.object props rules).Regular) (hT : T.Regular) (k : String) :
    (Schema.object (Table.insert props k T) rules).Regular := by
  obtain ⟨hkeys, hrules, hprops⟩ | _ | _ := h
  refine .object (Table.nodup_keys_insert hkeys _ _) hrules fun f hf => ?_
  rcases Table.mem_insert hf with hf | rfl
  · exact hprops f hf
  · exact hT

theorem Regular.erase {props : List (String × Schema)} {rules : ObjectRules}
    (h : (Schema.object props rules).Regular) (k : String) :
    (Schema.object (Table.erase props k) rules).Regular := by
  obtain ⟨hkeys, hrules, hprops⟩ | _ | _ := h
  exact .object (hkeys.sublist (List.filter_sublist.map _)) hrules
    fun f hf => hprops f (List.mem_filter.1 hf).1

theorem Regular.property {props : List (String × Schema)} {rules : ObjectRules}
    (h : (Schema.object props rules).Regular) {k : String} (hT : Table.get? props k = some T) :
    T.Regular := by
  obtain ⟨-, -, hprops⟩ | _ | _ := h
  exact hprops _ (Table.mem_of_get? hT)

theorem refresh_regular (hS : S.Regular) (hw : w.Regular fun _ => True) :
    (refresh e inherited S w p).1.Regular ∧
      (refresh e inherited S w p).2.Regular fun _ => True := by
  refine refresh_induction
    (motive := fun S w r => S.Regular → (w.Regular fun _ => True) →
      r.1.Regular ∧ r.2.Regular fun _ => True) ?anew ?missing ?new ?field inherited S w p hS hw
  case anew =>
    intro _ S w hS hw
    exact ⟨infer_regular hw fun _ h => Option.some.inj h ▸ hS, hw.stripMeta⟩
  case missing => exact fun _ _ _ k _ hS hw => ⟨hS.erase k, hw⟩
  case new =>
    intro inherited _ _ _ k c hc hS hw
    have hc' := (Json.hereditary_regular.get hw hc).2
    have hnew : (infer e none inherited c).Regular := infer_regular hc' nofun
    exact ⟨hS.insert hnew k,
      Json.hereditary_regular.insert hw trivial hc'.stripMeta⟩
  case field =>
    intro _ _ _ k c T r hc hT ih hS hw
    have hr := ih (hS.property hT) (Json.hereditary_regular.get hw hc).2
    exact ⟨hS.insert hr.1 k, Json.hereditary_regular.insert hw trivial hr.2⟩

theorem Regular.at? (h : S.Regular) (hT : S.at? p = some T) : T.Regular := by
  induction p generalizing S with
  | nil =>
    cases hT
    exact h
  | cons s p ih =>
    obtain ⟨U, hU, hT⟩ := Option.bind_eq_some_iff.1 hT
    refine ih ?_ hT
    cases h with
    | object _ _ h => exact h _ (Table.mem_of_get? hU)
    | array _ h =>
      obtain ⟨_, -, hU⟩ := Option.bind_eq_some_iff.1 hU
      exact h U hU
    | scalar => cases hU

theorem Regular.template? {t : Json} (h : S.Regular) (ht : S.template? = some t) :
    t.Regular fun _ => True := by
  cases h with
  | object _ hrules => exact hrules.template t ht
  | array hrules => exact hrules.template t ht
  | scalar => cases ht

end Schema

/-! ## Commands -/

/-- The values among the arguments of a command repeat no name. What is read from the texts among
them never does. -/
def Command.Regular (command : Command) : Prop :=
  ∀ arg ∈ command.args, ∀ v, arg = .literal (.value v) → v.Regular fun _ => True

theorem Command.Regular.brings {command : Command} (h : command.Regular) (c : Config) :
    command.Brings c (fun _ => True) (Json.Regular fun _ => True) where
  path _ _ _ _ := trivial
  key _ _ _ _ _ _ := trivial
  value arg harg v hv := by
    cases arg with
    | source text => exact (Literal.readable_of_parse hv).regular.1
    | literal l =>
      cases hv
      exact h _ (mem_of_written? harg) v rfl

/-- Neither the document nor the schema has a name twice in one object. -/
structure Variables.Regular (vars : Variables) : Prop where
  data : vars.data.Regular fun _ => True
  schema : vars.schema.Regular

namespace Variables

variable (c : Config) {vars : Variables}

/-- Commands keep variables regular. -/
theorem Regular.run (h : vars.Regular) (hfits : vars.schema.Fits vars.data) {command : Command}
    (hcommand : command.Regular) : (vars.run c command).1.Regular := by
  obtain ⟨p, e, hrun⟩ | ⟨p, change, after, hp, hattempt, hrun⟩ := vars.run_cases c command
  · rw [hrun]
    exact h
  · obtain ⟨data, rfl, hdoes⟩ := Command.does_of_attempt hattempt
    have hdata : data.Regular fun _ => True := by
      refine hdoes.hereditary Json.hereditary_regular (hcommand.brings c) hp h.data fun t ht => ?_
      obtain ⟨T, hT, ht⟩ := Option.bind_eq_some_iff.1 ht
      exact (h.schema.at? hT).template? ht
    obtain ⟨hschema, hdata⟩ := Schema.refresh_regular h.schema hdata
    rw [hrun]
    simp only [reconcile, Schema.reconcile_eq_refresh hfits hdoes.edited]
    exact ⟨hdata, hschema⟩

theorem Regular.runAll (h : vars.Regular) (hfits : vars.schema.Fits vars.data)
    {commands : List Command} (hcommands : ∀ command ∈ commands, command.Regular) :
    (vars.runAll c commands).1.Regular := by
  induction commands generalizing vars with
  | nil => exact h
  | cons command commands ih =>
    obtain ⟨hcommand, hcommands⟩ := List.forall_mem_cons.1 hcommands
    rw [runAll_cons]
    exact ih (h.run c hfits hcommand) (run_fits c hfits command) hcommands

end Variables

namespace Bundle

variable {b : Bundle}

/-- The variables are regular, and the count of changes is a number of documents. -/
structure Regular (b : Bundle) : Prop extends b.toVariables.Regular where
  revision : b.revision < countBound

/-- The bundle without the templates that are `null`. -/
def withoutNulls (b : Bundle) : Bundle :=
  { b with schema := b.schema.withoutNulls }

/-- The bundle with its numbers as they are read from their texts. -/
def reread (b : Bundle) : Bundle :=
  { b with data := b.data.reread, schema := b.schema.reread }

theorem ofDocument_regular (e : Bool) {document : Json}
    (h : document.Regular fun _ => True) : (ofDocument e document).Regular where
  data := h.stripMeta
  schema := Schema.infer_regular h nofun
  revision := Nat.zero_lt_succ _

theorem Regular.apply (c : Config) (h : b.Regular) (hfits : b.schema.Fits b.data)
    {commands : List Command} (hcommands : ∀ command ∈ commands, command.Regular) :
    (b.apply c commands).1.Regular where
  toRegular := h.toRegular.runAll c hfits hcommands
  revision := Nat.mod_lt _ (by decide)

theorem reread_toJson (b : Bundle) : b.toJson.reread = b.reread.toJson := by
  have hschema : b.schema.toJson.mapNumbers Number.reread = b.schema.reread.toJson :=
    b.schema.reread_toJson
  simp only [toJson, Json.reread, Json.mapNumbers, Json.mapFields, hschema,
    Schema.mapNumbers_ofNat]
  rfl

/-- A regular bundle is read just if it is nested no deeper than the reader goes, with its numbers
as they are read from their texts and without the templates that are `null`. -/
theorem Regular.read?_write (h : b.Regular) : read? b.toJson.write =
    if b.toJson.depth ≤ Json.maxDepth then some b.reread.withoutNulls else none := by
  have hrevision : (Json.ofNat b.revision).asNat? = some b.revision := by
    have hlt : b.revision < 18446744073709551616 := h.revision
    simp [Json.ofNat, Number.ofNat, hlt, Json.asNat?]
  have hkeys : (Table.keys [("stat_data", b.data), ("schema", b.schema.toJson),
      ("revision", Json.ofNat b.revision)]).Nodup := by
    simp [Table.keys]
  have hfields : Json.mapFields Number.reread [("stat_data", b.data),
      ("schema", b.schema.toJson), ("revision", Json.ofNat b.revision)] =
      [("stat_data", b.data.reread), ("schema", b.schema.reread.toJson),
        ("revision", Json.ofNat b.revision)] := Json.obj.inj b.reread_toJson
  have hdata : b.data.reread.mergeRepeated = b.data.reread :=
    (h.data.mapNumbers Number.reread).mergeRepeated
  rw [read?, toJson, Json.readRecord?_write (by simp [fieldNames]) hkeys, hfields]
  split
  · simp [Table.get?_cons, hdata, h.schema.reread.ofJson?_toJson, hrevision, withoutNulls, reread]
  · rfl

/-- A regular bundle is what is read from its text just if none of its templates is `null` and all
its numbers are read back. -/
theorem Regular.withoutNulls_reread_eq_self (h : b.Regular) : b.reread.withoutNulls = b ↔
    (∀ p T, b.schema.at? p = some T → T.template? ≠ some .null) ∧
      ∀ n ∈ b.toJson.numbers, n.ReadsBack := by
  have hnumbers : (∀ n ∈ b.toJson.numbers, n.ReadsBack) ↔ b.toJson.reread = b.toJson := by
    simp only [Json.reread, Json.mapNumbers_eq_self, Number.readsBack_iff]
  rw [hnumbers, ← h.schema.withoutNulls_eq_self, reread_toJson]
  constructor
  · intro heq
    have hdata : b.data.reread = b.data := congrArg (fun b : Bundle => b.data) heq
    obtain ⟨hnulls, hschema⟩ :=
      h.schema.of_withoutNulls_reread (congrArg (fun b : Bundle => b.schema) heq)
    exact ⟨hnulls, by rw [reread, hdata, hschema]⟩
  · rintro ⟨hnulls, heq⟩
    simp only [toJson, Json.obj.injEq, List.cons.injEq, Prod.mk.injEq, true_and] at heq
    obtain ⟨hdata, hschema, -⟩ := heq
    -- A schema is read from its value, so schemas with one value are read as one.
    have hread : Schema.ofJson? b.reread.schema.toJson = some b.schema.withoutNulls :=
      hschema ▸ h.schema.ofJson?_toJson
    have hnulls' : b.schema.reread.withoutNulls = b.schema :=
      (Option.some.inj (h.schema.reread.ofJson?_toJson.symm.trans hread)).trans hnulls
    have hdata' : b.data.reread = b.data := hdata
    rw [withoutNulls, reread, hnulls', hdata']

/-- **What commands make of the bundle of a document is read back from its text just if it is nested
no deeper than the reader goes, none of its templates is `null` and its numbers are read back.** If
it nests deeper nothing is read, and otherwise all that is lost are the templates that are `null`
and numbers that are read as others. -/
theorem restored_iff (extensibleByDefault : Bool) {document : Json}
    (hdocument : document.Regular fun _ => True) (c : Config) {commands : List Command}
    (hcommands : ∀ command ∈ commands, command.Regular) :
    let b := ((ofDocument extensibleByDefault document).apply c commands).1
    (read? b.toJson.write =
        if b.toJson.depth ≤ Json.maxDepth then some b.reread.withoutNulls else none) ∧
      (read? b.toJson.write = some b ↔ b.toJson.depth ≤ Json.maxDepth ∧
        (∀ p T, b.schema.at? p = some T → T.template? ≠ some .null) ∧
        ∀ n ∈ b.toJson.numbers, n.ReadsBack) := by
  intro b
  have hfits := (Reachable.ofDocument extensibleByDefault document).fits
  have hb : b.Regular := (ofDocument_regular _ hdocument).apply c hfits hcommands
  have hread := hb.read?_write
  refine ⟨hread, ?_⟩
  rw [hread, ← hb.withoutNulls_reread_eq_self]
  split
  · next hdepth => simp only [hdepth, true_and, Option.some.injEq]
  · next hdepth => simp only [hdepth, false_and, reduceCtorEq]

/-- While the template of an array is `null`, new items take over nothing from those before them.
Behind the reader they do, for the template is lost. -/
theorem restored_iff_null_template :
    let settings : Json := .obj [("$arrayMeta", .bool true), ("$meta", .obj [("template", .null)])]
    let document : Json := .obj [("bag", .arr [settings, .obj [("a", .ofNat 1)]])]
    let insertion (k : String) : Command :=
      ⟨.insert, "bag", [.literal (.value (.obj [(k, .ofNat 2)]))], none⟩
    let b := ((ofDocument true document).apply {} [insertion "b"]).1
    ∃ restored, read? b.toJson.write = some restored ∧
      (b.applyOne {} (insertion "c")).1.data.get? [.key "bag", .index 2] =
        some (.obj [("c", .ofNat 2)]) ∧
      (restored.applyOne {} (insertion "c")).1.data.get? [.key "bag", .index 2] =
        some (.obj [("b", .ofNat 2), ("c", .ofNat 2)]) := by
  intro settings document insertion b
  have hdocument : document.Regular fun _ => True :=
    Json.regular_of_mergeRepeated (by decide +kernel)
  have hcommands : ∀ command ∈ [insertion "b"], command.Regular := by
    refine List.forall_mem_singleton.2 (List.forall_mem_singleton.2 fun v hv => ?_)
    cases hv
    exact Json.regular_of_mergeRepeated (by decide +kernel)
  have hread := (restored_iff true hdocument {} hcommands).1
  have hdepth : b.toJson.depth ≤ Json.maxDepth := by decide +kernel
  rw [if_pos hdepth] at hread
  exact ⟨b.reread.withoutNulls, hread, by decide +kernel, by decide +kernel⟩

end Bundle

end StatVars
