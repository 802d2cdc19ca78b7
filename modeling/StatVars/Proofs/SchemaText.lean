import StatVars.Proofs.Records
import StatVars.Schema.Codec

/-!
# Schemas that are read back

The field of a template that is `null` is read as if it were missing. Apart from that a schema is
what is read from the value that it is written as, if no property is there twice, its templates are
regular, its required fields differ and its limits are numbers of documents. The only numbers that
are not integers are in templates. Main statements: `Schema.Regular.ofJson?_toJson` and
`Schema.Regular.reread_toJson`.
-/

namespace StatVars

/-- The required fields differ, and the template repeats no name. -/
structure ObjectRules.Regular (rules : ObjectRules) : Prop where
  required : rules.required.Nodup
  template : ∀ t, rules.template = some t → t.Regular fun _ => True

/-- The limit is a number of documents, and the template repeats no name. -/
structure ArrayRules.Regular (rules : ArrayRules) : Prop where
  maxLen : ∀ n, rules.maxLen = some n → n < 18446744073709551616
  template : ∀ t, rules.template = some t → t.Regular fun _ => True

namespace Schema

/-- No object in the schema has two properties of one name, and the rules of its containers are
regular. -/
inductive Regular : Schema → Prop
  | object {ps rules} (hkeys : (Table.keys ps).Nodup) (hrules : rules.Regular)
      (h : ∀ e ∈ ps, Regular e.2) : Regular (.object ps rules)
  | array {element rules} (hrules : rules.Regular) (h : ∀ S, element = some S → Regular S) :
      Regular (.array element rules)
  | scalar {kind} : Regular (.scalar kind)

mutual

/-- The schema with the function applied to its templates. -/
def mapTemplates (f : Option Json → Option Json) : Schema → Schema
  | object ps rules => object (mapProperties f ps) { rules with template := f rules.template }
  | array e rules => array (mapElement f e) { rules with template := f rules.template }
  | scalar kind => scalar kind

def mapProperties (f : Option Json → Option Json) : List (String × Schema) → List (String × Schema)
  | [] => []
  | (k, p) :: ps => (k, mapTemplates f p) :: mapProperties f ps

def mapElement (f : Option Json → Option Json) : Option Schema → Option Schema
  | some e => some (mapTemplates f e)
  | none => none

end

/-- The schema without the templates that are `null`. -/
def withoutNulls (S : Schema) : Schema :=
  S.mapTemplates Json.orNull?

/-- The schema with the numbers in its templates as they are read from their texts. -/
def reread (S : Schema) : Schema :=
  S.mapTemplates (Option.map Json.reread)

variable {nested : Bool} {fuel : Nat} {shape : Shape} {fields : List (String × Json)}
  {ps : List (String × Schema)}

theorem keys_mapProperties (f : Option Json → Option Json) (ps : List (String × Schema)) :
    Table.keys (mapProperties f ps) = Table.keys ps := by
  induction ps with
  | nil => rfl
  | cons e ps ih => exact congrArg (e.1 :: ·) ih

/-! ## The fields of schemas -/

/-- The shape of a value with fields of this shape in their order. -/
theorem parts?_of_sublist (hkeys : (Table.keys fields).Sublist ("type" :: shape.fieldNames))
    (htype : Table.get? fields "type" = some (.str shape.name)) :
    parts? nested (.obj fields) = some (shape, fields) := by
  have hshape : Shape.ofJson? nested (.str shape.name) = some shape := by
    cases shape <;> rfl
  have hknown : (fields.filter fun f => f.1 = "type" || f.1 ∈ shape.fieldNames) = fields := by
    refine List.filter_eq_self.2 fun f hf => ?_
    have hf : f.1 ∈ "type" :: shape.fieldNames := hkeys.subset (List.mem_map_of_mem hf)
    simpa using hf
  have hnodup : ("type" :: shape.fieldNames).Nodup := by
    cases shape <;> decide
  have hdiffer : Json.namesDiffer fields := decide_eq_true (hnodup.sublist hkeys)
  simp only [parts?, htype, hshape, Option.bind_eq_bind, Option.bind_some, hknown, hdiffer]
  rfl

/-- A field that is left out if there is nothing to write. -/
def optionalField (k : String) (v : Option Json) : List (String × Json) :=
  (v.map fun v => (k, v)).toList

theorem get?_optionalField (k : String) (v : Option Json) (k' : String) :
    Table.get? (optionalField k v) k' = if k = k' then v else none := by
  cases v with
  | none => exact (ite_self none).symm
  | some v => rfl

theorem keys_optionalField (k : String) (v : Option Json) :
    (Table.keys (optionalField k v)).Sublist [k] := by
  cases v with
  | none => exact List.nil_sublist _
  | some v => exact List.Sublist.refl _

theorem foldl_addMember {l names : List String} (h : (l ++ names).Nodup) :
    names.foldl addMember l = l ++ names := by
  induction names generalizing l with
  | nil => exact (List.append_nil l).symm
  | cons k names ih =>
    have hadd : addMember l k = l ++ [k] := by
      have hk : k ∉ l := fun hmem => (List.nodup_append.1 h).2.2 k hmem k (.head _) rfl
      simp [addMember, hk]
    have hsplit : l ++ k :: names = l ++ [k] ++ names := by simp
    rw [List.foldl_cons, hadd, hsplit]
    exact ih (hsplit ▸ h)

theorem templateField_of_get? {template : Option Json}
    (h : Table.get? fields "template" = template)
    (hregular : ∀ t, template = some t → t.Regular fun _ => True) :
    templateField fields = Json.orNull? template := by
  rw [templateField, h]
  cases template with
  | none => rfl
  | some t =>
    cases ht : Json.orNull? (some t) with
    | none => rfl
    | some w =>
      have hw : w = t := by
        cases t <;> cases ht <;> rfl
      rw [hw, Option.map_some, (hregular t rfl).mergeRepeated]

/-- What is written of an object that requires any of its fields. -/
def requiredField (required : List String) : Option Json :=
  if required.isEmpty then none else some (.arr (required.map .str))

theorem requiredNames?_of_get? {required : List String}
    (h : Table.get? fields "required" = requiredField required) (hnodup : required.Nodup) :
    requiredNames? fields = some required := by
  rw [requiredNames?, h, requiredField]
  cases required with
  | nil => rfl
  | cons k required =>
    simp only [List.isEmpty_cons, Bool.false_eq_true, if_false, Json.asArr?, Option.bind_eq_bind,
      Option.bind_some, Json.mapM_asStr?, foldl_addMember (l := []) hnodup]
    rfl

theorem maxLenField?_of_get? {maxLen : Option Nat}
    (h : Table.get? fields "max_len" = maxLen.map Json.ofNat)
    (hmax : ∀ n, maxLen = some n → n < 18446744073709551616) :
    maxLenField? fields = some maxLen := by
  rw [maxLenField?, h]
  cases maxLen with
  | none => rfl
  | some n =>
    simp [Json.orNull?, Json.ofNat, Number.ofNat, hmax n rfl, Json.asNat?]

/-- The fields of the value that an object is written as. -/
def objectFields (ps : List (String × Schema)) (rules : ObjectRules) : List (String × Json) :=
  [("type", .str Shape.object.name), ("properties", .obj (propertiesToJson ps)),
    ("extensible", .bool rules.extensible), ("recursive_extensible", .bool rules.recursive)] ++
  optionalField "required" (requiredField rules.required) ++
  optionalField "template" rules.template

/-- The fields of the value that an array is written as. -/
def arrayFields (element : Option Schema) (rules : ArrayRules) : List (String × Json) :=
  [("type", .str Shape.array.name)] ++ optionalField "element" (element.map toJson) ++
  [("extensible", .bool rules.extensible), ("recursive_extensible", .bool rules.recursive)] ++
  optionalField "max_len" (rules.maxLen.map Json.ofNat) ++
  optionalField "template" rules.template

theorem toJson_object (ps : List (String × Schema)) (rules : ObjectRules) :
    toJson (object ps rules) = .obj (objectFields ps rules) := by
  rw [toJson, objectFields, requiredField]
  split <;> rfl

theorem toJson_array (element : Option Schema) (rules : ArrayRules) :
    toJson (array element rules) = .obj (arrayFields element rules) := by
  rw [toJson, arrayFields]
  cases element <;> cases rules.maxLen <;> rfl

theorem parts?_object (nested : Bool) (ps : List (String × Schema)) (rules : ObjectRules) :
    parts? nested (toJson (object ps rules)) = some (.object, objectFields ps rules) := by
  rw [toJson_object]
  refine parts?_of_sublist ?_ rfl
  simp only [objectFields, Table.keys, List.map_append, Shape.fieldNames]
  exact ((List.Sublist.refl _).append (keys_optionalField ..)).append (keys_optionalField ..)

theorem parts?_array (nested : Bool) (element : Option Schema) (rules : ArrayRules) :
    parts? nested (toJson (array element rules)) = some (.array, arrayFields element rules) := by
  rw [toJson_array]
  refine parts?_of_sublist ?_ rfl
  simp only [arrayFields, Table.keys, List.map_append, Shape.fieldNames]
  exact ((((List.Sublist.refl _).append (keys_optionalField ..)).append
    (List.Sublist.refl _)).append (keys_optionalField ..)).append (keys_optionalField ..)

theorem get?_element (element : Option Schema) (rules : ArrayRules) :
    Table.get? (arrayFields element rules) "element" = element.map toJson := by
  simp [arrayFields, Table.get?_append, get?_optionalField, Table.get?_cons]

theorem depth_property_lt {rules : ObjectRules} {e : String × Schema} (he : e ∈ ps) :
    e.2.toJson.depth < (toJson (object ps rules)).depth := by
  have hmem : (e.1, e.2.toJson) ∈ propertiesToJson ps := by
    induction ps with
    | nil => cases he
    | cons e' ps ih =>
      obtain rfl | he := List.mem_cons.1 he
      · exact .head _
      · exact .tail _ (ih he)
  have hproperties : (Json.obj (propertiesToJson ps)).depth ≤
      Json.depthFields (objectFields ps rules) :=
    Json.depthFields_le.1 (Nat.le_refl _) ("properties", _) (.tail _ (.head _))
  have hproperty : e.2.toJson.depth ≤ Json.depthFields (propertiesToJson ps) :=
    Json.depthFields_le.1 (Nat.le_refl _) _ hmem
  rw [Json.depth] at hproperties
  rw [toJson_object, Json.depth]
  omega

theorem depth_element_lt {S : Schema} {rules : ArrayRules} :
    S.toJson.depth < (toJson (array (some S) rules)).depth := by
  have hmem : ("element", S.toJson) ∈ arrayFields (some S) rules :=
    Table.mem_of_get? (get?_element (some S) rules)
  rw [toJson_array, Json.depth]
  exact Nat.lt_succ_of_le (Json.depthFields_le.1 (Nat.le_refl _) _ hmem)

/-! ## Reading what was written -/

theorem mapM_properties (hps : ∀ e ∈ ps, ofParts? fuel true e.2.toJson = some e.2.withoutNulls) :
    ((propertiesToJson ps).mapM fun (k, p) =>
      (ofParts? fuel true p).map fun schema => (k, schema)) =
        some (mapProperties Json.orNull? ps) := by
  induction ps with
  | nil => rfl
  | cons e ps ih =>
    obtain ⟨hp, hps⟩ := List.forall_mem_cons.1 hps
    simp [propertiesToJson, mapProperties, List.mapM_cons, hp, ih hps, withoutNulls]

theorem ofParts?_object {rules : ObjectRules} (hrules : rules.Regular)
    (hkeys : (Table.keys ps).Nodup)
    (hps : ∀ e ∈ ps, ofParts? fuel true e.2.toJson = some e.2.withoutNulls) :
    ofParts? (fuel + 1) nested (toJson (object ps rules)) =
      some (object ps rules).withoutNulls := by
  have hproperties : Table.get? (objectFields ps rules) "properties" =
      some (.obj (propertiesToJson ps)) := rfl
  have hextensible : requiredFlag? (objectFields ps rules) "extensible" =
      some rules.extensible := rfl
  have hrecursive : optionalFlag? (objectFields ps rules) "recursive_extensible" =
      some rules.recursive := rfl
  have hrequired : requiredNames? (objectFields ps rules) = some rules.required := by
    refine requiredNames?_of_get? ?_ hrules.required
    simp [objectFields, Table.get?_append, get?_optionalField, Table.get?_cons]
  have htemplate : templateField (objectFields ps rules) = Json.orNull? rules.template := by
    refine templateField_of_get? ?_ hrules.template
    simp [objectFields, Table.get?_append, get?_optionalField, Table.get?_cons]
  have hentries : Table.ofEntries (mapProperties Json.orNull? ps) =
      mapProperties Json.orNull? ps :=
    Table.ofEntries_of_nodup (keys_mapProperties _ ps ▸ hkeys)
  simp only [ofParts?, parts?_object, hproperties, Json.asObj?, mapM_properties hps, hextensible,
    hrecursive, hrequired, htemplate, Option.bind_eq_bind, Option.bind_some, hentries]
  rfl

theorem ofParts?_array {element : Option Schema} {rules : ArrayRules} (hrules : rules.Regular)
    (helement : ∀ S, element = some S → ofParts? fuel true S.toJson = some S.withoutNulls) :
    ofParts? (fuel + 1) nested (toJson (array element rules)) =
      some (array element rules).withoutNulls := by
  have hextensible : requiredFlag? (arrayFields element rules) "extensible" =
      some rules.extensible := by
    simp [requiredFlag?, arrayFields, Table.get?_append, get?_optionalField, Table.get?_cons,
      Json.asBool?]
  have hrecursive : optionalFlag? (arrayFields element rules) "recursive_extensible" =
      some rules.recursive := by
    simp [optionalFlag?, arrayFields, Table.get?_append, get?_optionalField, Table.get?_cons,
      Json.asBool?]
  have hmaxLen : maxLenField? (arrayFields element rules) = some rules.maxLen := by
    refine maxLenField?_of_get? ?_ hrules.maxLen
    simp [arrayFields, Table.get?_append, get?_optionalField, Table.get?_cons]
  have htemplate : templateField (arrayFields element rules) = Json.orNull? rules.template := by
    refine templateField_of_get? ?_ hrules.template
    simp [arrayFields, Table.get?_append, get?_optionalField, Table.get?_cons]
  cases element with
  | none =>
    simp only [ofParts?, parts?_array, get?_element, hextensible, hrecursive, hmaxLen, htemplate,
      Option.bind_eq_bind, Option.bind_some]
    rfl
  | some S =>
    have hnull : Json.orNull? (some S.toJson) = some S.toJson := by
      cases S <;> rfl
    simp only [ofParts?, parts?_array, get?_element, Option.map_some, hnull, helement S rfl,
      hextensible, hrecursive, hmaxLen, htemplate, Option.bind_eq_bind, Option.bind_some]
    rfl

theorem kindField?_scalar (kind : ScalarKind) :
    kindField? [("type", .str Shape.scalar.name), ("kind", .str kind.name)] = some kind := by
  cases kind <;> rfl

theorem ofParts?_scalar (kind : ScalarKind) :
    ofParts? (fuel + 1) nested (toJson (scalar kind)) = some (scalar kind) := by
  have hparts : parts? nested (toJson (scalar kind)) =
      some (.scalar, [("type", .str Shape.scalar.name), ("kind", .str kind.name)]) :=
    parts?_of_sublist (List.Sublist.refl _) rfl
  simp only [ofParts?, hparts, kindField?_scalar, Option.bind_eq_bind, Option.bind_some]
  rfl

/-- **A schema is read back without the templates that are `null`.** -/
theorem Regular.ofParts?_toJson {S : Schema} (h : S.Regular) (nested : Bool)
    (hfuel : S.toJson.depth < fuel) : ofParts? fuel nested S.toJson = some S.withoutNulls := by
  induction h generalizing fuel nested with
  | object hkeys hrules h ih =>
    cases fuel with
    | zero => cases hfuel
    | succ fuel =>
      refine ofParts?_object hrules hkeys fun e he => ih e he true ?_
      exact Nat.lt_of_lt_of_le (depth_property_lt he) (Nat.le_of_lt_succ hfuel)
  | array hrules h ih =>
    cases fuel with
    | zero => cases hfuel
    | succ fuel =>
      refine ofParts?_array hrules fun S hS => ih S hS true ?_
      subst hS
      exact Nat.lt_of_lt_of_le depth_element_lt (Nat.le_of_lt_succ hfuel)
  | scalar =>
    cases fuel with
    | zero => cases hfuel
    | succ fuel => exact ofParts?_scalar _

theorem Regular.ofJson?_toJson {S : Schema} (h : S.Regular) :
    ofJson? S.toJson = some S.withoutNulls :=
  h.ofParts?_toJson false (Nat.lt_succ_self _)

/-! ## Numbers in schemas -/

theorem mapFields_optionalField (f : Number → Number) (k : String) (v : Option Json) :
    Json.mapFields f (optionalField k v) = optionalField k (v.map (Json.mapNumbers f)) := by
  cases v <;> rfl

theorem mapNumbers_ofNat (n : Nat) : (Json.ofNat n).mapNumbers Number.reread = .ofNat n := by
  show Json.num (Number.ofNat n).reread = .num (Number.ofNat n)
  rw [Number.ofNat]
  split <;> rw [Number.readsBack_iff.1 (Number.readsBack_int _ _)]

theorem map_requiredField (f : Number → Number) (required : List String) :
    (requiredField required).map (Json.mapNumbers f) = requiredField required := by
  rw [requiredField]
  split
  · rfl
  · refine congrArg some ((Json.mapNumbers_eq_self _ _).2 fun n hn => ?_)
    rw [Json.numbers] at hn
    obtain ⟨v, hv, hn⟩ := Json.mem_itemNumbers.1 hn
    obtain ⟨k, -, rfl⟩ := List.mem_map.1 hv
    cases hn

mutual

/-- **The numbers in the value of a schema are in its templates**, apart from integers. -/
theorem reread_toJson (S : Schema) : S.toJson.reread = S.reread.toJson := by
  match S with
  | object ps rules =>
    rw [reread, mapTemplates, toJson_object, toJson_object]
    refine congrArg Json.obj ?_
    simp only [objectFields, Json.mapFields_append, mapFields_optionalField, Json.mapFields,
      Json.mapNumbers, mapFields_propertiesToJson ps, map_requiredField]
    rfl
  | array element rules =>
    have hmaxLen : (rules.maxLen.map Json.ofNat).map (Json.mapNumbers Number.reread) =
        rules.maxLen.map Json.ofNat := by
      rw [Option.map_map]
      exact congrArg (rules.maxLen.map ·) (funext mapNumbers_ofNat)
    rw [reread, mapTemplates, toJson_array, toJson_array]
    refine congrArg Json.obj ?_
    simp only [arrayFields, Json.mapFields_append, mapFields_optionalField, Json.mapFields,
      Json.mapNumbers, map_elementToJson element, hmaxLen]
    rfl
  | scalar kind => rfl

theorem mapFields_propertiesToJson (ps : List (String × Schema)) :
    Json.mapFields Number.reread (propertiesToJson ps) =
      propertiesToJson (mapProperties (Option.map Json.reread) ps) := by
  match ps with
  | [] => rfl
  | (k, S) :: ps =>
    have hS := reread_toJson S
    rw [propertiesToJson, Json.mapFields, mapFields_propertiesToJson ps, mapProperties,
      propertiesToJson]
    exact congrArg (fun v => (k, v) :: _) hS

theorem map_elementToJson (element : Option Schema) :
    (element.map toJson).map (Json.mapNumbers Number.reread) =
      (mapElement (Option.map Json.reread) element).map toJson := by
  match element with
  | none => rfl
  | some S => exact congrArg some (reread_toJson S)

end

theorem Regular.reread {S : Schema} (h : S.Regular) : S.reread.Regular := by
  have htemplate {template : Option Json}
      (h : ∀ t, template = some t → t.Regular fun _ => True) :
      ∀ t, template.map Json.reread = some t → t.Regular fun _ => True := by
    intro t ht
    obtain ⟨t, heq, rfl⟩ := Option.map_eq_some_iff.1 ht
    exact (h t heq).mapNumbers Number.reread
  induction h with
  | @object ps rules hkeys hrules h ih =>
    refine .object ?_ ⟨hrules.required, htemplate hrules.template⟩ ?_
    · rwa [keys_mapProperties]
    · clear hkeys h
      induction ps with
      | nil => exact List.forall_mem_nil _
      | cons e ps ihps =>
        obtain ⟨he, hps⟩ := List.forall_mem_cons.1 ih
        exact List.forall_mem_cons.2 ⟨he, ihps hps⟩
  | @array element rules hrules h ih =>
    refine .array ⟨hrules.maxLen, htemplate hrules.template⟩ fun S hS => ?_
    cases element with
    | none => cases hS
    | some T =>
      cases hS
      exact ih T rfl
  | scalar => exact .scalar

/-! ## Schemas that stay the same -/

variable {f : Option Json → Option Json}

theorem mapTemplates_object {rules : ObjectRules} :
    (object ps rules).mapTemplates f = object ps rules ↔
      f rules.template = rules.template ∧ ∀ e ∈ ps, e.2.mapTemplates f = e.2 := by
  have hps : mapProperties f ps = ps ↔ ∀ e ∈ ps, e.2.mapTemplates f = e.2 := by
    induction ps with
    | nil => simp [mapProperties]
    | cons e ps ih =>
      rw [List.forall_mem_cons, ← ih, mapProperties, List.cons.injEq, Prod.ext_iff]
      simp only [true_and]
  have hrules : { rules with template := f rules.template } = rules ↔
      f rules.template = rules.template :=
    ⟨congrArg ObjectRules.template, fun h => by rw [h]⟩
  rw [mapTemplates, object.injEq, hps, hrules, and_comm]

theorem mapTemplates_array {element : Option Schema} {rules : ArrayRules} :
    (array element rules).mapTemplates f = array element rules ↔
      f rules.template = rules.template ∧ ∀ S, element = some S → S.mapTemplates f = S := by
  have helement : mapElement f element = element ↔
      ∀ S, element = some S → S.mapTemplates f = S := by
    cases element <;> simp [mapElement]
  have hrules : { rules with template := f rules.template } = rules ↔
      f rules.template = rules.template :=
    ⟨congrArg ArrayRules.template, fun h => by rw [h]⟩
  rw [mapTemplates, array.injEq, helement, hrules, and_comm]

theorem map_template?_of_mapTemplates {S T : Schema} {p : Path} (hf : f none = none)
    (h : S.mapTemplates f = S) (hT : S.at? p = some T) : f T.template? = T.template? := by
  induction p generalizing S with
  | nil =>
    cases hT
    cases T with
    | object => exact (mapTemplates_object.1 h).1
    | array => exact (mapTemplates_array.1 h).1
    | scalar => exact hf
  | cons s p ih =>
    obtain ⟨U, hU, hT⟩ := Option.bind_eq_some_iff.1 hT
    refine ih ?_ hT
    cases S with
    | object ps => exact (mapTemplates_object.1 h).2 _ (Table.mem_of_get? hU)
    | array =>
      obtain ⟨_, -, hU⟩ := Option.bind_eq_some_iff.1 hU
      exact (mapTemplates_array.1 h).2 U hU
    | scalar => cases hU

/-- A schema stays as it is just if its templates do. -/
theorem Regular.mapTemplates_eq_self {S : Schema} (h : S.Regular) (hf : f none = none) :
    S.mapTemplates f = S ↔ ∀ p T, S.at? p = some T → f T.template? = T.template? := by
  refine ⟨fun hS p T => map_template?_of_mapTemplates hf hS, fun hS => ?_⟩
  induction h with
  | @object ps rules hkeys hrules h ih =>
    refine mapTemplates_object.2 ⟨hS [] _ rfl, fun e he => ih e he fun p T hT => ?_⟩
    have hget := Table.get?_of_mem hkeys he
    exact hS (.key e.1 :: p) T (Option.bind_eq_some_iff.2 ⟨e.2, hget, hT⟩)
  | @array element rules hrules h ih =>
    refine mapTemplates_array.2 ⟨hS [] _ rfl, fun S helement => ih S helement fun p T hT => ?_⟩
    exact hS (.index 0 :: p) T (Option.bind_eq_some_iff.2 ⟨S, helement, hT⟩)
  | scalar => rfl

theorem orNull?_eq_self {template : Option Json} :
    Json.orNull? template = template ↔ template ≠ some .null := by
  unfold Json.orNull?
  split
  · simp
  · next hnull => simpa using hnull

theorem Regular.withoutNulls_eq_self {S : Schema} (h : S.Regular) :
    S.withoutNulls = S ↔ ∀ p T, S.at? p = some T → T.template? ≠ some .null := by
  simp only [withoutNulls, h.mapTemplates_eq_self (f := Json.orNull?) rfl, orNull?_eq_self]

mutual

theorem mapTemplates_mapTemplates (f g : Option Json → Option Json) (S : Schema) :
    (S.mapTemplates g).mapTemplates f = S.mapTemplates (f ∘ g) := by
  match S with
  | object ps rules =>
    rw [mapTemplates, mapTemplates, mapTemplates, mapProperties_mapProperties f g ps]
    rfl
  | array element rules =>
    rw [mapTemplates, mapTemplates, mapTemplates, mapElement_mapElement f g element]
    rfl
  | scalar kind => rfl

theorem mapProperties_mapProperties (f g : Option Json → Option Json)
    (ps : List (String × Schema)) :
    mapProperties f (mapProperties g ps) = mapProperties (f ∘ g) ps := by
  match ps with
  | [] => rfl
  | (k, S) :: ps =>
    rw [mapProperties, mapProperties, mapProperties, mapTemplates_mapTemplates f g S,
      mapProperties_mapProperties f g ps]

theorem mapElement_mapElement (f g : Option Json → Option Json) (element : Option Schema) :
    mapElement f (mapElement g element) = mapElement (f ∘ g) element := by
  match element with
  | none => rfl
  | some S => exact congrArg some (mapTemplates_mapTemplates f g S)

end

theorem orNull?_map_eq_self {template : Option Json}
    (h : Json.orNull? (template.map Json.reread) = template) :
    Json.orNull? template = template ∧ template.map Json.reread = template := by
  cases template with
  | none => exact ⟨rfl, rfl⟩
  | some t =>
    have hreread : t.reread = t := by
      cases t with
      | null => cases h
      | _ => exact Option.some.inj h
    rw [Option.map_some, hreread] at h
    exact ⟨h, congrArg some hreread⟩

/-- A schema that is read back as it is has no template that is `null`, and the numbers in its
templates are read back. -/
theorem Regular.of_withoutNulls_reread {S : Schema} (h : S.Regular)
    (hS : S.reread.withoutNulls = S) : S.withoutNulls = S ∧ S.reread = S := by
  rw [withoutNulls, Schema.reread, mapTemplates_mapTemplates, h.mapTemplates_eq_self rfl] at hS
  constructor
  · exact (h.mapTemplates_eq_self rfl).2 fun p T hT => (orNull?_map_eq_self (hS p T hT)).1
  · exact (h.mapTemplates_eq_self rfl).2 fun p T hT => (orNull?_map_eq_self (hS p T hT)).2

end Schema

end StatVars
