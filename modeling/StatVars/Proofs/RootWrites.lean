import StatVars.Proofs.Descriptions
import StatVars.Proofs.NumberText

/-!
# Fields written through the root

The object `{k: v}` written at the root and `v` written at the field `k` are two ways to write one
field. They are checked alike, so they are applied or refused together, and they lead to the same
document unless the field holds something that a write at the field itself would keep: a
description that `v` does not replace, or a number where `v` is a numeral. A write at the root keeps
neither. Main statement: `Bundle.root_write_iff`.
-/

namespace StatVars

namespace Json

open Change

variable {v w old : Json} {k : String} {fields : List (String × Json)}

/-! ## Annotations -/

theorem stripMeta_stripMeta (v : Json) : v.stripMeta.stripMeta = v.stripMeta :=
  (stripMeta_avoids v).stripMeta

theorem stripFields_insert (hk : k ≠ metaKey) (fields : List (String × Json)) (v : Json) :
    stripFields (Table.insert fields k v) = Table.insert (stripFields fields) k v.stripMeta := by
  induction fields with
  | nil => simp [Table.insert, stripFields, hk]
  | cons f fields ih =>
    obtain ⟨k', w⟩ := f
    by_cases hmeta : k' = metaKey
    · have hne : k' ≠ k := fun h => hk (h ▸ hmeta)
      simp [Table.insert, stripFields, hmeta, Ne.symm hk, ih]
    · by_cases hsame : k' = k
      · simp [Table.insert, stripFields, hsame, hk]
      · simp [Table.insert, stripFields, hsame, hmeta, ih]

theorem stripMeta_insert (hk : k ≠ metaKey) (fields : List (String × Json)) (v : Json) :
    (Json.obj (Table.insert fields k v)).stripMeta =
      .obj (Table.insert (stripFields fields) k v.stripMeta) :=
  congrArg Json.obj (stripFields_insert hk fields v)

theorem stripMeta_insert_eq_iff (hk : k ≠ metaKey) :
    (Json.obj (Table.insert fields k v)).stripMeta =
        (Json.obj (Table.insert fields k w)).stripMeta ↔ v.stripMeta = w.stripMeta := by
  rw [stripMeta_insert hk, stripMeta_insert hk]
  constructor
  · intro h
    have hget := congrArg (Table.get? · k) (Json.obj.inj h)
    simpa using hget
  · intro h
    rw [h]

/-! ## What a write keeps of the value that it meets -/

/-- Nothing of the value is kept when `v` is written over it: if it is described then `v` brings a
description, and if it is a number then `v` is no numeral. -/
structure KeepsNothing (old v : Json) : Prop where
  description : old.isDescribed → carriesDescription v
  number : ∀ n text, old = .num n → v = .str text → v.asNumber? = none

theorem coerceLike_eq_iff :
    coerceLike old v = v ↔ ∀ n text, old = .num n → v = .str text → v.asNumber? = none := by
  by_cases hcoerced : ∃ n text, old = .num n ∧ v = .str text
  · obtain ⟨n, text, rfl, rfl⟩ := hcoerced
    cases hx : (Json.str text).asNumber? with
    | none => simp [coerceLike, hx]
    | some x =>
      obtain ⟨m, hm⟩ := Number.exists_ofBinary64?_finite x
      simp [coerceLike, hx, hm]
  · have hsame : coerceLike old v = v := by
      unfold coerceLike
      split
      · exact absurd ⟨_, _, rfl, rfl⟩ hcoerced
      · rfl
    simp only [hsame, true_iff]
    exact fun n text hold hv => absurd ⟨n, text, hold, hv⟩ hcoerced

/-- What is written over a described value is kept in it, if it brings no description. -/
theorem setDescribed_ne (hplain : carriesDescription v = false) (h : old.described? = some w) :
    old.setDescribed (coerceLike w (unwrapValue v)) ≠ v := by
  intro hsame
  obtain ⟨place, text, hdescribed⟩ := isDescribed_iff.1 (Option.isSome_iff_exists.2 ⟨w, h⟩)
  cases hdescribed with
  | @pair a text ha hstr =>
    -- The pair would be its own first item.
    rw [setDescribed, List.set_cons_zero] at hsame
    generalize hx : coerceLike w (unwrapValue v) = x at hsame
    subst hsame
    have hself : coerceLike w (unwrapValue (.arr [x, .str text])) = .arr [x, .str text] := by
      cases w <;> rfl
    have hsize := congrArg sizeOf (hself.symm.trans hx)
    simp only [arr.sizeOf_spec, List.cons.sizeOf_spec] at hsize
    omega
  | @record fields a text _ _ _ htext =>
    have hcarries : carriesDescription (.obj (Table.insert fields "value"
        (coerceLike w (unwrapValue v)))) := by
      rw [carriesDescription, Table.contains_insert, Table.contains_of_get? htext, Bool.or_true]
    rw [setDescribed] at hsame
    rw [hsame, hplain] at hcarries
    cases hcarries

theorem describedSlot?_eq_none :
    describedSlot? old v = none ↔ (old.isDescribed → carriesDescription v) := by
  unfold describedSlot? isDescribed
  split <;> simp_all

theorem written_eq_iff : old.written v = v ↔ old.KeepsNothing v := by
  cases hslot : describedSlot? old v with
  | some w =>
    have hold := described?_of_slot hslot
    have hplain : ¬ (old.isDescribed → carriesDescription v) := by
      rw [← describedSlot?_eq_none, hslot]
      nofun
    rw [written, hslot]
    refine iff_of_false (setDescribed_ne ?_ hold) fun h => hplain h.description
    rw [Classical.not_imp, Bool.not_eq_true] at hplain
    exact hplain.2
  | none =>
    rw [written, hslot]
    exact coerceLike_eq_iff.trans
      ⟨fun h => ⟨describedSlot?_eq_none.1 hslot, h⟩, fun h => h.number⟩

theorem written_avoids (old : Json) (hv : v.Avoids metaKey) : (old.written v).Avoids metaKey := by
  cases hold : old.isDescribed with
  | true =>
    obtain ⟨place, text, h⟩ := isDescribed_iff.1 hold
    exact h.avoids.written hv
  | false =>
    rw [written_of_not_described hold]
    exact (hereditary_avoids metaKey).coerceLike old hv

end Json

/-! ## The two writes -/

open Json

variable {c : Config} {p : Path} {v : Json} {command : Command} {vars : Variables} {s : Step}
  {fields : List (String × Json)}

/-- A field that is there may be written. -/
theorem Schema.checkField_of_get? {S : Option Schema} {k : String} {w : Json}
    (h : Table.get? fields k = some w) : checkField S p k fields = .ok () :=
  if_pos (Table.contains_of_get? h)

/-- A write of a field of the document is an insertion of it, unless the field is there. -/
theorem Schema.checkSet_field (S : Schema) (fields : List (String × Json)) (s : Step) :
    S.checkSet (.obj fields) [s] = checkField (some S) [] s.asKey fields := by
  cases hc : (Json.obj fields).child? s with
  | some c =>
    have hget : (Json.obj fields).get? [s] = some c := by rw [get?_cons, hc]; rfl
    rw [checkSet_of_get? hget]
    exact (checkField_of_get? hc).symm
  | none =>
    have hmissing := checkSet_of_missing (p := []) (get?_nil _) hc S []
    rw [List.nil_append] at hmissing
    have hinsert : checkInsert S (.obj fields) [] s = checkField (some S) [] s.asKey fields := rfl
    rw [hmissing, hinsert]
    cases checkField (some S) [] s.asKey fields <;> rfl

/-- Bringing the schema up to date after a change of a field removes annotations only. -/
theorem Schema.stripMeta_reconcile_field (hk : s.asKey ≠ metaKey) (e : Bool) (S : Schema)
    (fields : List (String × Json)) :
    (Schema.reconcile e S (.obj fields) [s]).2.stripMeta = (Json.obj fields).stripMeta := by
  have hbefore : beforeArray (.obj fields) [s] = [s] := by
    simp only [beforeArray]
    split <;> rfl
  cases S with
  | object ps rules =>
    have hanchor : anchor? (.object ps rules) [s] = some ([], s) := by
      simp only [anchor?, Option.bind_fun_none]
    simp only [reconcile, hbefore, hanchor, List.nil_append]
    cases hstripped : (Json.obj fields).modify? (fun v => some v.stripMeta) [s] with
    | none => rfl
    | some w =>
      obtain ⟨fields', c, d, hobj, hc, hd, rfl⟩ | ⟨_, _, _, _, harr, _⟩ :=
        modifyChild?_eq_some hstripped
      · cases hobj
        cases hd
        rw [Option.getD_some, stripMeta_insert hk, stripMeta_stripMeta, ← stripMeta_insert hk,
          Table.insert_of_get? hc]
      · cases harr
  | _ =>
    simp only [reconcile, hbefore, anchor?, Option.bind_fun_none]
    exact stripMeta_stripMeta _

namespace Change

/-- A write at the root of an object with one field. -/
theorem setRoot_field {k : String} (hdata : vars.data = .obj fields) :
    setRoot [] (.value (.obj [(k, v)])) vars =
      match Schema.checkField (some vars.schema) [] k fields with
      | .error e => (.error (.schema e), vars)
      | .ok () => (.ok ⟨[], some vars.data, some (.obj (Table.insert fields k v))⟩,
          { vars with data := .obj (Table.insert fields k v) }) := by
  obtain ⟨data, S⟩ := vars
  cases hdata
  have hcheck : S.checkSet (.obj fields) [.key k] = Schema.checkField (some S) [] k fields :=
    S.checkSet_field fields (.key k)
  have hkeys : (Table.keys [(k, v)]).forM (fun j => guarded (S.checkSet (.obj fields) [.key j])) =
      (guarded (Schema.checkField (some S) [] k fields) >>= fun _ => pure ⟨⟩) := by
    rw [← hcheck]
    rfl
  simp only [setRoot, Fallible.bind_apply, Fallible.get_apply, Fallible.forM_liftM_apply, hkeys]
  cases Schema.checkField (some S) [] k fields <;> rfl

/-- A write of a field that is missing. -/
theorem createAt_field (hdata : vars.data = .obj fields) :
    createAt [s] (.value v) vars =
      match Schema.checkField (some vars.schema) [] s.asKey fields with
      | .error e => (.error (.schema e), vars)
      | .ok () => (.ok ⟨[s], none, some v⟩,
          { vars with data := .obj (Table.insert fields s.asKey v) }) := by
  obtain ⟨data, S⟩ := vars
  cases hdata
  simp only [createAt, Fallible.bind_apply, Fallible.get_apply, S.checkSet_field,
    Fallible.liftM_apply]
  cases Schema.checkField (some S) [] s.asKey fields <;> rfl

end Change

namespace Command

/-- A command `set` of this value at the path. -/
structure SetsValue (c : Config) (p : Path) (command : Command) (v : Json) : Prop where
  kind : command.kind = .set
  path : Path.parse command.path = .ok p
  value : ∃ arg, command.args.getLast? = some arg ∧ arg.resolve c.literals = .ok (.value v)

/-- The command is refused if the document does not accept the field, and else leaves `w` in it,
annotations aside. It brings in no annotation. -/
structure PutsField (c : Config) (vars : Variables) (fields : List (String × Json)) (k : String)
    (command : Command) (w : Json) : Prop where
  refused : ∀ e, Schema.checkField (some vars.schema) [] k fields = .error e →
    (vars.run c command).2.error? = some (.schema e) ∧ (vars.run c command).1 = vars
  applied : Schema.checkField (some vars.schema) [] k fields = .ok () →
    (vars.run c command).2.error? = none ∧
      (vars.run c command).1.data.stripMeta = (Json.obj (Table.insert fields k w)).stripMeta ∧
      (vars.data.Avoids metaKey → (vars.run c command).1.data.Avoids metaKey)

theorem SetsValue.attempt_eq (h : command.SetsValue c p v) :
    command.attempt c p vars =
      if p.isEmpty then Change.setRoot p (.value v) vars
      else
        match vars.data.get? p with
        | none => Change.createAt p (.value v) vars
        | some current => Change.replaceAt p current v vars := by
  obtain ⟨arg, harg, hvalue⟩ := h.value
  exact attempt_set h.kind harg hvalue

/-- What is left of a check and of a write, once the schema is brought up to date. -/
theorem PutsField.of_attempt {k : String} {w : Json} (change : Change)
    (hpath : Path.parse command.path = .ok p)
    (hattempt : command.attempt c p vars =
      match Schema.checkField (some vars.schema) [] k fields with
      | .error e => (.error (.schema e), vars)
      | .ok () => (.ok change, { vars with data := .obj (Table.insert fields k w) }))
    (hstrip : (Schema.reconcile c.extensibleByDefault vars.schema (.obj (Table.insert fields k w))
      change.path).2.stripMeta = (Json.obj (Table.insert fields k w)).stripMeta)
    (havoids : vars.data.Avoids metaKey → (Schema.reconcile c.extensibleByDefault vars.schema
      (.obj (Table.insert fields k w)) change.path).2.Avoids metaKey) :
    command.PutsField c vars fields k w := by
  constructor
  · intro e he
    rw [he] at hattempt
    rw [Variables.run_of_attempt_error c vars hpath hattempt]
    exact ⟨rfl, rfl⟩
  · intro hok
    rw [hok] at hattempt
    rw [Variables.run_of_attempt_ok c vars hpath hattempt]
    exact ⟨rfl, hstrip, havoids⟩

theorem SetsValue.putsField_root {k : String} (h : command.SetsValue c [] (.obj [(k, v)]))
    (hdata : vars.data = .obj fields) : command.PutsField c vars fields k v := by
  have hattempt : command.attempt c [] vars = Change.setRoot [] (.value (.obj [(k, v)])) vars :=
    h.attempt_eq
  rw [Change.setRoot_field hdata] at hattempt
  exact .of_attempt _ h.path hattempt (stripMeta_stripMeta _) fun _ => stripMeta_avoids _

theorem SetsValue.putsField (h : command.SetsValue c [s] v) (hk : s.asKey ≠ metaKey)
    (hv : v.Avoids metaKey) (hdata : vars.data = .obj fields) :
    command.PutsField c vars fields s.asKey
      (((Table.get? fields s.asKey).map (·.written v)).getD v) := by
  have hstrip (w : Json) := Schema.stripMeta_reconcile_field hk c.extensibleByDefault vars.schema
    (Table.insert fields s.asKey w)
  have havoids (w : Json) (hw : w.Avoids metaKey) (hclean : vars.data.Avoids metaKey) :
      (Schema.reconcile c.extensibleByDefault vars.schema (.obj (Table.insert fields s.asKey w))
        [s]).2.Avoids metaKey := by
    rw [hdata] at hclean
    have hafter := hclean.insert hk hw
    rwa [Schema.reconcile_data hafter]
  have hattempt : command.attempt c [s] vars =
      match vars.data.get? [s] with
      | none => Change.createAt [s] (.value v) vars
      | some current => Change.replaceAt [s] current v vars := h.attempt_eq
  have hget : vars.data.get? [s] = Table.get? fields s.asKey := by
    rw [hdata]
    exact Option.bind_fun_some _
  rw [hget] at hattempt
  cases hold : Table.get? fields s.asKey with
  | none =>
    simp only [hold] at hattempt
    rw [Change.createAt_field hdata] at hattempt
    exact .of_attempt _ h.path hattempt (hstrip v) (havoids v hv)
  | some old =>
    simp only [hold] at hattempt
    obtain ⟨change, hpath, hreplace⟩ := Change.exists_replaceAt [s] old v
    have hwritten : vars.data.replace? [s] (old.written v) =
        some (.obj (Table.insert fields s.asKey (old.written v))) := by
      rw [hdata, replace?_field hold]
      rfl
    rw [hreplace hwritten] at hattempt
    refine .of_attempt change h.path ?_ ?_ ?_
    · rw [Schema.checkField_of_get? hold]
      exact hattempt
    · rw [hpath]
      exact hstrip _
    · rw [hpath]
      exact havoids _ (written_avoids old hv)

end Command

/-- What is refused has an error, and what is applied has none. -/
theorem Command.Result.applied_congr {r r' : Result} (h : r.error? = r'.error?) :
    r.applied = r'.applied := by
  obtain ⟨_, _, _ | _⟩ := r <;> obtain ⟨_, _, _ | _⟩ := r' <;> first | rfl | cases h

namespace Bundle

/-- **A field written through the root.** The object `{k: v}` at the root and `v` at the field `k`
are applied or refused together, with the same error. Annotations aside, and in a document without
annotations altogether, they lead to the same document exactly if a write at the field keeps nothing
of what is there. -/
theorem root_write_iff {b : Bundle} (hdata : b.data = .obj fields) (hk : s.asKey ≠ metaKey)
    (hv : v.Avoids metaKey) {root field : Command}
    (hroot : root.SetsValue c [] (.obj [(s.asKey, v)])) (hfield : field.SetsValue c [s] v) :
    let byRoot := b.applyOne c root
    let byField := b.applyOne c field
    let keepsNothing := ∀ old, Table.get? fields s.asKey = some old → old.KeepsNothing v
    byRoot.2.applied = byField.2.applied ∧ byRoot.2.error? = byField.2.error? ∧
      (byRoot.1.data.stripMeta = byField.1.data.stripMeta ↔ keepsNothing) ∧
      (b.data.Avoids metaKey → (byRoot.1.data = byField.1.data ↔ keepsNothing)) := by
  intro byRoot byField keepsNothing
  have hputs : root.PutsField c b.toVariables fields s.asKey v := hroot.putsField_root hdata
  have hputs' : field.PutsField c b.toVariables fields s.asKey _ := hfield.putsField hk hv hdata
  cases hcheck : Schema.checkField (some b.schema) [] s.asKey fields with
  | error e =>
    -- A field that is there may be written, so both are refused only if it is missing.
    obtain ⟨herror, hsame⟩ := hputs.refused e hcheck
    obtain ⟨herror', hsame'⟩ := hputs'.refused e hcheck
    have hmissing : keepsNothing := by
      intro old hold
      rw [Schema.checkField_of_get? hold] at hcheck
      cases hcheck
    have herrors : byRoot.2.error? = byField.2.error? := herror.trans herror'.symm
    have hunchanged : byRoot.1.data = byField.1.data :=
      congrArg Variables.data (hsame.trans hsame'.symm)
    exact ⟨Command.Result.applied_congr herrors, herrors,
      iff_of_true (congrArg stripMeta hunchanged) hmissing,
      fun _ => iff_of_true hunchanged hmissing⟩
  | ok =>
    obtain ⟨herror, hafter, havoids⟩ := hputs.applied hcheck
    obtain ⟨herror', hafter', havoids'⟩ := hputs'.applied hcheck
    have herrors : byRoot.2.error? = byField.2.error? := herror.trans herror'.symm
    have hbyRoot : byRoot.1.data.stripMeta = _ := hafter
    have hbyField : byField.1.data.stripMeta = _ := hafter'
    have hiff : byRoot.1.data.stripMeta = byField.1.data.stripMeta ↔ keepsNothing := by
      rw [hbyRoot, hbyField, stripMeta_insert_eq_iff hk]
      cases hold : Table.get? fields s.asKey with
      | none => simp [keepsNothing, hold]
      | some old =>
        rw [Option.map_some, Option.getD_some, hv.stripMeta, (written_avoids old hv).stripMeta,
          eq_comm, written_eq_iff]
        simp [keepsNothing, hold]
    refine ⟨Command.Result.applied_congr herrors, herrors, hiff, fun hclean => ?_⟩
    have hplain : byRoot.1.data.stripMeta = byRoot.1.data := (havoids hclean).stripMeta
    have hplain' : byField.1.data.stripMeta = byField.1.data := (havoids' hclean).stripMeta
    rwa [hplain, hplain'] at hiff

/-- A pair that replaces a described value has a description of its own, a number has none. -/
theorem root_write_iff_described :
    let b := ofDocument true (.obj [("hp", .arr [.ofNat 10, .str "health"])])
    let set (path : String) (v : Json) : Command := ⟨.set, path, [.literal (.value v)], none⟩
    let same (v : Json) : Prop :=
      (b.applyOne {} (set "" (.obj [("hp", v)]))).1.data = (b.applyOne {} (set "hp" v)).1.data
    same (.arr [.ofNat 20, .str "life"]) ∧ ¬ same (.ofNat 20) := by
  intro b set same
  have hiff (v : Json) (hv : v.Avoids metaKey) : same v ↔
      ∀ old, Table.get? [("hp", Json.arr [.ofNat 10, .str "health"])] "hp" = some old →
        old.KeepsNothing v := by
    have hroot : (set "" (.obj [("hp", v)])).SetsValue {} [] (.obj [("hp", v)]) :=
      ⟨rfl, rfl, _, rfl, rfl⟩
    have hpath : Path.parse "hp" = .ok [.key "hp"] := rfl
    have hfield : (set "hp" v).SetsValue {} [.key "hp"] v := ⟨rfl, hpath, _, rfl, rfl⟩
    obtain ⟨-, -, -, h⟩ := root_write_iff (b := b) (s := .key "hp") rfl (by decide) hv hroot hfield
    exact h (stripMeta_avoids _)
  constructor
  · have hpair : (Json.arr [.ofNat 20, .str "life"]).Avoids metaKey :=
      stripMeta_avoids (.arr [.ofNat 20, .str "life"])
    refine (hiff _ hpair).2 fun old hold => ?_
    obtain rfl : Json.arr [.ofNat 10, .str "health"] = old := Option.some.inj hold
    exact ⟨fun _ => by decide, fun n text hold => nomatch hold⟩
  · intro hsame
    have hkept := (hiff _ (.scalar rfl)).1 hsame (.arr [.ofNat 10, .str "health"]) rfl
    exact absurd (hkept.description (by decide)) (by decide)

end Bundle

end StatVars
