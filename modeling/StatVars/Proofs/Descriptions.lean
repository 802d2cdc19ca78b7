import StatVars.Proofs.Refusal
import StatVars.Proofs.Truth

/-!
# Descriptions of values that are written over

A value that is written over a described one takes the place of its scalar, so the text that
describes it stays, and stays through any number of such writes as long as each of them leaves a
described value behind. A container in the place of the scalar, or a text in the place of the scalar
of a pair, leaves what is no described value any more: the text is still there, but the next write
replaces all of it. Main statement: `Bundle.description_kept`.
-/

namespace StatVars

theorem Table.get?_insertAll_of_not_contains {κ α : Type} [DecidableEq κ] {t : Table κ α}
    {entries : List (κ × α)} {k : κ} (h : Table.contains entries k = false) :
    Table.get? (Table.insertAll t entries) k = Table.get? t k := by
  induction entries generalizing t with
  | nil => rfl
  | cons e entries ih =>
    obtain ⟨k', a⟩ := e
    by_cases hk : k' = k
    · simp [Table.contains, Table.get?_cons, hk] at h
    · have hrest : Table.contains entries k = false := by
        simpa [Table.contains, Table.get?_cons, hk] using h
      have hhead := ih (t := Table.insert t k' a) hrest
      rwa [Table.get?_insert, if_neg hk] at hhead

namespace Json

open Change

variable {v w leaf old : Json} {place : Step} {text : String} {p : Path}

theorem exists_replace? {c : Json} (h : v.get? p = some c) (w : Json) :
    ∃ v', v.replace? p w = some v' := by
  induction p generalizing v with
  | nil => exact ⟨w, rfl⟩
  | cons s p ih =>
    obtain ⟨a, ha, h⟩ := Option.bind_eq_some_iff.1 h
    obtain ⟨d, hd⟩ := ih h
    rw [replace?_cons]
    cases v with
    | obj fields =>
      refine ⟨.obj (Table.insert fields s.asKey d), ?_⟩
      rw [modifyChild?, Table.modify?_of_get? ha, hd]
      rfl
    | arr items =>
      obtain ⟨i, hi, ha⟩ := Option.bind_eq_some_iff.1 ha
      refine ⟨.arr (items.set i d), ?_⟩
      simp only [modifyChild?, hi, ha, hd, Option.bind_eq_bind, Option.bind_some]
      rfl
    | _ => cases ha

theorem get?_stripFields {k : String} (hk : k ≠ metaKey) (fields : List (String × Json)) :
    Table.get? (stripFields fields) k = (Table.get? fields k).map stripMeta := by
  induction fields with
  | nil => rfl
  | cons f fields ih =>
    obtain ⟨k', v⟩ := f
    rw [stripFields, Table.get?_cons]
    by_cases hmeta : k' = metaKey
    · have hne : k' ≠ k := fun h => hk (h ▸ hmeta)
      rw [if_pos hmeta, if_neg hne, ih]
    · rw [if_neg hmeta, Table.get?_cons, ih]
      split <;> rfl

theorem get?_child {c : Json} (h : v.get? p = some c) (s : Step) :
    v.get? (p.child s) = c.child? s := by
  rw [Path.child, get?_append, h]
  exact Option.bind_fun_some _

/-! ## Described values -/

/-- A described value whose text stands at this step. -/
inductive DescribedAt : Step → String → Json → Prop
  | pair {v : Json} {text : String} (hv : v.isScalar) (hstr : ∀ s, v ≠ .str s) :
    DescribedAt (.index 1) text (.arr [v, .str text])
  | record {fields : List (String × Json)} {v : Json} {text : String} (hlength : fields.length = 2)
      (hvalue : Table.get? fields "value" = some v) (hv : v.isScalar)
      (htext : Table.get? fields "description" = some (.str text)) :
    DescribedAt (.key "description") text (.obj fields)

/-- There are no other described values. -/
theorem isDescribed_iff : leaf.isDescribed ↔ ∃ place text, DescribedAt place text leaf := by
  constructor
  · intro h
    obtain ⟨old, h⟩ := Option.isSome_iff_exists.1 h
    unfold described? at h
    split at h
    · next v text =>
      split at h
      · cases h
      · next hstr =>
        split at h
        · next hv => exact ⟨_, _, .pair hv hstr⟩
        · cases h
    · next fields =>
      split at h
      · next hlength =>
        split at h
        · next v text hvalue htext =>
          split at h
          · next hv => exact ⟨_, _, .record (beq_iff_eq.1 hlength) hvalue hv htext⟩
          · cases h
        · cases h
      · cases h
    · cases h
  · rintro ⟨place, text, h⟩
    cases h with
    | @pair v _ hv hstr =>
      cases v with
      | str s => exact absurd rfl (hstr s)
      | _ => first | rfl | cases hv
    | record hlength hvalue hv htext =>
      simp [isDescribed, described?, hlength, hvalue, htext, hv]

namespace DescribedAt

theorem child? (h : DescribedAt place text leaf) : leaf.child? place = some (.str text) := by
  cases h with
  | pair => rfl
  | record _ _ _ htext => exact htext

/-- A described value has no annotation. -/
theorem avoids (h : DescribedAt place text leaf) : leaf.Avoids metaKey := by
  cases h with
  | pair hv _ => exact .cons (.scalar hv) (.cons (.scalar rfl) (.arr nofun))
  | @record fields v _ hlength hvalue hv htext =>
    -- Two fields of two names are all there is.
    match fields, hlength with
    | [(k, a), (l, b)], _ =>
      have hfields : k = "value" ∧ a = v ∧ l = "description" ∧ b = .str text ∨
          k = "description" ∧ a = .str text ∧ l = "value" ∧ b = v := by
        simp only [Table.get?_cons, Table.get?_nil] at hvalue htext
        grind
      have hvalueKey : "value" ≠ metaKey := by decide
      have htextKey : "description" ≠ metaKey := by decide
      rw [avoids_obj, List.forall_mem_cons, List.forall_mem_singleton]
      rcases hfields with ⟨rfl, rfl, rfl, rfl⟩ | ⟨rfl, rfl, rfl, rfl⟩
      · exact ⟨⟨hvalueKey, .scalar hv⟩, htextKey, .scalar rfl⟩
      · exact ⟨⟨htextKey, .scalar rfl⟩, hvalueKey, .scalar hv⟩

/-- The text stays where it is when the scalar is replaced. -/
theorem child?_setDescribed (h : DescribedAt place text leaf) (w : Json) :
    (leaf.setDescribed w).child? place = some (.str text) := by
  cases h with
  | pair => rfl
  | record _ _ _ htext =>
    refine (Table.get?_insert ..).trans ?_
    rw [if_neg (by decide)]
    exact htext

theorem setDescribed (h : DescribedAt place text leaf)
    (hw : (leaf.setDescribed w).isDescribed) : DescribedAt place text (leaf.setDescribed w) := by
  have hchild := h.child?_setDescribed w
  obtain ⟨place', text', h'⟩ := isDescribed_iff.1 hw
  cases h with
  | pair =>
    cases h' with
    | pair hv hstr => exact .pair hv hstr
  | record =>
    cases h' with
    | record hlength hvalue hv _ => exact .record hlength hvalue hv hchild

/-- What takes the place of a described value does not count as a replaced number. -/
theorem coerceLike_setDescribed (h : DescribedAt place text leaf) (w v : Json) :
    coerceLike (leaf.setDescribed w) v = v := by
  cases h <;> rfl

end DescribedAt

/-! ## What a write leaves -/

/-- What a write of `v` leaves of the value that it meets. -/
def written (leaf v : Json) : Json :=
  match describedSlot? leaf v with
  | some old => leaf.setDescribed (coerceLike old (unwrapValue v))
  | none => coerceLike leaf v

/-- Each of the values, written one after the other, leaves a described value. -/
def StaysDescribed (leaf : Json) : List Json → Prop
  | [] => True
  | v :: values => (leaf.written v).isDescribed ∧ (leaf.written v).StaysDescribed values

theorem Avoids.written {k : String} (hleaf : leaf.Avoids k) (hv : v.Avoids k) :
    (leaf.written v).Avoids k := by
  have hk := hereditary_avoids k
  unfold Json.written
  split
  · next old hold =>
    have hnew := hk.coerceLike old (hk.unwrapValue hv)
    exact hk.setDescribed hleaf (described?_of_slot hold) hnew
  · exact hk.coerceLike leaf hv

namespace DescribedAt

theorem written (h : DescribedAt place text leaf) (hplain : carriesDescription v = false) :
    ∃ new, leaf.written v = leaf.setDescribed new := by
  obtain ⟨old, hold⟩ := Option.isSome_iff_exists.1 (isDescribed_iff.2 ⟨_, _, h⟩)
  exact ⟨coerceLike old (unwrapValue v), by simp [Json.written, describedSlot?, hplain, hold]⟩

theorem of_written (h : DescribedAt place text leaf) (hplain : carriesDescription v = false)
    (hstays : (leaf.written v).isDescribed) : DescribedAt place text (leaf.written v) := by
  obtain ⟨new, hnew⟩ := h.written hplain
  rw [hnew] at hstays ⊢
  exact h.setDescribed hstays

theorem foldl_written {values : List Json} (h : DescribedAt place text leaf)
    (hplain : ∀ v ∈ values, carriesDescription v = false) (hstays : leaf.StaysDescribed values) :
    DescribedAt place text (values.foldl Json.written leaf) := by
  induction values generalizing leaf with
  | nil => exact h
  | cons v values ih =>
    obtain ⟨hv, hvalues⟩ := List.forall_mem_cons.1 hplain
    exact ih (h.of_written hv hstays.1) hvalues hstays.2

end DescribedAt

theorem StaysDescribed.left {before after : List Json} (h : leaf.StaysDescribed (before ++ after)) :
    leaf.StaysDescribed before := by
  induction before generalizing leaf with
  | nil => trivial
  | cons v before ih => exact ⟨h.1, ih h.2⟩

/-- Once a value is no described value any more, a write replaces it whole. -/
theorem written_of_not_described (h : leaf.isDescribed = false) (v : Json) :
    leaf.written v = coerceLike leaf v := by
  have hnone : leaf.described? = none := by simpa [isDescribed] using h
  simp [written, describedSlot?, hnone]

end Json

/-! ## Commands that write a value -/

/-- A command `set` at the path, of a value that brings no description. -/
structure Command.WritesPlain (c : Config) (p : Path) (command : Command) (v : Json) : Prop where
  kind : command.kind = .set
  path : Path.parse command.path = .ok p
  value : ∃ arg, command.args.getLast? = some arg ∧ arg.resolve c.literals = .ok (.value v)
  plain : Change.carriesDescription v = false

variable {c : Config} {p : Path} {v leaf : Json} {command : Command} {vars : Variables}
  {place : Step} {text : String}

/-- A write at a path that leads to something succeeds, with the change reported behind it. -/
theorem Change.overwrite_bind_apply {data w : Json} (hdata : vars.data.replace? p w = some data)
    (reported : Change) :
    (do overwrite p w; return reported : Attempt Change) vars =
      (.ok reported, { vars with data }) := by
  simp only [overwrite, Fallible.bind_apply, Fallible.get_apply, hdata, present,
    Fallible.liftM_apply, Fallible.set_apply]
  rfl

/-- What a write reports depends on the value that it replaces and on the new one only. -/
theorem Change.exists_replaceAt (p : Path) (current v : Json) :
    ∃ change : Change, change.path = p ∧ ∀ {vars : Variables} {data : Json},
      vars.data.replace? p (current.written v) = some data →
        replaceAt p current v vars = (.ok change, { vars with data }) := by
  unfold replaceAt Json.written
  cases describedSlot? current v with
  | some old => exact ⟨_, rfl, fun hdata => overwrite_bind_apply hdata _⟩
  | none => exact ⟨_, rfl, fun hdata => overwrite_bind_apply hdata _⟩

/-- The command `set` with a value. -/
theorem Command.attempt_set {arg : Argument} (hkind : command.kind = .set)
    (harg : command.args.getLast? = some arg) (hvalue : arg.resolve c.literals = .ok (.value v)) :
    command.attempt c p vars =
      if p.isEmpty then Change.setRoot p (.value v) vars
      else
        match vars.data.get? p with
        | none => Change.createAt p (.value v) vars
        | some current => Change.replaceAt p current v vars := by
  have hresolve : Change.resolve c arg = .ok (.value v) := by rw [Change.resolve, hvalue]; rfl
  simp only [attempt, hkind, Change.set, harg, Fallible.bind_apply, Fallible.liftM_apply, hresolve]
  split
  · rfl
  · simp only [Fallible.bind_apply, Fallible.get_apply]
    cases vars.data.get? p <;> rfl

namespace Command.WritesPlain

theorem attempt_eq (h : command.WritesPlain c p v) :
    command.attempt c p vars =
      if p.isEmpty then Change.setRoot p (.value v) vars
      else
        match vars.data.get? p with
        | none => Change.createAt p (.value v) vars
        | some current => Change.replaceAt p current v vars := by
  obtain ⟨arg, harg, hvalue⟩ := h.value
  exact attempt_set h.kind harg hvalue

/-- A write at a path that leads to something is applied, and is all that changes a document
without annotations. -/
theorem run_data {current : Json} (h : command.WritesPlain c p v) (hp : p ≠ [])
    (hdata : vars.data.Avoids metaKey) (hget : vars.data.get? p = some current)
    (hwritten : (current.written v).Avoids metaKey) :
    (vars.run c command).1.data.Avoids metaKey ∧
      (vars.run c command).1.data.get? p = some (current.written v) := by
  obtain ⟨data, hreplace⟩ := Json.exists_replace? hget (current.written v)
  obtain ⟨change, hchange, hreplaced⟩ := Change.exists_replaceAt p current v
  have hattempt : command.attempt c p vars = (.ok change, { vars with data }) := by
    rw [h.attempt_eq, if_neg (mt List.isEmpty_iff.1 hp), hget]
    exact hreplaced hreplace
  have hafter := (Json.hereditary_avoids metaKey).replace? hdata hwritten hreplace
  have hrun : (vars.run c command).1.data = data := by
    rw [Variables.run_of_attempt_ok c vars h.path hattempt]
    exact Schema.reconcile_data hafter change.path
  rw [hrun]
  exact ⟨hafter, Json.get?_of_replace? hreplace⟩

/-- At the root the fields of the value are laid over those of the document, or nothing happens. -/
theorem run_root (h : command.WritesPlain c [] v) :
    (vars.run c command).1 = vars ∨
      ∃ fields more, vars.data = .obj fields ∧ Table.contains more "description" = false ∧
        (vars.run c command).1.data = (Json.obj (Table.insertAll fields more)).stripMeta := by
  rcases vars.run_cases c command with ⟨p, e, hrun⟩ | ⟨p, change, after, hp, hattempt, hrun⟩
  · exact .inl (by rw [hrun])
  · cases h.path.symm.trans hp
    rw [h.attempt_eq] at hattempt
    obtain ⟨fields, more, hv, hdata, -, rfl, rfl⟩ := Change.setRoot_ok hattempt
    cases hv
    exact .inr ⟨fields, more, hdata, h.plain, by rw [hrun]; rfl⟩

/-- What stands in the field `description` of the document stays there. An array stays as it is. -/
theorem run_root_child (h : command.WritesPlain c [] v)
    (hplace : ∀ fields, vars.data = .obj fields → place = .key "description")
    (hchild : vars.data.child? place = some (.str text)) :
    (∀ fields, (vars.run c command).1.data = .obj fields → place = .key "description") ∧
      (vars.run c command).1.data.child? place = some (.str text) := by
  rcases h.run_root with hsame | ⟨fields, more, hdata, hmore, hrun⟩
  · rw [hsame]
    exact ⟨hplace, hchild⟩
  · obtain rfl := hplace fields hdata
    rw [hdata] at hchild
    refine ⟨fun _ _ => rfl, ?_⟩
    rw [hrun, Json.stripMeta, Json.child?, Step.asKey, Json.get?_stripFields (by decide),
      Table.get?_insertAll_of_not_contains hmore]
    exact congrArg (Option.map Json.stripMeta) hchild

end Command.WritesPlain

namespace Variables

/-- Commands that write at a path, each with the value that it writes. -/
abbrev runWrites (c : Config) (vars : Variables) (writes : List (Command × Json)) : Variables :=
  (vars.runAll c (writes.map (·.1))).1

variable {writes : List (Command × Json)}

/-- What such commands leave at the path is what the values leave one after the other. -/
theorem runWrites_data (hp : p ≠ []) (hdata : vars.data.Avoids metaKey)
    (hget : vars.data.get? p = some leaf) (hleaf : leaf.DescribedAt place text)
    (hwrites : ∀ write ∈ writes, write.1.WritesPlain c p write.2)
    (hstays : leaf.StaysDescribed (writes.map (·.2))) :
    (vars.runWrites c writes).data.Avoids metaKey ∧
      (vars.runWrites c writes).data.get? p =
        some ((writes.map (·.2)).foldl Json.written leaf) := by
  induction writes generalizing vars leaf with
  | nil => exact ⟨hdata, hget⟩
  | cons write writes ih =>
    obtain ⟨hwrite, hwrites⟩ := List.forall_mem_cons.1 hwrites
    have hwritten := hleaf.of_written hwrite.plain hstays.1
    obtain ⟨hdata', hget'⟩ := hwrite.run_data hp hdata hget hwritten.avoids
    exact ih hdata' hget' hwritten hwrites hstays.2

theorem runWrites_root
    (hplace : ∀ fields, vars.data = .obj fields → place = .key "description")
    (hchild : vars.data.child? place = some (.str text))
    (hwrites : ∀ write ∈ writes, write.1.WritesPlain c [] write.2) :
    (vars.runWrites c writes).data.child? place = some (.str text) := by
  induction writes generalizing vars with
  | nil => exact hchild
  | cons write writes ih =>
    obtain ⟨hwrite, hwrites⟩ := List.forall_mem_cons.1 hwrites
    obtain ⟨hplace', hchild'⟩ := hwrite.run_root_child hplace hchild
    exact ih hplace' hchild' hwrites

theorem runWrites_concat (c : Config) (vars : Variables) (writes : List (Command × Json))
    (write : Command × Json) :
    vars.runWrites c (writes ++ [write]) = ((vars.runWrites c writes).run c write.1).1 := by
  simp only [runWrites, List.map_append, runAll_append]
  rfl

end Variables

namespace Bundle

variable {b : Bundle} {writes : List (Command × Json)}

/-- **A description survives what is written over its value**, be it at the root or as long as every
value that is written leaves a described value behind. One more value leaves the description where
it is in any case; if it leaves no described value, the next one replaces the value and the
description. -/
theorem description_kept (hdata : b.data.Avoids metaKey) (hleaf : b.data.get? p = some leaf)
    (hdescribed : leaf.isDescribed)
    (hwrites : ∀ write ∈ writes, write.1.WritesPlain c p write.2)
    (hstays : p = [] ∨ leaf.StaysDescribed (writes.map (·.2))) :
    ∃ place text, leaf.DescribedAt place text ∧
      (∀ before after, writes = before ++ after →
        (b.apply c (before.map (·.1))).1.data.get? (p.child place) = some (.str text)) ∧
      ∀ write next : Command × Json, p ≠ [] →
        write.1.WritesPlain c p write.2 → write.2.Avoids metaKey →
        next.1.WritesPlain c p next.2 → next.2.Avoids metaKey →
        let left := ((writes.map (·.2)).foldl Json.written leaf).written write.2
        let once := (b.apply c ((writes ++ [write]).map (·.1))).1.data
        let twice := (b.apply c ((writes ++ [write] ++ [next]).map (·.1))).1.data
        once.get? (p.child place) = some (.str text) ∧
          (left.isDescribed = false → twice.get? p = some next.2) := by
  obtain ⟨place, text, hplace⟩ := Json.isDescribed_iff.1 hdescribed
  refine ⟨place, text, hplace, fun before after hsplit => ?_, ?_⟩
  · subst hsplit
    have hbefore := fun write hwrite => hwrites write (List.mem_append_left after hwrite)
    by_cases hp : p = []
    · subst hp
      cases hleaf
      have hroot : ∀ fields, b.data = .obj fields → place = .key "description" := by
        intro fields hfields
        rw [hfields] at hplace
        cases hplace
        rfl
      have hchild := Variables.runWrites_root hroot hplace.child? hbefore
      exact (Json.get?_child (Json.get?_nil _) place).trans hchild
    · have hstays := hstays.resolve_left hp
      rw [List.map_append] at hstays
      obtain ⟨-, hget⟩ := Variables.runWrites_data hp hdata hleaf hplace hbefore hstays.left
      have hlast := hplace.foldl_written
        (List.forall_mem_map.2 fun write hwrite => (hbefore write hwrite).plain) hstays.left
      exact (Json.get?_child hget place).trans hlast.child?
  · intro write next hp hwrite hwriteMeta hnext hnextMeta left once twice
    have hstays := hstays.resolve_left hp
    obtain ⟨hafter, hget⟩ := Variables.runWrites_data hp hdata hleaf hplace hwrites hstays
    have hlast := hplace.foldl_written
      (List.forall_mem_map.2 fun write hwrite => (hwrites write hwrite).plain) hstays
    obtain ⟨new, hnew⟩ := hlast.written hwrite.plain
    have honce := hwrite.run_data hp hafter hget (hlast.avoids.written hwriteMeta)
    rw [← Variables.runWrites_concat] at honce
    constructor
    · refine (Json.get?_child honce.2 place).trans ?_
      rw [hnew]
      exact hlast.child?_setDescribed new
    · intro hleft
      -- What is left has no scalar to replace, and is no number that a text could be read like.
      have hreplaced : left.written next.2 = next.2 := by
        rw [Json.written_of_not_described hleft]
        exact (congrArg (Change.coerceLike · next.2) hnew).trans
          (hlast.coerceLike_setDescribed new next.2)
      have hmeta : (left.written next.2).Avoids metaKey := by
        rw [hreplaced]
        exact hnextMeta
      have htwice := hnext.run_data hp honce.1 honce.2 hmeta
      rw [← Variables.runWrites_concat] at htwice
      exact htwice.2.trans (congrArg some hreplaced)

/-- The text of a number becomes a number, and the pair keeps its description. A list takes the
place of the number, and the description is still there; the next number replaces both. -/
theorem description_kept_pair :
    let b := ofDocument true (.obj [("hp", .arr [.ofNat 50, .str "health"])])
    let write (v : Json) : Command × Json := (⟨.set, "hp", [.literal (.value v)], none⟩, v)
    let after (values : List Json) := (b.apply {} ((values.map write).map (·.1))).1.data
    let text := Json.str "60"
    let list := Json.arr [.ofNat 1]
    (after [text]).get? [.key "hp", .index 1] = some (.str "health") ∧
      (after [text, list]).get? [.key "hp", .index 1] = some (.str "health") ∧
      (after [text, list, .ofNat 3]).get? [.key "hp"] = some (.ofNat 3) := by
  intro b write after text list
  have hpath : Path.parse "hp" = .ok [.key "hp"] := rfl
  have hwrite (v : Json) (hplain : Change.carriesDescription v = false) :
      (write v).1.WritesPlain {} [.key "hp"] (write v).2 := ⟨rfl, hpath, ⟨_, rfl, rfl⟩, hplain⟩
  have hwrites : ∀ w ∈ [write text], w.1.WritesPlain {} [.key "hp"] w.2 :=
    List.forall_mem_singleton.2 (hwrite text rfl)
  have hlist : list.Avoids metaKey := .arr (List.forall_mem_singleton.2 (.scalar rfl))
  have hdata : b.data.Avoids metaKey := Json.stripMeta_avoids _
  obtain ⟨place, description, hplace, hkept, hreplaced⟩ :=
    description_kept hdata rfl (by decide) hwrites (.inr ⟨by decide +kernel, trivial⟩)
  obtain ⟨honce, htwice⟩ := hreplaced (write list) (write (.ofNat 3)) nofun (hwrite list rfl)
    hlist (hwrite (.ofNat 3) rfl) (.scalar rfl)
  cases hplace
  exact ⟨hkept [write text] [] rfl, honce, htwice (by decide +kernel)⟩

end Bundle

end StatVars
