import StatVars.Proofs.Descriptions

/-!
# Independent writes commute

What a command writes over a value, and what it reports, depends on that value only, as long as no
annotation is around that would take effect. Two such commands whose paths part somewhere in the
document leave each other's value alone, so their order does not matter: it shows neither in the
document nor in what is reported of each of them. Main statement: `Bundle.apply_comm_of_parted`.
-/

namespace StatVars

theorem Table.insert_comm {κ α : Type} [DecidableEq κ] {t : Table κ α} {k j : κ}
    (hk : contains t k) (hne : k ≠ j) (a b : α) :
    insert (insert t k a) j b = insert (insert t j b) k a := by
  induction t with
  | nil => cases hk
  | cons e t ih =>
    obtain ⟨l, x⟩ := e
    by_cases hl : l = k
    · subst hl
      simp [insert, hne]
    · have hrest : contains t k := by simpa [contains, get?_cons, hl] using hk
      by_cases hj : l = j
      · subst hj
        simp [insert, hl]
      · simp [insert, hl, hj, ih hrest]

namespace Json

variable {v w w' c x y : Json} {s t : Step} {p q : Path} {fields : List (String × Json)}
  {items : List Json}

/-! ## Writes at paths that part -/

theorem sameStep_symm (h : v.sameStep s t) : v.sameStep t s := by
  cases v with
  | obj fields => exact Eq.symm h
  | arr items => exact Eq.symm h
  | _ => exact h

theorem Parted.symm (h : v.Parted q p) : v.Parted p q := by
  induction h with
  | here hv hs => exact .here hv fun h => hs (sameStep_symm h)
  | deeper hs hc _ ih => exact .deeper (sameStep_symm hs) ((child?_of_sameStep hs).trans hc) ih

theorem Parted.ne_nil (h : v.Parted q p) : q ≠ [] := by
  cases h <;> exact List.cons_ne_nil _ _

theorem replace?_field_some (h : (Json.obj fields).replace? (s :: p) x = some w) :
    ∃ c d, Table.get? fields s.asKey = some c ∧ c.replace? p x = some d ∧
      w = .obj (Table.insert fields s.asKey d) := by
  rw [replace?_cons] at h
  obtain ⟨_, c, d, hobj, hc, hd, rfl⟩ | ⟨_, _, _, _, hobj, _⟩ := modifyChild?_eq_some h <;>
    cases hobj
  exact ⟨c, d, hc, hd, rfl⟩

theorem replace?_item_some (h : (Json.arr items).replace? (s :: p) x = some w) :
    ∃ place c d, s.asIndex? = some place ∧ items[place]? = some c ∧ c.replace? p x = some d ∧
      w = .arr (items.set place d) := by
  rw [replace?_cons] at h
  obtain ⟨_, _, _, harr, _⟩ | ⟨_, place, c, d, harr, hs, hc, hd, rfl⟩ := modifyChild?_eq_some h <;>
    cases harr
  exact ⟨place, c, d, hs, hc, hd, rfl⟩

theorem replace?_self (h : v.get? p = some c) : v.replace? p c = some v := by
  obtain ⟨w, hw⟩ := exists_replace? h c
  obtain rfl := modify?_eq_self hw fun d hd => h.symm.trans hd
  exact hw

/-- Writes at paths that part may be made in either order. The induction is on where the paths part:
there the writes go to two children of one container, and above it both go through one child. -/
theorem Parted.replace?_comm (h : v.Parted q p) (hx : v.replace? p x = some w)
    (hy : v.replace? q y = some w') : w.replace? q y = w'.replace? p x := by
  induction h generalizing w w' with
  | @here v s t q p hv hs =>
    cases v with
    | obj fields =>
      obtain ⟨c, d, hc, hd, rfl⟩ := replace?_field_some hx
      obtain ⟨c', d', hc', hd', rfl⟩ := replace?_field_some hy
      have hne : s.asKey ≠ t.asKey := hs
      rw [replace?_field ((Table.get?_insert ..).trans ((if_neg hne.symm).trans hc')), hd',
        replace?_field ((Table.get?_insert ..).trans ((if_neg hne).trans hc)), hd]
      simp only [Option.map_some, Table.insert_comm (Table.contains_of_get? hc) hne.symm]
    | arr items =>
      obtain ⟨i, c, d, hi, hc, hd, rfl⟩ := replace?_item_some hx
      obtain ⟨j, c', d', hj, hc', hd', rfl⟩ := replace?_item_some hy
      have hne : j ≠ i := fun h => hs (hj.trans (h ▸ hi.symm))
      rw [replace?_item hj ((List.getElem?_set_ne hne.symm).trans hc'), hd',
        replace?_item hi ((List.getElem?_set_ne hne).trans hc), hd]
      simp only [Option.map_some, List.set_comm _ _ hne]
    | _ => cases hv
  | @deeper v a s t q p hs ha _ ih =>
    cases v with
    | obj fields =>
      have hst : s.asKey = t.asKey := hs
      obtain ⟨c, d, hc, hd, rfl⟩ := replace?_field_some hx
      obtain ⟨c', d', hc', hd', rfl⟩ := replace?_field_some hy
      rw [hst] at hc'
      cases hc.symm.trans ha
      cases hc'.symm.trans hc
      rw [replace?_field ((Table.get?_insert ..).trans (if_pos hst.symm)), hst,
        replace?_field (Table.get?_insert_self ..), ih hd hd']
      simp only [Table.insert_insert]
    | arr items =>
      have hst : s.asIndex? = t.asIndex? := hs
      obtain ⟨i, c, d, hi, hc, hd, rfl⟩ := replace?_item_some hx
      obtain ⟨j, c', d', hj, hc', hd', rfl⟩ := replace?_item_some hy
      cases hj.symm.trans (hst.trans hi)
      cases hc'.symm.trans hc
      obtain rfl : a = c := by
        rw [child?_item hi, hc] at ha
        exact (Option.some.inj ha).symm
      have hplace := (List.getElem?_eq_some_iff.1 hc).1
      rw [replace?_item hj (List.getElem?_set_self hplace),
        replace?_item hi (List.getElem?_set_self hplace), ih hd hd']
      simp only [List.set_set]
    | _ => exact hs.elim

/-- A write at one of two paths that part is not seen at the other one. -/
theorem Parted.get?_of_replace? (h : v.Parted q p) (hget : v.get? p = some c)
    (hx : v.replace? p x = some w) : w.get? q = v.get? q := by
  have hframed := Framed.of_replace hget hx (framed_nil c x)
  rw [List.append_nil] at hframed
  exact hframed q (.inl h)

end Json

/-! ## Commands that overwrite a value -/

open Json

variable {c : Config} {p : Path} {old new v : Json} {command : Command}

/-- `add` shifts whatever is not a plain array. -/
theorem Change.add_eq_shiftBy {args : List Command.Argument} {delta : Literal} {vars : Variables}
    (hdelta : deltaOf c args = .ok delta) (hget : vars.data.get? p = some old)
    (hitems : ∀ items, old = .arr items → old.isDescribed) :
    add c p args vars = shiftBy c.precision p old delta vars := by
  simp only [add, hdelta, Fallible.bind_apply, Fallible.liftM_apply, Fallible.get_apply, hget,
    present]
  cases old with
  | arr items => rw [hitems items rfl]
  | _ => rfl

/-- What a shift reports depends on the value that it replaces only. -/
theorem Change.exists_shiftBy (precision : Nat) (p : Path) (current : Json) (delta : Literal) :
    (∃ e, ∀ vars, shiftBy precision p current delta vars = (.error e, vars)) ∨
      ∃ change new, (current.Avoids metaKey → new.Avoids metaKey) ∧
        ∀ {vars : Variables} {data : Json}, vars.data.replace? p new = some data →
          shiftBy precision p current delta vars = (.ok change, { vars with data }) := by
  unfold shiftBy
  cases hamount : delta.toValue?.bind Json.asNumber? with
  | none => exact .inl ⟨_, fun _ => rfl⟩
  | some amount =>
    dsimp only
    unfold shiftAt
    cases hslot : current.described? with
    | some old =>
      dsimp only
      cases hnew : shifted precision p old amount with
      | error e => exact .inl ⟨e, fun _ => rfl⟩
      | ok new =>
        refine .inr ⟨⟨p, some old, some new⟩, current.setDescribed new, fun hcurrent => ?_,
          fun hdata => overwrite_bind_apply hdata _⟩
        exact (hereditary_avoids metaKey).setDescribed hcurrent hslot
          (.scalar (shifted_isScalar hnew).2)
    | none =>
      dsimp only
      cases hnew : shifted precision p current amount with
      | error e => exact .inl ⟨e, fun _ => rfl⟩
      | ok new =>
        exact .inr ⟨⟨p, some current, some new⟩, new, fun _ => .scalar (shifted_isScalar hnew).2,
          fun hdata => overwrite_bind_apply hdata _⟩

namespace Command

/-- A command that overwrites the value at its path: `set` with a value that has no annotation, or
`add` unless the value is an array that is not described. -/
inductive Overwrites (c : Config) (old : Json) (command : Command) : Prop
  | set {arg v} (hkind : command.kind = .set) (harg : command.args.getLast? = some arg)
      (hvalue : arg.resolve c.literals = .ok (.value v)) (hv : v.Avoids metaKey)
  | add (hkind : command.kind = .add)
      (hold : ∀ items, old = .arr items → old.isDescribed)

/-- All that a command does to a document without annotations in which its path leads to `old` is to
put `new` there, and it reports the same wherever that is. -/
structure Rewrites (c : Config) (p : Path) (command : Command) (old new : Json)
    (result : Result) : Prop where
  avoids : new.Avoids metaKey
  run : ∀ vars : Variables, vars.data.Avoids metaKey → vars.data.get? p = some old →
    (vars.run c command).2 = result ∧ vars.data.replace? p new = some (vars.run c command).1.data

theorem rewrites_of_replaced (change : Change) (hpath : Path.parse command.path = .ok p)
    (hnew : new.Avoids metaKey)
    (hattempt : ∀ {vars : Variables} {data : Json}, vars.data.get? p = some old →
      vars.data.replace? p new = some data →
        command.attempt c p vars = (.ok change, { vars with data })) :
    command.Rewrites c p old new
      ⟨command, some change.path, .applied change.previous (change.new.map Json.stripMeta)⟩ where
  avoids := hnew
  run := by
    intro vars hdata hget
    obtain ⟨data, hreplace⟩ := exists_replace? hget new
    have hafter := (hereditary_avoids metaKey).replace? hdata hnew hreplace
    rw [Variables.run_of_attempt_ok c vars hpath (hattempt hget hreplace)]
    refine ⟨rfl, hreplace.trans ?_⟩
    exact congrArg some (Schema.reconcile_data hafter change.path).symm

theorem rewrites_of_refused (e : CommandError) (hpath : Path.parse command.path = .ok p)
    (hold : old.Avoids metaKey)
    (hattempt : ∀ vars : Variables, vars.data.get? p = some old →
      command.attempt c p vars = (.error e, vars)) :
    command.Rewrites c p old old ⟨command, some p, .refused e⟩ where
  avoids := hold
  run := by
    intro vars _ hget
    rw [Variables.run_of_attempt_error c vars hpath (hattempt vars hget)]
    exact ⟨rfl, replace?_self hget⟩

theorem Overwrites.rewrites (h : command.Overwrites c old) (hpath : Path.parse command.path = .ok p)
    (hp : p ≠ []) (hold : old.Avoids metaKey) :
    ∃ new result, command.Rewrites c p old new result := by
  cases h with
  | @set arg v hkind harg hvalue hv =>
    obtain ⟨change, -, hreplace⟩ := Change.exists_replaceAt p old v
    refine ⟨_, _, rewrites_of_replaced change hpath (hold.written hv) ?_⟩
    intro vars data hget hdata
    rw [attempt_set hkind harg hvalue, if_neg (mt List.isEmpty_iff.1 hp), hget]
    exact hreplace hdata
  | add hkind hitems =>
    cases hdelta : Change.deltaOf c command.args with
    | error e =>
      refine ⟨_, _, rewrites_of_refused e hpath hold fun vars _ => ?_⟩
      simp only [attempt, hkind, Change.add, hdelta]
      rfl
    | ok delta =>
      have hattempt {vars : Variables} (hget : vars.data.get? p = some old) :
          command.attempt c p vars = Change.shiftBy c.precision p old delta vars := by
        simp only [attempt, hkind, Change.add_eq_shiftBy hdelta hget hitems]
      obtain ⟨e, hrefused⟩ | ⟨change, new, hnew, hreplace⟩ :=
        Change.exists_shiftBy c.precision p old delta
      · refine ⟨_, _, rewrites_of_refused e hpath hold fun vars hget => ?_⟩
        rw [hattempt hget]
        exact hrefused vars
      · refine ⟨_, _, rewrites_of_replaced change hpath (hnew hold) ?_⟩
        intro vars data hget hdata
        rw [hattempt hget]
        exact hreplace hdata

/-- One command after the other, at paths that part: each writes and reports what it would without
the other one. -/
theorem Rewrites.run_after {q : Path} {old' new' : Json} {first second : Command}
    {result result' : Result} (h : first.Rewrites c p old new result)
    (h' : second.Rewrites c q old' new' result') {vars : Variables}
    (hdata : vars.data.Avoids metaKey) (hp : vars.data.get? p = some old)
    (hq : vars.data.get? q = some old') (hparted : vars.data.Parted q p) :
    ∃ data, vars.data.replace? p new = some data ∧
      data.replace? q new' = some (vars.runAll c [first, second]).1.data ∧
      (vars.runAll c [first, second]).2 = [result, result'] := by
  obtain ⟨hresult, hreplace⟩ := h.run vars hdata hp
  have hafter := (hereditary_avoids metaKey).replace? hdata h.avoids hreplace
  have hq' := (hparted.get?_of_replace? hp hreplace).trans hq
  obtain ⟨hresult', hreplace'⟩ := h'.run (vars.run c first).1 hafter hq'
  refine ⟨_, hreplace, hreplace', ?_⟩
  rw [Variables.runAll_cons, Variables.runAll_cons, hresult, hresult']
  rfl

end Command

namespace Bundle

/-- **Independent writes commute.** In a document without annotations, two commands that overwrite
what is there, at paths that go on to different children of one container, leave the same document
and the same results in either order. -/
theorem apply_comm_of_parted {b : Bundle} (hdata : b.data.Avoids metaKey) {first second : Command}
    {q : Path} {old' : Json} (hfirst : Path.parse first.path = .ok p)
    (hsecond : Path.parse second.path = .ok q) (hp : b.data.get? p = some old)
    (hq : b.data.get? q = some old') (hparted : b.data.Parted p q)
    (hwrite : first.Overwrites c old) (hwrite' : second.Overwrites c old') :
    (b.apply c [first, second]).1.data = (b.apply c [second, first]).1.data ∧
      ∃ r s, (b.apply c [first, second]).2 = [r, s] ∧ (b.apply c [second, first]).2 = [s, r] := by
  obtain ⟨new, r, h⟩ := hwrite.rewrites hfirst hparted.ne_nil (hdata.get? hp)
  obtain ⟨new', s, h'⟩ := hwrite'.rewrites hsecond hparted.symm.ne_nil (hdata.get? hq)
  obtain ⟨data, hreplace, hboth, hresults⟩ := h.run_after h' hdata hp hq hparted.symm
  obtain ⟨data', hreplace', hboth', hresults'⟩ := h'.run_after h hdata hq hp hparted
  refine ⟨?_, r, s, hresults, hresults'⟩
  have hcomm := hparted.symm.replace?_comm hreplace hreplace'
  exact Option.some.inj (hboth.symm.trans (hcomm.trans hboth'))

/-- An amount is added to the number of a described value, and its description is written, with a
step by place and a step by name. -/
theorem apply_comm_of_parted_pair :
    let b := ofDocument true (.obj [("hp", .arr [.ofNat 10, .str "health"])])
    let first : Command := ⟨.add, "hp[0]", [.literal (.value (.ofNat 5))], none⟩
    let second : Command := ⟨.set, "hp['1']", [.literal (.value (.str "life"))], none⟩
    let after : Json := .obj [("hp", .arr [.ofNat 15, .str "life"])]
    (b.apply {} [first, second]).1.data = after ∧ (b.apply {} [second, first]).1.data = after := by
  intro b first second after
  have hfirst : Path.parse first.path = .ok [.key "hp", .index 0] :=
    show Path.parse "hp[0]" = _ from rfl
  have hsecond : Path.parse second.path = .ok [.key "hp", .key "1"] :=
    show Path.parse "hp['1']" = _ from rfl
  have hparted : b.data.Parted [.key "hp", .index 0] [.key "hp", .key "1"] :=
    .deeper rfl rfl (.here rfl nofun)
  have hadd : first.Overwrites {} (.ofNat 10) := .add rfl nofun
  have hset : second.Overwrites {} (.str "health") := .set rfl rfl rfl (.scalar rfl)
  obtain ⟨hsame, -⟩ := apply_comm_of_parted (c := {}) (stripMeta_avoids _) hfirst hsecond rfl rfl
    hparted hadd hset
  have hafter : (b.apply {} [first, second]).1.data = after := by decide +kernel
  exact ⟨hafter, hsame.symm.trans hafter⟩

end Bundle

end StatVars
