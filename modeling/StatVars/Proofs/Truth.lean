import StatVars.Proofs.Frame
import StatVars.Proofs.Unannotated

/-!
# What results tell

The result of an applied command names a path, what was there before and what is there now. It tells
the truth about the whole change (`Command.Truthful`): what it names is what was and is there, and
nothing else has changed, but for the items that have moved because of a new or a removed one.

All forms of commands come down to five changes (`Command.Reports`), and what the result says is
shown for these. Main statement: `Bundle.applyOne_truthful`.
-/

namespace StatVars

/-! ## Items that move -/

/-- The step to an item that has gone to another place. -/
def Step.moved (move : Nat → Nat) (s : Step) : Step :=
  match s.asIndex? with
  | some place => .index (move place)
  | none => s

theorem Step.moved_of_some {move : Nat → Nat} {s : Step} {place : Nat}
    (hs : s.asIndex? = some place) : s.moved move = .index (move place) := by
  rw [moved, hs]

theorem Step.moved_of_none {move : Nat → Nat} {s : Step} (hs : s.asIndex? = none) :
    s.moved move = s := by
  rw [moved, hs]

namespace Json

/-- The array at the path has an item more, the one at this place. -/
def InsertedAt (v w : Json) (parent : Path) (place : Nat) : Prop :=
  ∃ items item, v.get? parent = some (.arr items) ∧ place ≤ items.length ∧
    w.get? parent = some (.arr (items.insertIdx place item))

/-- The array at the path has lost the item at this place. -/
def RemovedAt (v w : Json) (parent : Path) (place : Nat) : Prop :=
  ∃ items, v.get? parent = some (.arr items) ∧ place < items.length ∧
    w.get? parent = some (.arr (items.eraseIdx place))

/-- The path leads to an item that has been inserted. -/
def Inserted (v w : Json) (r : Path) : Prop :=
  ∃ parent s place, r = parent ++ [s] ∧ s.asIndex? = some place ∧ v.InsertedAt w parent place

/-- The path leads to where an item has been removed. -/
def Removed (v w : Json) (r : Path) : Prop :=
  ∃ parent s place, r = parent ++ [s] ∧ s.asIndex? = some place ∧ v.RemovedAt w parent place

/-- What the description of a described value is about. -/
def slot? : Json → Option Json
  | .arr items => items[0]?
  | .obj fields => Table.get? fields "value"
  | _ => none

variable {items : List Json} {place : Nat}

theorem child?_item {s : Step} (hs : s.asIndex? = some place) :
    (arr items).child? s = items[place]? := by
  rw [child?, hs, Option.bind_some]

theorem child?_no_item {s : Step} (hs : s.asIndex? = none) : (arr items).child? s = none := by
  rw [child?, hs, Option.bind_none]

theorem get?_insertIdx (item : Json) (t : Step) (q : Path) :
    (arr (items.insertIdx place item)).get?
        (t.moved (fun i => if i < place then i else i + 1) :: q) = (arr items).get? (t :: q) := by
  cases ht : t.asIndex? with
  | none => rw [Step.moved_of_none ht, get?_cons, get?_cons, child?_no_item ht, child?_no_item ht]
  | some i =>
    rw [Step.moved_of_some ht, get?_cons, get?_cons, child?_item rfl, child?_item ht]
    split
    · next hi => rw [List.getElem?_insertIdx_of_lt hi]
    · next hi => rw [List.getElem?_insertIdx_of_gt (by omega), Nat.add_sub_cancel]

theorem get?_eraseIdx {t : Step} (ht : t.asIndex? ≠ some place) (q : Path) :
    (arr (items.eraseIdx place)).get? (t.moved (fun i => if i < place then i else i - 1) :: q) =
      (arr items).get? (t :: q) := by
  cases hi : t.asIndex? with
  | none => rw [Step.moved_of_none hi, get?_cons, get?_cons, child?_no_item hi, child?_no_item hi]
  | some i =>
    have hne : i ≠ place := fun h => ht (h ▸ hi)
    rw [Step.moved_of_some hi, get?_cons, get?_cons, child?_item rfl, child?_item hi]
    split
    · next hlt => rw [List.getElem?_eraseIdx_of_lt hlt]
    · rw [List.getElem?_eraseIdx_of_ge (by omega), Nat.sub_add_cancel (by omega)]

theorem slot?_setDescribed {leaf old : Json} (h : leaf.described? = some old) (new : Json) :
    (leaf.setDescribed new).slot? = some new := by
  obtain ⟨a, b, rfl⟩ | ⟨fields, rfl, -⟩ := described?_eq_some h
  · rfl
  · exact Table.get?_insert_self ..

theorem Avoids.slot? {k : String} {v x : Json} (h : v.Avoids k) (hx : v.slot? = some x) :
    x.Avoids k := by
  cases v with
  | arr items => exact (hereditary_avoids k).item h hx
  | obj fields => exact (h.field hx).2
  | _ => cases hx

end Json

namespace Command

/-- What a result says of a change from `v` to `w` at the path `r` is the truth, and all of it. -/
structure Truthful (kind : Kind) (v w : Json) (r : Path) (previous new : Option Json) :
    Prop where
  /-- Paths that part from `r` read the same. -/
  elsewhere : ¬ v.Inserted w r → ¬ v.Removed w r → v.Framed w r
  /-- The items from a new one on have moved up by one, and nothing outside of the array has
  changed. -/
  inserted : ∀ parent s place, r = parent ++ [s] → s.asIndex? = some place →
    v.InsertedAt w parent place → v.Framed w parent ∧
      ∀ q t rest, v.Alike q parent →
        w.get? (q ++ t.moved (fun i => if i < place then i else i + 1) :: rest) =
          v.get? (q ++ t :: rest)
  /-- The items behind a removed one have moved down by one, and nothing outside of the array has
  changed. -/
  removed : ∀ parent s place, r = parent ++ [s] → s.asIndex? = some place →
    v.RemovedAt w parent place → v.Framed w parent ∧
      ∀ q t rest, v.Alike q parent → t.asIndex? ≠ some place →
        w.get? (q ++ t.moved (fun i => if i < place then i else i - 1) :: rest) =
          v.get? (q ++ t :: rest)
  /-- What was and what is at `r`, or in the described value there that `set` or `add` have gone
  into. -/
  values : ((∀ x, previous = some x → v.get? r = some x) ∧ ∀ x, new = some x → w.get? r = some x) ∨
    ((kind = .set ∨ kind = .add) ∧ ∃ leaf old x, v.get? r = some leaf ∧
      leaf.described? = some old ∧ previous = some old ∧ new = some x ∧
      w.get? r = some (leaf.setDescribed x) ∧ (leaf.setDescribed x).slot? = some x)
  /-- Without a new value the field or the item is gone. -/
  gone : new = none → ∃ parent s, r = parent ++ [s] ∧
    ((∃ fields, v.get? parent = some (.obj fields) ∧ Table.contains fields s.asKey ∧
      w.get? parent = some (.obj (Table.erase fields s.asKey))) ∨
    ∃ place, s.asIndex? = some place ∧ v.RemovedAt w parent place)
  /-- Without a previous value something has been created or inserted. -/
  created : previous = none ↔ v.get? r = none ∧ (w.get? r).isSome ∨ v.Inserted w r

/-- The changes that commands make, each with what is reported of it. -/
inductive Reports (kind : Kind) (v w : Json) (r : Path) : Option Json → Option Json → Prop
  | replaced {old new : Json} (hget : v.get? r = some old) (hw : v.replace? r new = some w) :
    Reports kind v w r (some old) (some new)
  | slot {leaf old new : Json} (hkind : kind = .set ∨ kind = .add)
      (hget : v.get? r = some leaf) (hold : leaf.described? = some old)
      (hw : v.replace? r (leaf.setDescribed new) = some w) :
    Reports kind v w r (some old) (some new)
  | created {new : Json} (hget : v.get? r = none) (hdone : (v.create r new).2 = true)
      (hw : (v.create r new).1 = w) : Reports kind v w r none (some new)
  | inserted {parent : Path} {items : List Json} {place : Nat} {item : Json}
      (hr : r = parent ++ [.index place]) (hget : v.get? parent = some (.arr items))
      (hplace : place ≤ items.length)
      (hw : v.replace? parent (.arr (items.insertIdx place item)) = some w) :
    Reports kind v w r none (some item)
  | removed {parent : Path} {s : Step} {c rest old : Json} (hr : r = parent ++ [s])
      (hget : v.get? parent = some c) (hrest : c.removeChild? s = some (old, rest))
      (hw : v.replace? parent rest = some w) : Reports kind v w r (some old) none

section

variable {c : Config} {vars : Variables} {p : Path} {kind : Kind} {args : List Argument}
  {change : Change} {data : Json}

/-- **Every command makes one of these changes.** -/
theorem Does.reports (h : Does c vars p kind args change data) :
    Reports kind vars.data data change.path change.previous change.new := by
  cases h with
  | lay hp => exact hp ▸ .replaced rfl rfl
  | create _ _ _ hget hcheck =>
    exact .created hget (Schema.create_done_of_checkSet hcheck hget _) rfl
  | null _ _ hget _ _ hdata | write _ _ _ hget _ hdata | shift _ _ hget _ _ hdata
  | merge _ hget _ _ hdata => exact .replaced hget hdata
  | writeValue _ _ _ hget hslot _ hdata =>
    exact .slot (.inl rfl) hget (Change.described?_of_slot hslot) hdata
  | shiftValue _ _ hget hslot _ hdata => exact .slot (.inr rfl) hget hslot hdata
  | remove _ _ hdata =>
    obtain ⟨parent, s, container, rest, hsplit, hget, hrest, hdata⟩ := Json.remove?_eq_some hdata
    exact .removed (Path.splitLast?_eq_some hsplit) hget hrest hdata
  | putItem _ hget hcheck _ hdata =>
    simp only [Schema.checkInsert, hget, Step.asIndex?] at hcheck
    exact .inserted rfl hget (Schema.le_of_checkItem hcheck) hdata
  | @putField _ _ _ k _ new fields _ _ _ _ hget _ _ hdata =>
    have hparent := Json.get?_append vars.data p [.key k]
    rw [hget, Option.bind_some] at hparent
    cases hk : Table.get? fields k with
    | some old =>
      refine .replaced (hparent.trans (by simp [Json.get?_cons, Json.child?, Step.asKey, hk])) ?_
      rw [Path.child, Json.replace?_append hget]
      refine Eq.trans ?_ hdata
      simp [Json.modifyChild?, Step.asKey, Table.modify?_of_get? hk, Json.replace?, Json.modify?]
    | none =>
      obtain ⟨hreplace, hdone⟩ := Json.create_append hget (.key k) [] new
      refine .created (hparent.trans (by simp [Json.get?_cons, Json.child?, Step.asKey, hk])) ?_ ?_
      · exact hdone
      · exact Option.some.inj (hreplace.symm.trans hdata)

end

namespace Reports

variable {kind : Kind} {v w c : Json} {r parent q : Path} {s : Step} {previous new : Option Json}

/-- Where the container of `r` is there, the change is one of the container. -/
theorem exists_replace (h : Reports kind v w r previous new) (hr : r = parent ++ [s])
    (hget : v.get? parent = some c) : ∃ d, v.replace? parent d = some w := by
  cases h with
  | replaced _ hw | slot _ _ _ hw =>
    rw [hr, Json.replace?_append hget] at hw
    obtain ⟨d, -, hd⟩ := Option.bind_eq_some_iff.1 hw
    exact ⟨d, hd⟩
  | @created x _ _ hw =>
    have hreplace := (Json.create_append hget s [] x).1
    rw [← hr, hw] at hreplace
    exact ⟨_, hreplace⟩
  | inserted hr' _ _ hw =>
    obtain ⟨rfl, -⟩ := List.append_singleton_inj.1 (hr.symm.trans hr')
    exact ⟨_, hw⟩
  | removed hr' _ _ hw =>
    obtain ⟨rfl, -⟩ := List.append_singleton_inj.1 (hr.symm.trans hr')
    exact ⟨_, hw⟩

theorem framed_parent (h : Reports kind v w r previous new) (hr : r = parent ++ [s])
    (hget : v.get? parent = some c) : v.Framed w parent := by
  obtain ⟨d, hd⟩ := h.exists_replace hr hget
  rw [← List.append_nil parent]
  exact (Json.framed_nil c d).of_replace hget hd

theorem get?_of_alike (h : Reports kind v w r previous new) (hr : r = parent ++ [s])
    (hget : v.get? parent = some c) (hq : v.Alike q parent) : w.get? q = w.get? parent := by
  obtain ⟨d, hd⟩ := h.exists_replace hr hget
  rw [hq.get?_of_replace? hd, Json.get?_of_replace? hd]

/-- A part that is replaced leaves an array with as many items as before. -/
theorem length_of_replace? {items items' : List Json} {x : Json}
    (hget : v.get? parent = some (.arr items)) (hw : v.replace? (parent ++ [s]) x = some w)
    (hget' : w.get? parent = some (.arr items')) : items'.length = items.length := by
  rw [Json.replace?_append hget] at hw
  obtain ⟨d, hd, hw⟩ := Option.bind_eq_some_iff.1 hw
  rw [Json.replace?_cons] at hd
  obtain ⟨_, _, _, harr, _⟩ | ⟨_, place, _, e, harr, -, -, -, rfl⟩ :=
    Json.modifyChild?_eq_some hd
  · cases harr
  · cases harr
    rw [Json.get?_of_replace? hw] at hget'
    cases hget'
    exact List.length_set

theorem not_inserted_of_replace? {x : Json} (hw : v.replace? r x = some w) :
    ¬ v.Inserted w r := by
  rintro ⟨parent, s, place, rfl, -, items, item, hget, hplace, hget'⟩
  have hlength := length_of_replace? hget hw hget'
  rw [List.length_insertIdx_of_le_length hplace] at hlength
  omega

theorem elsewhere (h : Reports kind v w r previous new) (hinserted : ¬ v.Inserted w r)
    (hremoved : ¬ v.Removed w r) : v.Framed w r := by
  cases h with
  | replaced hget hw | slot _ hget _ hw =>
    rw [← List.append_nil r]
    exact (Json.framed_nil _ _).of_replace hget hw
  | created _ hdone hw => exact hw ▸ Json.framed_create hdone
  | inserted hr hget hplace hw =>
    exact absurd ⟨_, _, _, hr, rfl, _, _, hget, hplace, Json.get?_of_replace? hw⟩ hinserted
  | @removed _ s c rest _ hr hget hrest hw =>
    cases c with
    | obj fields =>
      obtain ⟨_, -, hrest⟩ := Option.map_eq_some_iff.1 hrest
      cases hrest
      rw [hr]
      exact ((Json.differsAt_erase fields s).framed (Json.framedPart_nil _ _)).of_replace hget hw
    | arr items =>
      obtain ⟨place, hs, hrest⟩ := Option.bind_eq_some_iff.1 hrest
      obtain ⟨_, hitem, hrest⟩ := Option.bind_eq_some_iff.1 hrest
      cases hrest
      have hplace := (List.getElem?_eq_some_iff.1 hitem).1
      exact absurd ⟨_, _, _, hr, hs, _, hget, hplace, Json.get?_of_replace? hw⟩ hremoved
    | _ => cases hrest

theorem values (h : Reports kind v w r previous new) :
    ((∀ x, previous = some x → v.get? r = some x) ∧ ∀ x, new = some x → w.get? r = some x) ∨
    ((kind = .set ∨ kind = .add) ∧ ∃ leaf old x, v.get? r = some leaf ∧
      leaf.described? = some old ∧ previous = some old ∧ new = some x ∧
      w.get? r = some (leaf.setDescribed x) ∧ (leaf.setDescribed x).slot? = some x) := by
  cases h with
  | replaced hget hw =>
    refine .inl ⟨fun x hx => ?_, fun x hx => ?_⟩ <;> cases hx
    · exact hget
    · exact Json.get?_of_replace? hw
  | slot hkind hget hold hw =>
    exact .inr ⟨hkind, _, _, _, hget, hold, rfl, rfl, Json.get?_of_replace? hw,
      Json.slot?_setDescribed hold _⟩
  | created hget hdone hw =>
    refine .inl ⟨nofun, fun x hx => ?_⟩
    cases hx
    exact hw ▸ Json.get?_create hdone
  | inserted hr hget hplace hw =>
    refine .inl ⟨nofun, fun x hx => ?_⟩
    cases hx
    rw [hr, Json.get?_append, Json.get?_of_replace? hw]
    simp [Json.get?_cons, Json.child?, Step.asIndex?, List.getElem?_insertIdx_self, hplace]
  | @removed _ s c rest old hr hget hrest hw =>
    refine .inl ⟨fun x hx => ?_, nofun⟩
    cases hx
    rw [hr, Json.get?_append, hget, Option.bind_some, Json.get?_cons]
    cases c with
    | obj fields =>
      obtain ⟨_, hold, hrest⟩ := Option.map_eq_some_iff.1 hrest
      cases hrest
      rw [Json.child?, hold]
      rfl
    | arr items =>
      obtain ⟨place, hs, hrest⟩ := Option.bind_eq_some_iff.1 hrest
      obtain ⟨_, hold, hrest⟩ := Option.bind_eq_some_iff.1 hrest
      cases hrest
      rw [Json.child?, hs, Option.bind_some, hold]
      rfl
    | _ => cases hrest

theorem gone (h : Reports kind v w r previous none) : ∃ parent s, r = parent ++ [s] ∧
    ((∃ fields, v.get? parent = some (.obj fields) ∧ Table.contains fields s.asKey ∧
      w.get? parent = some (.obj (Table.erase fields s.asKey))) ∨
    ∃ place, s.asIndex? = some place ∧ v.RemovedAt w parent place) := by
  cases h with
  | @removed parent s c rest _ hr hget hrest hw =>
    refine ⟨parent, s, hr, ?_⟩
    have hget' := Json.get?_of_replace? hw
    cases c with
    | obj fields =>
      obtain ⟨_, hold, hrest⟩ := Option.map_eq_some_iff.1 hrest
      cases hrest
      exact .inl ⟨fields, hget, Table.contains_of_get? hold, hget'⟩
    | arr items =>
      obtain ⟨place, hs, hrest⟩ := Option.bind_eq_some_iff.1 hrest
      obtain ⟨_, hitem, hrest⟩ := Option.bind_eq_some_iff.1 hrest
      cases hrest
      exact .inr ⟨place, hs, items, hget, (List.getElem?_eq_some_iff.1 hitem).1, hget'⟩
    | _ => cases hrest

theorem not_inserted_of_removed (h : Reports kind v w r previous none) : ¬ v.Inserted w r := by
  rintro ⟨parent, s, place, rfl, -, items, item, hget, hplace, hget'⟩
  obtain ⟨parent', s', hr, ⟨fields, hobj, -⟩ | ⟨place', -, items', harr, hplace', hafter⟩⟩ := h.gone
  all_goals obtain ⟨rfl, -⟩ := List.append_singleton_inj.1 hr
  · rw [hget] at hobj
    cases hobj
  · rw [hget] at harr
    cases harr
    rw [hget'] at hafter
    have hlength := congrArg List.length (Json.arr.inj (Option.some.inj hafter))
    rw [List.length_insertIdx_of_le_length hplace, List.length_eraseIdx_of_lt hplace'] at hlength
    omega

theorem created_iff (h : Reports kind v w r previous new) :
    previous = none ↔ v.get? r = none ∧ (w.get? r).isSome ∨ v.Inserted w r := by
  cases h with
  | replaced hget hw | slot _ hget _ hw =>
    refine ⟨nofun, ?_⟩
    rintro (⟨hnone, -⟩ | hinserted)
    · rw [hget] at hnone
      cases hnone
    · exact absurd hinserted (not_inserted_of_replace? hw)
  | created hget hdone hw =>
    have hnew := Json.get?_create hdone
    rw [hw] at hnew
    exact ⟨fun _ => .inl ⟨hget, by rw [hnew]; rfl⟩, fun _ => rfl⟩
  | inserted hr hget hplace hw =>
    have hinserted : v.Inserted w r :=
      ⟨_, _, _, hr, rfl, _, _, hget, hplace, Json.get?_of_replace? hw⟩
    exact ⟨fun _ => .inr hinserted, fun _ => rfl⟩
  | removed hr hget hrest hw =>
    have h : Reports kind v w r (some _) none := .removed hr hget hrest hw
    refine ⟨nofun, ?_⟩
    rintro (⟨hnone, -⟩ | hinserted)
    · obtain ⟨hprevious, -⟩ | ⟨-, _, _, _, -, -, -, hnew, -⟩ := h.values
      · rw [hprevious _ rfl] at hnone
        cases hnone
      · cases hnew
    · exact absurd hinserted h.not_inserted_of_removed

/-- **What is reported of such a change is the truth.** -/
theorem truthful (h : Reports kind v w r previous new) : Truthful kind v w r previous new where
  elsewhere := h.elsewhere
  inserted := by
    rintro parent s place hr - ⟨items, item, hget, -, hget'⟩
    refine ⟨h.framed_parent hr hget, fun q t rest hq => ?_⟩
    rw [Json.get?_append, Json.get?_append, h.get?_of_alike hr hget hq, hq.get?, hget, hget']
    exact Json.get?_insertIdx item t rest
  removed := by
    rintro parent s place hr - ⟨items, hget, -, hget'⟩
    refine ⟨h.framed_parent hr hget, fun q t rest hq ht => ?_⟩
    rw [Json.get?_append, Json.get?_append, h.get?_of_alike hr hget hq, hq.get?, hget, hget']
    exact Json.get?_eraseIdx ht rest
  values := h.values
  gone := by
    rintro rfl
    exact h.gone
  created := h.created_iff

end Reports

/-- A value that is reported as new is in the document. -/
theorem Truthful.new_avoids {kind : Kind} {v w x : Json} {r : Path} {previous : Option Json}
    {k : String} (h : Truthful kind v w r previous (some x)) (hw : w.Avoids k) : x.Avoids k := by
  obtain ⟨-, hnew⟩ | ⟨-, leaf, old, y, -, -, -, hnew, hget, hslot⟩ := h.values
  · exact hw.get? (hnew x rfl)
  · cases hnew
    exact (hw.get? hget).slot? hslot

end Command

/-! ## Documents without annotations -/

/-- A function that changes nothing where the path leads to changes nothing. -/
theorem Json.modify?_eq_self {f : Json → Option Json} {v w : Json} {p : Path}
    (h : v.modify? f p = some w) (hf : ∀ c, v.get? p = some c → f c = some c) : w = v := by
  induction p generalizing v w with
  | nil => exact Option.some.inj (h.symm.trans (hf v rfl))
  | cons s p ih =>
    obtain ⟨fields, c, d, rfl, hc, hd, rfl⟩ | ⟨items, place, c, d, rfl, hs, hc, hd, rfl⟩ :=
      modifyChild?_eq_some h
    · obtain rfl := ih hd fun b hb => hf b (by rwa [get?_cons, child?, hc])
      rw [Table.insert_of_get? hc]
    · obtain rfl := ih hd fun b hb => hf b (by rwa [get?_cons, child?_item hs, hc])
      obtain ⟨hplace, rfl⟩ := List.getElem?_eq_some_iff.1 hc
      rw [List.set_getElem_self]

/-- **A document without annotations stays as it is when the schema is brought up to date.** -/
theorem Schema.reconcile_data {e : Bool} {S : Schema} {data : Json} (h : data.Avoids metaKey)
    (changed : Path) : (Schema.reconcile e S data changed).2 = data := by
  unfold reconcile
  split
  · exact h.stripMeta
  · next parent last _ =>
    dsimp only
    cases hdata : data.modify? (fun v => some v.stripMeta) (parent ++ [last]) with
    | none => rfl
    | some w =>
      exact Json.modify?_eq_self hdata fun c hc => congrArg some (h.get? hc).stripMeta

namespace Bundle

variable {c : Config} {b : Bundle} {command : Command}

/-- **Applied results tell the truth.** In a document without annotations, a command that brings
none in reports a path, and what was and is there, and changes nothing that it does not report. -/
theorem applyOne_truthful (hdata : b.data.Avoids metaKey)
    (htemplates : b.schema.TemplatesAvoid metaKey) (hcommand : command.Omits c metaKey)
    (happlied : (b.applyOne c command).2.applied) :
    ∃ r, (b.applyOne c command).2.path = some r ∧
      Command.Truthful command.kind b.data (b.applyOne c command).1.data r
        (b.applyOne c command).2.previous? (b.applyOne c command).2.new? := by
  have hone : b.applyOne c command = (b.next (b.run c command).1, (b.run c command).2) := rfl
  rw [hone] at happlied ⊢
  obtain ⟨p, e, hrun⟩ | ⟨p, change, after, hp, hattempt, hrun⟩ := b.run_cases c command
  · rw [hrun] at happlied
    cases happlied
  · obtain ⟨data, rfl, hdoes⟩ := Command.does_of_attempt hattempt
    have hafter : data.Avoids metaKey :=
      hdoes.avoids hcommand hp hdata fun t ht => by
        obtain ⟨S, hS, ht⟩ := Option.bind_eq_some_iff.1 ht
        exact (htemplates.at? hS).template? ht
    have htruth := hdoes.reports.truthful
    have hnew : change.new.map Json.stripMeta = change.new := by
      cases hx : change.new with
      | none => rfl
      | some x =>
        rw [hx] at htruth
        exact congrArg some (htruth.new_avoids hafter).stripMeta
    have hreconciled :
        (Variables.reconcile c { b.toVariables with data } change.path).data = data :=
      Schema.reconcile_data hafter change.path
    refine ⟨change.path, by rw [hrun], ?_⟩
    rw [hrun]
    simp only [next, hreconciled, Command.Result.previous?, Command.Result.new?, hnew]
    exact htruth

/-- A new first item: the others have moved up, and there is no previous value. -/
theorem applyOne_truthful_insert :
    let b := ofDocument true (.obj [("list", .arr [.ofNat 1, .ofNat 2])])
    let command : Command :=
      ⟨.insert, "list", [.literal (.value (.ofNat 0)), .literal (.value (.ofNat 7))], none⟩
    let after := (b.applyOne {} command).1.data
    after = .obj [("list", .arr [.ofNat 7, .ofNat 1, .ofNat 2])] ∧
      Command.Truthful .insert b.data after [.key "list", .index 0] none (some (.ofNat 7)) := by
  intro b command after
  have hdata : b.data.Avoids metaKey := Json.stripMeta_avoids _
  have htemplates : b.schema.TemplatesAvoid metaKey := by
    have hschema : b.schema = .object
        [("list", .array (some (.scalar .number)) { extensible := true })]
        { extensible := true } := by rfl
    rw [hschema]
    refine .object nofun fun k S hS => ?_
    rw [Table.get?_cons] at hS
    split at hS <;> cases hS
    exact .array nofun fun S hS => Option.some.inj hS ▸ .scalar
  have hcommand : command.Omits {} metaKey := by
    refine ⟨fun p hp => ?_, fun _ key value hargs v hv => ?_, fun arg harg v hv => ?_⟩
    · have hpath : Path.parse "list" = .ok [.key "list"] := rfl
      cases hpath.symm.trans hp
      decide
    · cases hargs
      cases hv
      decide
    · cases harg
      cases hv
      exact .scalar rfl
  obtain ⟨r, hr, htruth⟩ := applyOne_truthful hdata htemplates hcommand (by decide)
  have hpath : (b.applyOne {} command).2.path = some [.key "list", .index 0] := by decide
  obtain rfl : r = [.key "list", .index 0] := Option.some.inj (hr.symm.trans hpath)
  have hprevious : (b.applyOne {} command).2.previous? = none := by decide
  have hnew : (b.applyOne {} command).2.new? = some (.ofNat 7) := by decide
  rw [hprevious, hnew] at htruth
  exact ⟨by decide, htruth⟩

end Bundle

end StatVars
