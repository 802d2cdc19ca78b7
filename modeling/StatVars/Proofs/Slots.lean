import StatVars.Proofs.Creation
import StatVars.Proofs.Independence

/-!
# The slot that a path leads to

A path that leads to a value leads to a slot of the document, and whatever is made of the value is
put into the slot. How a step is taken depends on the container, so one slot has many paths: what
has been put there is read along each of them, and beyond. Paths that go on to another child of a
container read what they have read, and there are no others but those that stop at a container
around the slot. Main statement: `Json.lawful_access`.
-/

namespace StatVars.Json

variable {v w c x : Json} {s t : Step} {p q r : Path} {k : Nat}

/-! ## One step -/

theorem not_isScalar_of_child? (h : v.child? s = some c) : v.isScalar = false := by
  cases v with
  | obj | arr => rfl
  | _ => cases h

theorem modifyChild?_of_child? (h : v.child? s = some c) (f : Json → Option Json) :
    modifyChild? f v s = (f c).map fun d => (v.putChild s d).1 := by
  cases hd : f c with
  | none => exact (modifyChild?_congr h hd).trans (modifyChild?_none v s)
  | some d => exact (modifyChild?_congr h hd).trans (putChild_of_child? h d)

theorem modifyChild?_of_missing (h : v.child? s = none) (f : Json → Option Json) :
    modifyChild? f v s = none := by
  cases hw : modifyChild? f v s with
  | none => rfl
  | some w =>
    obtain ⟨fields, c, d, rfl, hc, -⟩ | ⟨items, place, c, d, rfl, hs, hc, -⟩ :=
      modifyChild?_eq_some hw
    · cases hc.symm.trans h
    · rw [child?, hs, Option.bind_some, hc] at h
      cases h

/-! ## Reading and writing at one path -/

/-- What is made of a value is put into its slot. -/
theorem modify?_eq_bind (f : Json → Option Json) (v : Json) (p : Path) :
    v.modify? f p = (v.get? p).bind fun c => (f c).bind (v.replace? p) := by
  induction p generalizing v with
  | nil => exact (Option.bind_fun_some _).symm
  | cons s p ih =>
    rw [modify?, get?_cons]
    cases hc : v.child? s with
    | none => rw [modifyChild?_of_missing hc, Option.bind_none, Option.bind_none]
    | some c =>
      have hput (x : Json) :
          v.replace? (s :: p) x = (c.replace? p x).map fun d => (v.putChild s d).1 :=
        modifyChild?_of_child? hc _
      rw [modifyChild?_of_child? hc, ih, Option.bind_some]
      cases c.get? p with
      | none => rfl
      | some a =>
        cases hx : f a with
        | none => simp only [Option.bind_some, hx, Option.bind_none, Option.map_none]
        | some x => simp only [Option.bind_some, hx, hput]

/-- There is a slot just where there is a value. -/
theorem isSome_replace? (v : Json) (p : Path) (x : Json) :
    (v.replace? p x).isSome = (v.get? p).isSome := by
  cases hc : v.get? p with
  | none => rw [replace?, modify?_eq_bind, hc, Option.bind_none]
  | some c =>
    obtain ⟨w, hw⟩ := exists_replace? hc x
    rw [hw]
    rfl

/-- The second of two writes wins. -/
theorem replace?_replace? (h : v.replace? p x = some w) (y : Json) :
    w.replace? p y = v.replace? p y := by
  induction p generalizing v w with
  | nil => rfl
  | cons s p ih =>
    cases v with
    | obj fields =>
      obtain ⟨c, d, hc, hd, rfl⟩ := replace?_field_some h
      rw [replace?_field (Table.get?_insert_self ..), replace?_field hc, ih hd]
      simp only [Table.insert_insert]
    | arr items =>
      obtain ⟨place, c, d, hs, hc, hd, rfl⟩ := replace?_item_some h
      have hplace := (List.getElem?_eq_some_iff.1 hc).1
      rw [replace?_item hs (List.getElem?_set_self hplace), replace?_item hs hc, ih hd]
      simp only [List.set_set]
    | _ => cases h

/-! ## Other paths -/

theorem alike_self (h : v.get? p = some c) : v.Alike p p := by
  induction p generalizing v with
  | nil => exact .nil
  | cons s p ih =>
    obtain ⟨d, hd, h⟩ := Option.bind_eq_some_iff.1 h
    refine .cons ?_ hd (ih h)
    cases v with
    | obj | arr => rfl
    | _ => cases hd

/-- A path goes through the slot, or parts from the way to it, or stops before it. -/
theorem parted_or_alike (h : v.get? p = some c) (q : Path) :
    v.Parted q p ∨ (∃ q' r, q = q' ++ r ∧ v.Alike q' p) ∨
      ∃ p' r, p = p' ++ r ∧ r ≠ [] ∧ v.Alike q p' := by
  induction p generalizing v q with
  | nil => exact .inr (.inl ⟨[], q, rfl, .nil⟩)
  | cons t p ih =>
    obtain ⟨d, hd, h⟩ := Option.bind_eq_some_iff.1 h
    cases q with
    | nil => exact .inr (.inr ⟨[], t :: p, rfl, List.cons_ne_nil t p, .nil⟩)
    | cons s q =>
      by_cases hs : v.sameStep s t
      · obtain hq | ⟨q', r, rfl, hq⟩ | ⟨p', r, rfl, hr, hq⟩ := ih h q
        · exact .inl (.deeper hs hd hq)
        · exact .inr (.inl ⟨s :: q', r, rfl, .cons hs hd hq⟩)
        · exact .inr (.inr ⟨t :: p', r, rfl, hr, .cons hs hd hq⟩)
      · exact .inl (.here (not_isScalar_of_child? hd) hs)

/-- Behind the slot what has been put there is read. -/
theorem Alike.get?_append_of_replace? (h : v.Alike q p) (hw : v.replace? p x = some w)
    (r : Path) : w.get? (q ++ r) = x.get? r := by
  rw [get?_append, h.get?_of_replace? hw, Option.bind_some]

/-- In a container around the slot nothing but the slot has changed. -/
theorem Alike.get?_of_replace?_append (h : v.Alike q p) (hw : v.replace? (p ++ r) x = some w) :
    w.get? q = (v.get? q).bind (·.replace? r x) := by
  have hsome := isSome_replace? v (p ++ r) x
  rw [hw, get?_append] at hsome
  cases hc : v.get? p with
  | none =>
    rw [hc] at hsome
    cases hsome
  | some c =>
    rw [replace?_append hc] at hw
    obtain ⟨d, hd, hw⟩ := Option.bind_eq_some_iff.1 hw
    rw [h.get?_of_replace? hw, h.get?, hc, Option.bind_some, hd]

/-! ## How far a path leads -/

theorem resolvedSteps_le (v : Json) (p : Path) : v.resolvedSteps p ≤ p.length := by
  induction p generalizing v with
  | nil => exact Nat.le_refl 0
  | cons s p ih =>
    rw [resolvedSteps]
    split
    · exact Nat.succ_le_succ (ih _)
    · exact Nat.zero_le _

/-- The number of steps that can be taken is the one behind which no beginning of the path leads
anywhere, while all before do. -/
theorem resolvedSteps_eq_iff : v.resolvedSteps p = k ↔
    k ≤ p.length ∧ ∀ n ≤ p.length, v.resolves (p.take n) ↔ n ≤ k := by
  constructor
  · rintro rfl
    exact ⟨resolvedSteps_le v p, fun n hn => resolves_take_iff hn⟩
  · rintro ⟨hk, h⟩
    have hsteps := resolvedSteps_le v p
    refine Nat.le_antisymm ?_ ?_
    · exact (h _ hsteps).1 ((resolves_take_iff hsteps).2 (Nat.le_refl _))
    · exact (resolves_take_iff hk).1 ((h k hk).2 (Nat.le_refl k))

/-! ## The laws -/

/-- The document `w` is `v` with `x` in the slot that `p` leads to. -/
structure Overwritten (v w : Json) (p : Path) (x : Json) : Prop where
  below : ∀ r, w.get? (p ++ r) = x.get? r
  /-- The same along the other paths to the slot. -/
  alike : ∀ q r, v.Alike q p → w.get? (q ++ r) = x.get? r
  elsewhere : ∀ q, v.Parted q p → w.get? q = v.get? q
  /-- A path that is of neither kind leads to a container around the slot. -/
  around : ∀ q, v.Parted q p ∨ (∃ q' r, q = q' ++ r ∧ v.Alike q' p) ∨
    ∃ p' r, p = p' ++ r ∧ r ≠ [] ∧ v.Alike q p' ∧ w.get? q = (v.get? q).bind (·.replace? r x)

theorem overwritten_of_replace? (h : v.replace? p x = some w) : v.Overwritten w p x := by
  have hsome := isSome_replace? v p x
  rw [h] at hsome
  obtain ⟨c, hc⟩ := Option.isSome_iff_exists.1 hsome.symm
  refine ⟨(alike_self hc).get?_append_of_replace? h, fun q r hq => hq.get?_append_of_replace? h r,
    fun q hq => hq.get?_of_replace? hc h, fun q => ?_⟩
  obtain hq | hq | ⟨p', r, rfl, hr, hq⟩ := parted_or_alike hc q
  · exact .inl hq
  · exact .inr (.inl hq)
  · exact .inr (.inr ⟨p', r, rfl, hr, hq, hq.get?_of_replace?_append h⟩)

/-- **Access along a path is lawful.** There is a slot just where there is a value, and a value is
changed by overwriting its slot. What has been put into the slot is read behind it along every path
to it, and paths that part from these read what they have read; a value that is put back changes
nothing, and of two writes the second one wins. The number of steps that can be taken is the one
number such that the beginnings of the path with no more steps lead somewhere, and no others. -/
theorem lawful_access (v : Json) (p : Path) :
    (∀ x, (v.replace? p x).isSome = (v.get? p).isSome) ∧
    (∀ f, v.modify? f p = (v.get? p).bind fun c => (f c).bind (v.replace? p)) ∧
    (∀ x w, v.replace? p x = some w →
      v.Overwritten w p x ∧ ∀ y, w.replace? p y = v.replace? p y) ∧
    (∀ c, v.get? p = some c → v.replace? p c = some v) ∧
    ∀ k, v.resolvedSteps p = k ↔
      k ≤ p.length ∧ ∀ n ≤ p.length, v.resolves (p.take n) ↔ n ≤ k :=
  ⟨isSome_replace? v p, fun f => modify?_eq_bind f v p,
    fun _ _ h => ⟨overwritten_of_replace? h, replace?_replace? h⟩, fun _ => replace?_self,
    fun _ => resolvedSteps_eq_iff⟩

/-- The place `1` of an array is also its item of the name `"1"`, and the field `"0"` of an object
is also at its place `0`. A name of too many digits leads nowhere. -/
theorem lawful_access_spellings :
    let v : Json := .obj [("a", .arr [.null, .obj [("0", .bool true)]])]
    let p : Path := [.key "a", .index 1, .key "0"]
    ∃ w, v.replace? p (.arr [.bool false]) = some w ∧
      w.get? [.key "a", .key "1", .index 0, .index 0] = some (.bool false) ∧
      w.get? [.key "a", .key "0"] = some .null ∧
      v.resolvedSteps [.key "a", .key "18446744073709551616"] = 1 := by
  intro v p
  obtain ⟨hsome, -, hwrite, -, -⟩ := lawful_access v p
  obtain ⟨w, hw⟩ := Option.isSome_iff_exists.1 ((hsome (.arr [.bool false])).trans rfl)
  obtain ⟨hover, -⟩ := hwrite _ w hw
  have halike : v.Alike [.key "a", .key "1", .index 0] p :=
    .cons rfl rfl (.cons rfl rfl (.cons rfl rfl .nil))
  have hparted : v.Parted [.key "a", .key "0"] p := .deeper rfl rfl (.here rfl nofun)
  refine ⟨w, hw, hover.alike _ [.index 0] halike, hover.elsewhere _ hparted, ?_⟩
  decide +kernel

end StatVars.Json
