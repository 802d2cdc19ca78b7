import StatVars.Change.Basic
import StatVars.Proofs.Access

/-!
# Making what is missing

Writing at a path that leads nowhere makes the containers on the way, and could stop half way: a
place behind the end of an array cannot be taken. The check that a schema makes before rules this
out. The check looks at the first missing step in its container and asks of every place behind it
to be the first one; `create` makes an empty container for each of these steps. Both agree on which
container that is, because both go by the step that follows.
-/

namespace StatVars

namespace Json

/-- Whether the value is a container in which the step may lead to something, be it new or not. -/
def admits (v : Json) (s : Step) : Bool :=
  match v with
  | .obj _ => true
  | .arr items => s.asIndex?.any (· ≤ items.length)
  | _ => false

theorem isSome_setChild? (v : Json) (s : Step) (w : Json) :
    (v.setChild? s w).isSome = v.admits s := by
  cases v with
  | arr items =>
    cases hs : s.asIndex? with
    | none => simp [setChild?, admits, hs]
    | some place =>
      simp only [setChild?, admits, hs, Option.bind_eq_bind, Option.bind_some, Option.any_some]
      split
      · simp; omega
      · split <;> simp <;> omega
  | _ => simp [setChild?, admits]

theorem putChild_taken {v : Json} {s : Step} (h : v.admits s) (w : Json) :
    (v.putChild s w).2 = true := by
  rw [← isSome_setChild? v s w, Option.isSome_iff_exists] at h
  obtain ⟨v', hv'⟩ := h
  simp [putChild, hv']

theorem admits_of_child? {v c : Json} {s : Step} (h : v.child? s = some c) : v.admits s := by
  cases v with
  | arr items =>
    obtain ⟨place, hplace, hc⟩ := Option.bind_eq_some_iff.1 h
    obtain ⟨hlt, -⟩ := List.getElem?_eq_some_iff.1 hc
    simp [admits, hplace, Nat.le_of_lt hlt]
  | obj fields => rfl
  | _ => simp [child?] at h

/-- The container with a new last member, the one that the step leads to. -/
def withMember (c : Json) (s : Step) (d : Json) : Json :=
  match c with
  | .obj fields => .obj (fields ++ [(s.asKey, d)])
  | .arr items => .arr (items ++ [d])
  | v => v

/-- The value within new containers, one for each step of the path, which hold nothing else. -/
def enclosed (x : Json) : Path → Json
  | [] => x
  | s :: p => (emptyFor s).withMember s (x.enclosed p)

theorem create_cons (v : Json) (s next : Step) (p : Path) (w : Json) :
    v.create (s :: next :: p) w =
      let (c, done) := create ((v.child? s).getD (emptyFor next)) (next :: p) w
      ((v.putChild s c).1, done && (v.putChild s c).2) := rfl

theorem child?_emptyFor (next t : Step) : (emptyFor next).child? t = none := by
  cases next with
  | key name => rfl
  | index place => simp [emptyFor, Step.isIndex, child?]

/-- What is new in a container becomes its last member. -/
theorem putChild_of_missing {v : Json} {s : Step} (hs : v.admits s) (hv : v.child? s = none)
    (d : Json) : v.putChild s d = (v.withMember s d, true) := by
  cases v with
  | obj fields => rw [putChild, setChild?, Table.insert_of_get?_eq_none hv, withMember]
  | arr items =>
    obtain ⟨place, hplace, hle⟩ := (Option.any_eq_true _ _).1 hs
    rw [child?, hplace, Option.bind_some, List.getElem?_eq_none_iff] at hv
    obtain rfl : place = items.length := Nat.le_antisymm (of_decide_eq_true hle) hv
    simp [putChild, setChild?, hplace, withMember]
  | _ => cases hs

/-- Below the first missing step writing goes through and makes nothing but the containers on the
way, for these are empty and the check lets only the first place of an array pass. -/
theorem create_of_missing {v : Json} {s : Step} {before p : Path} (hs : v.admits s)
    (hv : v.child? s = none) (hp : Schema.checkMissing before p = .ok ()) (w : Json) :
    v.create (s :: p) w = (v.withMember s (w.enclosed p), true) := by
  induction p generalizing v s before with
  | nil => exact putChild_of_missing hs hv w
  | cons next p ih =>
    have hnext : (emptyFor next).admits next ∧ ∃ before, Schema.checkMissing before p = .ok () := by
      cases next with
      | key name => exact ⟨rfl, _, hp⟩
      | index place =>
        simp only [Schema.checkMissing] at hp
        split at hp
        · next h => subst h; exact ⟨rfl, _, hp⟩
        · cases hp
    obtain ⟨hadmits, before, hp⟩ := hnext
    rw [create_cons, hv, Option.getD_none, ih hadmits (child?_emptyFor next next) hp]
    simp only [putChild_of_missing hs hv, Bool.and_self, enclosed]

theorem putChild_of_child? {v d : Json} {s : Step} (h : v.child? s = some d) (c : Json) :
    modifyChild? (fun _ => some c) v s = some (v.putChild s c).1 := by
  cases v with
  | obj fields =>
    simp only [child?] at h
    simp [modifyChild?, putChild, setChild?, Table.modify?_of_get? h]
  | arr items =>
    obtain ⟨place, hplace, hd⟩ := Option.bind_eq_some_iff.1 h
    obtain ⟨hlt, rfl⟩ := List.getElem?_eq_some_iff.1 hd
    simp [modifyChild?, putChild, setChild?, hplace, hlt, Nat.ne_of_lt hlt]
  | _ => cases h

/-- Along what is there writing replaces the container behind it. -/
theorem create_append {v c : Json} {q : Path} (h : v.get? q = some c) (s : Step) (p : Path)
    (w : Json) :
    v.replace? q (c.create (s :: p) w).1 = some (v.create (q ++ s :: p) w).1 ∧
      (v.create (q ++ s :: p) w).2 = (c.create (s :: p) w).2 := by
  induction q generalizing v with
  | nil =>
    cases h
    exact ⟨rfl, rfl⟩
  | cons t q ih =>
    obtain ⟨d, hd, hq⟩ := Option.bind_eq_some_iff.1 h
    obtain ⟨hdata, hdone⟩ := ih hq
    obtain ⟨next, r, hr⟩ : ∃ next r, q ++ s :: p = next :: r := by
      cases q <;> exact ⟨_, _, rfl⟩
    rw [List.cons_append, hr, create_cons, hd, Option.getD_some, ← hr]
    refine ⟨?_, by simp [hdone, putChild_taken (admits_of_child? hd)]⟩
    rw [← putChild_of_child? hd]
    exact modifyChild?_congr hd hdata

theorem get?_take_resolvedSteps (v : Json) (p : Path) :
    ∃ c, v.get? (p.take (v.resolvedSteps p)) = some c ∧
      ∀ s q, p.drop (v.resolvedSteps p) = s :: q → c.child? s = none := by
  induction p generalizing v with
  | nil => exact ⟨v, rfl, by simp [resolvedSteps]⟩
  | cons t p ih =>
    cases hv : v.child? t with
    | none =>
      refine ⟨v, by simp [resolvedSteps, hv], fun s q h => ?_⟩
      simp only [resolvedSteps, hv, List.drop_zero, List.cons.injEq] at h
      exact h.1 ▸ hv
    | some d =>
      obtain ⟨c, hc, hmissing⟩ := ih d
      exact ⟨c, by simp [resolvedSteps, hv, get?, hc], by simpa [resolvedSteps, hv] using hmissing⟩

/-- The beginnings of a path that lead to something are those with no more steps than it
resolves. -/
theorem resolves_take_iff {v : Json} {p : Path} {n : Nat} (hn : n ≤ p.length) :
    v.resolves (p.take n) ↔ n ≤ v.resolvedSteps p := by
  induction p generalizing v n with
  | nil =>
    obtain rfl : n = 0 := Nat.le_zero.1 hn
    simp [resolves]
  | cons s p ih =>
    cases n with
    | zero => simp [resolves]
    | succ n =>
      have hn : n ≤ p.length := Nat.le_of_succ_le_succ hn
      cases hc : v.child? s with
      | none => simp [resolves, get?, resolvedSteps, hc]
      | some c =>
        simp only [resolvedSteps, hc, Nat.succ_le_succ_iff]
        rw [← ih hn, List.take_succ_cons, resolves, get?, hc, Option.bind_some]
        rfl

theorem resolvedSteps_append {v c : Json} {p : Path} (h : v.get? p = some c) (q : Path) :
    v.resolvedSteps (p ++ q) = p.length + c.resolvedSteps q := by
  induction p generalizing v with
  | nil =>
    cases h
    exact (Nat.zero_add _).symm
  | cons s p ih =>
    obtain ⟨d, hd, h⟩ := Option.bind_eq_some_iff.1 h
    simp only [List.cons_append, resolvedSteps, hd, ih h, List.length_cons]
    omega

end Json

namespace Schema

/-- What is there may always be written. -/
theorem checkSet_of_get? {data c : Json} {p : Path} (h : data.get? p = some c) (S : Schema) :
    S.checkSet data p = .ok () := by
  have hall := Json.resolvedSteps_append h []
  rw [List.append_nil, Json.resolvedSteps, Nat.add_zero] at hall
  simp only [checkSet, hall, List.drop_length]

/-- What is missing is an insertion at the first step that cannot be taken. -/
theorem checkSet_of_missing {data c : Json} {p : Path} {s : Step} (h : data.get? p = some c)
    (hs : c.child? s = none) (S : Schema) (q : Path) :
    S.checkSet data (p ++ s :: q) = (do
      checkInsert S data p s
      checkMissing (p ++ [s]) q) := by
  have hsteps := Json.resolvedSteps_append h (s :: q)
  rw [Json.resolvedSteps, hs, Nat.add_zero] at hsteps
  simp only [checkSet, hsteps, List.drop_left, List.take_left]

theorem le_of_checkItem {schema : Option Schema} {parent : Path} {place length : Nat}
    (h : checkItem schema parent place length = .ok ()) : place ≤ length := by
  refine Nat.le_of_not_lt fun hlt => ?_
  simp only [checkItem, if_pos hlt] at h
  repeat' split at h
  all_goals cases h

/-- What may be put into a container is admitted by it. -/
theorem admits_of_checkInsert {schema : Schema} {data c : Json} {parent : Path} {s : Step}
    (h : schema.checkInsert data parent s = .ok ()) (hc : data.get? parent = some c) :
    c.admits s := by
  rw [checkInsert, hc] at h
  cases c with
  | obj fields => rfl
  | arr items =>
    cases hs : s.asIndex? with
    | none => simp [hs] at h
    | some place =>
      simp only [hs] at h
      simpa [Json.admits, hs] using le_of_checkItem h
  | _ => cases h

/-- **Creation does not stop half way.** What a schema allows to be written at a path that leads
nowhere can be written: the last container on the way that is there takes a new last member, which
holds the value within the containers that are made. -/
theorem create_of_checkSet {schema : Schema} {data : Json} {p : Path}
    (h : schema.checkSet data p = .ok ()) (hp : data.get? p = none) (w : Json) :
    (data.create p w).2 = true ∧ ∃ c s q, p.drop (data.resolvedSteps p) = s :: q ∧
      data.get? (p.take (data.resolvedSteps p)) = some c ∧ c.admits s ∧ c.child? s = none ∧
      data.replace? (p.take (data.resolvedSteps p)) (c.withMember s (w.enclosed q)) =
        some (data.create p w).1 := by
  obtain ⟨c, hc, hmissing⟩ := Json.get?_take_resolvedSteps data p
  cases hrest : p.drop (data.resolvedSteps p) with
  | nil =>
    rw [List.take_of_length_le (List.drop_eq_nil_iff.1 hrest), hp] at hc
    cases hc
  | cons s q =>
    simp only [checkSet, hrest] at h
    cases hinsert : schema.checkInsert data (p.take (data.resolvedSteps p)) s with
    | error e => simp [hinsert, bind, Except.bind] at h
    | ok =>
      rw [hinsert] at h
      have hadmits := admits_of_checkInsert hinsert hc
      have hchild := hmissing s q hrest
      have hmade := Json.create_of_missing hadmits hchild h w
      obtain ⟨hdata, hdone⟩ := Json.create_append hc s q w
      rw [← hrest, List.take_append_drop, hrest, hmade] at hdata hdone
      exact ⟨hdone, c, s, q, rfl, hc, hadmits, hchild, hdata⟩

theorem create_done_of_checkSet {schema : Schema} {data : Json} {p : Path}
    (h : schema.checkSet data p = .ok ()) (hp : data.get? p = none) (w : Json) :
    (data.create p w).2 = true :=
  (create_of_checkSet h hp w).1

end Schema

end StatVars
