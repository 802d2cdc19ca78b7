import StatVars.Proofs.Descriptions
import StatVars.Proofs.Frame

/-!
# What the check of an edit promises

A command asks the schema before it edits a document and then goes on as if nothing could stop it.
The answers bear this out: what may be written where nothing is can be written to the end, an array
has a place for an item that may be put into it, and a member that may be removed is there. A value
that is written where nothing is grows the document and changes nothing in it: the last container
that the path leads to has a new last member, which holds the value and the containers on the way
to it (`Json.Grown`). Main statement: `Schema.checked_edit`.
-/

namespace StatVars

namespace Json

variable {v w x c : Json} {s : Step} {p : Path}

/-- The document `w` is `v` with `x` at a path that has led nowhere, and with the containers on the
way that have been missing. -/
structure Grown (v w : Json) (p : Path) (x : Json) : Prop where
  there : w.get? p = some x
  /-- Every step that could not be taken leads to something new. -/
  fresh : ∀ n, v.resolvedSteps p < n → n ≤ p.length →
    v.get? (p.take n) = none ∧ ∃ c, w.get? (p.take n) = some c
  elsewhere : v.Framed w p
  /-- All that is new is one last member of a container that was there. -/
  member : ∃ c s q, p.drop (v.resolvedSteps p) = s :: q ∧
    v.get? (p.take (v.resolvedSteps p)) = some c ∧ c.admits s ∧ c.child? s = none ∧
    v.replace? (p.take (v.resolvedSteps p)) (c.withMember s (x.enclosed q)) = some w

theorem exists_get?_take (h : w.get? p = some x) (n : Nat) : ∃ c, w.get? (p.take n) = some c := by
  rw [← List.take_append_drop n p, get?_append] at h
  obtain ⟨c, hc, -⟩ := Option.bind_eq_some_iff.1 h
  exact ⟨c, hc⟩

theorem get?_take_eq_none {n : Nat} (hlt : v.resolvedSteps p < n) (hn : n ≤ p.length) :
    v.get? (p.take n) = none := by
  cases h : v.get? (p.take n) with
  | none => rfl
  | some c =>
    have hle := (resolves_take_iff hn).1 (by rw [resolves, h]; rfl)
    exact absurd hle (Nat.not_le_of_lt hlt)

theorem exists_removeChild? (h : c.child? s = some x) :
    ∃ rest, c.removeChild? s = some (x, rest) := by
  cases c with
  | obj fields =>
    rw [child?] at h
    exact ⟨_, by rw [removeChild?, h]; rfl⟩
  | arr items =>
    obtain ⟨place, hplace, hx⟩ := Option.bind_eq_some_iff.1 h
    exact ⟨.arr (items.eraseIdx place), by simp [removeChild?, hplace, hx]⟩
  | _ => cases h

/-- What is there behind a last step can be removed. -/
theorem exists_remove? {parent : Path} {last : Step} (hsplit : p.splitLast? = some (parent, last))
    (h : v.get? p = some x) : ∃ w, v.remove? p = some (x, w) := by
  obtain rfl := Path.splitLast?_eq_some hsplit
  rw [get?_append] at h
  obtain ⟨c, hc, h⟩ := Option.bind_eq_some_iff.1 h
  obtain ⟨d, hd, h⟩ := Option.bind_eq_some_iff.1 h
  cases h
  obtain ⟨rest, hrest⟩ := exists_removeChild? hd
  obtain ⟨w, hw⟩ := exists_replace? hc rest
  refine ⟨w, ?_⟩
  simp only [remove?, hsplit, hc, hrest, hw, Option.bind_eq_bind, Option.bind_some]
  rfl

end Json

namespace Change

open Fallible

variable {p : Path} {x : Json} {vars : Variables}

theorem createAt_apply (hcheck : vars.schema.checkSet vars.data p = .ok ())
    (hdone : (vars.data.create p x).2 = true) :
    createAt p (.value x) vars =
      (.ok ⟨p, none, some x⟩, { vars with data := (vars.data.create p x).1 }) := by
  have hguarded : guarded (vars.schema.checkSet vars.data p) = .ok () := by rw [hcheck]; rfl
  have hcreate := create_apply_of_done hdone
  simp only [createAt, bind_apply, get_apply, hguarded, liftM_apply, hcreate]
  rfl

theorem remove_apply {rest : Json} (h : vars.data.remove? p = some (x, rest)) :
    remove p vars = (.ok x, { vars with data := rest }) := by
  simp only [remove, bind_apply, get_apply, h, present, liftM_apply, set_apply]
  rfl

end Change

namespace Schema

variable {S : Schema} {data : Json} {p parent : Path} {s : Step} {items : List Json}

theorem grown_of_checkSet (hp : data.get? p = none) (h : S.checkSet data p = .ok ()) (x : Json) :
    data.Grown (data.create p x).1 p x := by
  obtain ⟨hdone, hmember⟩ := create_of_checkSet h hp x
  have hthere := Json.get?_create hdone
  refine ⟨hthere, fun n hlt hn => ?_, Json.framed_create hdone, hmember⟩
  exact ⟨Json.get?_take_eq_none hlt hn, Json.exists_get?_take hthere n⟩

/-- An array has a place for an item that may be put into it. -/
theorem place_of_checkInsert (hget : data.get? parent = some (.arr items))
    (h : S.checkInsert data parent s = .ok ()) :
    ∃ place, s.asIndex? = some place ∧ place ≤ items.length := by
  obtain ⟨place, hplace, hle⟩ := (Option.any_eq_true _ _).1 (admits_of_checkInsert h hget)
  exact ⟨place, hplace, of_decide_eq_true hle⟩

/-- A member that may be removed is there and can be taken away. -/
theorem remove?_of_checkDelete (h : S.checkDelete data p = .ok ()) :
    ∃ x rest, data.get? p = some x ∧ data.remove? p = some (x, rest) := by
  rw [checkDelete] at h
  cases hsplit : p.splitLast? with
  | none => simp [hsplit] at h
  | some split =>
    obtain ⟨parent, last⟩ := split
    rw [hsplit] at h
    cases hx : data.get? p with
    | none => simp [Json.resolves, hx] at h
    | some x =>
      obtain ⟨rest, hrest⟩ := Json.exists_remove? hsplit hx
      exact ⟨x, rest, rfl, hrest⟩

/-- **An edit that a schema lets pass goes through.** A value can be written wherever it may be
written, which grows the document and is never refused half way; an item has a place in the array
into which it may be put; and what may be removed is there and is what is taken away. -/
theorem checked_edit (vars : Variables) :
    (∀ p x, vars.data.get? p = none → vars.schema.checkSet vars.data p = .ok () →
      (vars.data.create p x).2 = true ∧ vars.data.Grown (vars.data.create p x).1 p x ∧
      Change.createAt p (.value x) vars =
        (.ok ⟨p, none, some x⟩, { vars with data := (vars.data.create p x).1 })) ∧
    (∀ parent s items, vars.data.get? parent = some (.arr items) →
      vars.schema.checkInsert vars.data parent s = .ok () →
      ∃ place, s.asIndex? = some place ∧ place ≤ items.length) ∧
    ∀ p, vars.schema.checkDelete vars.data p = .ok () →
      ∃ x rest, vars.data.get? p = some x ∧ vars.data.remove? p = some (x, rest) ∧
        Change.remove p vars = (.ok x, { vars with data := rest }) := by
  refine ⟨fun p x hp hcheck => ?_, fun parent s items hget hcheck => ?_, fun p hcheck => ?_⟩
  · have hdone := create_done_of_checkSet hcheck hp x
    exact ⟨hdone, grown_of_checkSet hp hcheck x, Change.createAt_apply hcheck hdone⟩
  · exact place_of_checkInsert hget hcheck
  · obtain ⟨x, rest, hx, hrest⟩ := remove?_of_checkDelete hcheck
    exact ⟨x, rest, hx, hrest, Change.remove_apply hrest⟩

theorem checked_edit_nested :
    let vars : Variables := ⟨.obj [("a", .obj []), ("list", .arr [.null])], .initial⟩
    let p : Path := [.key "a", .key "b", .index 0, .key "c"]
    (vars.data.create p .null).2 = true ∧ vars.data.Grown (vars.data.create p .null).1 p .null ∧
    (∃ place, (Step.key "1").asIndex? = some place ∧ place ≤ 1) ∧
    ∃ x rest, vars.data.remove? [.key "list"] = some (x, rest) := by
  intro vars p
  obtain ⟨hset, hinsert, hdelete⟩ := checked_edit vars
  obtain ⟨hdone, hgrown, -⟩ := hset p .null rfl rfl
  obtain ⟨x, rest, -, hrest, -⟩ := hdelete [.key "list"] rfl
  exact ⟨hdone, hgrown, hinsert [.key "list"] (.key "1") [.null] rfl rfl, x, rest, hrest⟩

end Schema

end StatVars
