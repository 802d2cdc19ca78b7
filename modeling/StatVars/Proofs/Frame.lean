import StatVars.Proofs.Edit

/-!
# What a change leaves alone

Two paths may address the same value although they are written differently, for the container
decides how a step is taken. `Json.Alike` says that they do, and `Json.Parted` that at some step
they go on to different children of one container. A change at a path is framed if paths that part
from it read what they have read before, whether they part in a container that was there or in one
that the change has made. Main statements: `Framed.of_replace`, a change of a part is framed if it
is so within the part, and `framed_create`.
-/

namespace StatVars.Json

variable {v w c d x : Json} {s t : Step} {p q r : Path} {fields : List (String × Json)}
  {items : List Json}

/-! ## Steps and paths that address the same -/

/-- Two steps into a container ask for the same child of it. -/
def sameStep (v : Json) (s t : Step) : Prop :=
  match v with
  | .obj _ => s.asKey = t.asKey
  | .arr _ => s.asIndex? = t.asIndex?
  | _ => False

theorem child?_of_sameStep (h : v.sameStep s t) : v.child? s = v.child? t := by
  cases v with
  | obj fields => exact congrArg (Table.get? fields) h
  | arr items => exact congrArg (·.bind (items[·]?)) h
  | _ => exact h.elim

/-- Step by step both paths lead to the same values. -/
inductive Alike : Json → Path → Path → Prop
  | nil {v : Json} : Alike v [] []
  | cons {v c : Json} {s t : Step} {q r : Path} (hs : v.sameStep s t)
    (hc : v.child? t = some c) (h : Alike c q r) : Alike v (s :: q) (t :: r)

/-- The paths lead to the same container and there go on to different children. -/
inductive Parted : Json → Path → Path → Prop
  | here {v : Json} {s t : Step} {q r : Path} (hv : v.isScalar = false) (hs : ¬ v.sameStep s t) :
    Parted v (s :: q) (t :: r)
  | deeper {v c : Json} {s t : Step} {q r : Path} (hs : v.sameStep s t)
    (hc : v.child? t = some c) (h : Parted c q r) : Parted v (s :: q) (t :: r)

theorem not_parted_nil : ¬ v.Parted q [] := nofun

theorem get?_cons (v : Json) (s : Step) (p : Path) :
    v.get? (s :: p) = (v.child? s).bind (·.get? p) := rfl

theorem Alike.get? (h : v.Alike q p) : v.get? q = v.get? p := by
  induction h with
  | nil => rfl
  | cons hs hc _ ih => rw [get?_cons, get?_cons, child?_of_sameStep hs, hc, Option.bind_some,
      Option.bind_some, ih]

/-! ## One container -/

/-- The containers are of one kind and have the same children, apart from what `s` leads to. -/
structure DiffersAt (v w : Json) (s : Step) : Prop where
  scalar : w.isScalar = v.isScalar
  same : w.sameStep = v.sameStep
  other : ∀ t, ¬ v.sameStep t s → w.child? t = v.child? t

theorem differsAt_insert (fields : List (String × Json)) (s : Step) (d : Json) :
    DiffersAt (.obj fields) (.obj (Table.insert fields s.asKey d)) s := by
  refine ⟨rfl, rfl, fun t ht => ?_⟩
  rw [child?, Table.get?_insert, if_neg (Ne.symm ht)]
  rfl

theorem differsAt_erase (fields : List (String × Json)) (s : Step) :
    DiffersAt (.obj fields) (.obj (Table.erase fields s.asKey)) s := by
  refine ⟨rfl, rfl, fun t ht => ?_⟩
  rw [child?, Table.get?_erase, if_neg (Ne.symm ht)]
  rfl

theorem differsAt_arr {items' : List Json} {place : Nat} (hs : s.asIndex? = some place)
    (h : ∀ i, i ≠ place → items'[i]? = items[i]?) : DiffersAt (.arr items) (.arr items') s := by
  refine ⟨rfl, rfl, fun t ht => ?_⟩
  cases hi : t.asIndex? with
  | none => simp only [child?, hi, Option.bind_none]
  | some i =>
    simp only [child?, hi, Option.bind_some]
    refine h i ?_
    rintro rfl
    exact ht (hi.trans hs.symm)

theorem differsAt_set {place : Nat} (hs : s.asIndex? = some place) (d : Json) :
    DiffersAt (.arr items) (.arr (items.set place d)) s :=
  differsAt_arr hs fun _ hi => List.getElem?_set_ne (Ne.symm hi)

/-- What has been put into a container is there, and the other children are as they were. -/
theorem child?_putChild (h : (v.putChild s d).2 = true) :
    (v.putChild s d).1.child? s = some d ∧ DiffersAt v (v.putChild s d).1 s := by
  unfold putChild at h ⊢
  cases hset : v.setChild? s d with
  | none =>
    rw [hset] at h
    cases h
  | some v' =>
    cases v with
    | obj fields =>
      cases hset
      exact ⟨Table.get?_insert_self .., differsAt_insert fields s d⟩
    | arr items =>
      obtain ⟨place, hs, hset⟩ := Option.bind_eq_some_iff.1 hset
      split at hset
      · next hplace =>
        cases hset
        subst hplace
        refine ⟨by simp [child?, hs], differsAt_arr hs fun i hi => ?_⟩
        rw [List.getElem?_append]
        split
        · rfl
        · rw [List.getElem?_eq_none (by simp; omega), List.getElem?_eq_none (by omega)]
      · split at hset
        · next hplace =>
          cases hset
          exact ⟨by simp [child?, hs, hplace], differsAt_set hs d⟩
        · cases hset
    | _ => cases hset

/-! ## Framed changes -/

/-- Paths that part from `p`, before or after, read the same before and after. -/
def Framed (v w : Json) (p : Path) : Prop :=
  ∀ q, v.Parted q p ∨ w.Parted q p → w.get? q = v.get? q

/-- The same of a part that may be missing before or after. -/
def FramedPart (c d : Option Json) (p : Path) : Prop :=
  ∀ q, (∃ x, c = some x ∧ x.Parted q p) ∨ (∃ x, d = some x ∧ x.Parted q p) →
    d.bind (·.get? q) = c.bind (·.get? q)

theorem framed_nil (v w : Json) : Framed v w [] := by
  rintro q (h | h) <;> exact absurd h not_parted_nil

theorem framedPart_nil (c d : Option Json) : FramedPart c d [] := by
  rintro q (⟨x, -, h⟩ | ⟨x, -, h⟩) <;> exact absurd h not_parted_nil

theorem Framed.part (h : Framed c d p) : FramedPart (some c) (some d) p := by
  rintro q (⟨x, hx, hq⟩ | ⟨x, hx, hq⟩) <;> cases hx
  · exact h q (.inl hq)
  · exact h q (.inr hq)

/-- A change of one child is framed if it is framed in that child. -/
theorem DiffersAt.framed (h : DiffersAt v w s) (hpart : FramedPart (v.child? s) (w.child? s) p) :
    Framed v w (s :: p) := by
  intro q hq
  have hfirst : ∃ t q', q = t :: q' ∧ (v.sameStep t s →
      (∃ x, v.child? s = some x ∧ x.Parted q' p) ∨ ∃ x, w.child? s = some x ∧ x.Parted q' p) := by
    rcases hq with hq | hq
    · cases hq with
      | here _ hs => exact ⟨_, _, rfl, fun hs' => absurd hs' hs⟩
      | deeper _ hc hq => exact ⟨_, _, rfl, fun _ => .inl ⟨_, hc, hq⟩⟩
    · cases hq with
      | here _ hs => exact ⟨_, _, rfl, fun hs' => absurd (h.same ▸ hs') hs⟩
      | deeper _ hc hq => exact ⟨_, _, rfl, fun _ => .inr ⟨_, hc, hq⟩⟩
  obtain ⟨t, q', rfl, hwithin⟩ := hfirst
  rw [get?_cons, get?_cons]
  by_cases hs : v.sameStep t s
  · have hs' : w.sameStep t s := h.same ▸ hs
    rw [child?_of_sameStep hs, child?_of_sameStep hs']
    exact hpart q' (hwithin hs)
  · rw [h.other t hs]

/-- A change of a part is framed if it is framed within the part. -/
theorem Framed.of_replace (hget : v.get? p = some c) (hreplace : v.replace? p d = some w)
    (h : Framed c d r) : Framed v w (p ++ r) := by
  induction p generalizing v w with
  | nil =>
    cases hget
    cases hreplace
    exact h
  | cons s p ih =>
    obtain ⟨a, ha, hget⟩ := Option.bind_eq_some_iff.1 hget
    obtain ⟨fields, a', b, rfl, hc, hb, rfl⟩ | ⟨items, place, a', b, rfl, hs, hc, hb, rfl⟩ :=
      modifyChild?_eq_some hreplace
    · obtain rfl : a' = a := Option.some.inj (hc.symm.trans ha)
      refine (differsAt_insert fields s b).framed ?_
      rw [ha, child?, Table.get?_insert_self]
      exact (ih hget hb).part
    · obtain rfl : a' = a := by
        simp only [child?, hs, Option.bind_some] at ha
        exact Option.some.inj (hc.symm.trans ha)
      have hplace := (List.getElem?_eq_some_iff.1 hc).1
      refine (differsAt_set hs b).framed ?_
      rw [ha, child?, hs, Option.bind_some, List.getElem?_set_self hplace]
      exact (ih hget hb).part

/-- Nothing but the one path leads anywhere in the containers that are made. -/
theorem framed_create (h : (v.create p x).2 = true) : Framed v (v.create p x).1 p := by
  induction p generalizing v with
  | nil => cases h
  | cons s p ih =>
    cases p with
    | nil => exact (child?_putChild h).2.framed (framedPart_nil _ _)
    | cons next p =>
      rw [create_cons] at h ⊢
      obtain ⟨hdone, htaken⟩ := Bool.and_eq_true_iff.1 h
      obtain ⟨hchild, hdiffers⟩ := child?_putChild htaken
      refine hdiffers.framed ?_
      rw [hchild]
      have hframed := ih hdone
      cases hc : v.child? s with
      | some c =>
        rw [hc] at hframed
        exact hframed.part
      | none =>
        rw [hc] at hframed
        rintro q (⟨y, hy, -⟩ | ⟨y, hy, hq⟩) <;> cases hy
        rw [Option.bind_none, Option.bind_some, hframed q (.inr hq)]
        cases q with
        | nil => cases hq
        | cons t q => rw [Option.getD_none, get?_cons, child?_emptyFor, Option.bind_none]

theorem get?_create (h : (v.create p x).2 = true) : (v.create p x).1.get? p = some x := by
  induction p generalizing v with
  | nil => cases h
  | cons s p ih =>
    cases p with
    | nil => rw [create, get?_cons, (child?_putChild h).1, Option.bind_some, get?_nil]
    | cons next p =>
      rw [create_cons] at h ⊢
      obtain ⟨hdone, htaken⟩ := Bool.and_eq_true_iff.1 h
      rw [get?_cons, (child?_putChild htaken).1, Option.bind_some]
      exact ih hdone

/-! ## Writing at longer paths -/

theorem modifyChild?_none (v : Json) (s : Step) : modifyChild? (fun _ => none) v s = none := by
  cases h : modifyChild? (fun _ => none) v s with
  | none => rfl
  | some w =>
    obtain ⟨_, _, _, _, _, hd, _⟩ | ⟨_, _, _, _, _, _, _, hd, _⟩ := modifyChild?_eq_some h <;>
      cases hd

/-- To write below what is there is to write a part of it. -/
theorem replace?_append (hget : v.get? p = some c) (q : Path) (x : Json) :
    v.replace? (p ++ q) x = (c.replace? q x).bind (v.replace? p) := by
  induction p generalizing v with
  | nil =>
    cases hget
    exact (Option.bind_fun_some _).symm
  | cons s p ih =>
    obtain ⟨a, ha, hget⟩ := Option.bind_eq_some_iff.1 hget
    have hpart : modifyChild? (·.replace? (p ++ q) x) v s =
        modifyChild? (fun b => (c.replace? q x).bind (b.replace? p)) v s :=
      modifyChild?_congr ha (ih hget)
    rw [List.cons_append, replace?_cons, hpart]
    cases c.replace? q x with
    | none => exact modifyChild?_none v s
    | some d => rfl

theorem Alike.get?_of_replace? (h : v.Alike q p) (hreplace : v.replace? p d = some w) :
    w.get? q = some d := by
  induction h generalizing w with
  | nil =>
    cases hreplace
    rfl
  | @cons v c s t q p hs hc _ ih =>
    obtain ⟨fields, a, b, rfl, ha, hb, rfl⟩ | ⟨items, place, a, b, rfl, ht, ha, hb, rfl⟩ :=
      modifyChild?_eq_some hreplace
    · obtain rfl : a = c := Option.some.inj (ha.symm.trans hc)
      have hs : s.asKey = t.asKey := hs
      rw [get?_cons, child?, hs, Table.get?_insert_self]
      exact ih hb
    · obtain rfl : a = c := by
        simp only [child?, ht, Option.bind_some] at hc
        exact Option.some.inj (ha.symm.trans hc)
      have hs : s.asIndex? = t.asIndex? := hs
      have hplace := (List.getElem?_eq_some_iff.1 ha).1
      rw [get?_cons, child?, hs, ht, Option.bind_some, List.getElem?_set_self hplace]
      exact ih hb

end StatVars.Json
