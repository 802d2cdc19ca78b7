import StatVars.Proofs.Calls

/-!
# Calls that fail commit nothing

A call fails before it has written anything, or because the look at the active node fails after the
write. In the second case what was bound before is bound again and the view of the scope is
forgotten, so that all snapshots are as before the call, and no view is new. Main statement:
`Session.failure_commits_nothing`. A view that was wrong before the call, since the tree has changed
above its node, is not put right by a call that fails.
-/

namespace StatVars.Session

variable {c : Config} {s t : Session Memory}

/-- The event is a call that writes or looks at the active node, and the call fails. -/
def Event.Fails (c : Config) (s : Session Memory) : Event → Prop
  | start scope node document => ∃ e, (Session.start c scope node document s).1 = .error e
  | respond scope node text => ∃ e, (Session.respond c scope node text s).1 = .error e
  | set scope path value => ∃ e, (Session.set c scope path value s).1 = .error e
  | activate scope => ∃ e, (Session.activate c scope s).1 = .error e
  | push .. | setActive .. | deleteScope .. | current .. => False

/-- The snapshots are those of `s`, and so are the views, though some may be forgotten. -/
structure KeptFrom (s t : Session Memory) : Prop where
  host : Memory.Agrees s.host t.host
  views : ∀ scope view, Table.get? t.views scope = some view → Table.get? s.views scope = some view

namespace KeptFrom

theorem refl (s : Session Memory) : KeptFrom s s :=
  ⟨.refl _ _, fun _ _ h => h⟩

theorem of_erased {scope : Scope} (hhost : Memory.Agrees s.host t.host)
    (hviews : t.views = s.views ∨ t.views = Table.erase s.views scope) : KeptFrom s t := by
  refine ⟨hhost, fun other view hview => ?_⟩
  rcases hviews with heq | heq
  · rwa [heq] at hview
  · rw [heq, Table.get?_erase] at hview
    split at hview
    · cases hview
    · exact hview

/-- A view that is left is as right as it was. -/
theorem coherent (h : KeptFrom s t) (hs : Coherent c s) : Coherent c t := by
  intro scope view hview
  rw [h.host.seenAt]
  exact hs scope view (h.views scope view hview)

end KeptFrom

theorem CommitsAt.keptFrom {scope : Scope} {node : Node} {α : Type}
    {outcome : Except HostError α × Session Memory} {e : HostError}
    (h : CommitsAt c scope node s outcome) (he : outcome.1 = .error e) : KeptFrom s outcome.2 := by
  obtain ⟨hhost, hviews⟩ := h.of_error he
  exact .of_erased hhost hviews

theorem Event.Fails.keptFrom {e : Event} (h : e.Fails c s) : KeptFrom s (e.after c s) := by
  cases e with
  | push | setActive | deleteScope | current => exact h.elim
  | start scope node document =>
    obtain ⟨_, he⟩ := h
    exact (start_commitsAt c scope node document s).keptFrom he
  | respond scope node text =>
    obtain ⟨_, he⟩ := h
    exact (respond_commitsAt c scope node text s).keptFrom he
  | set scope path value =>
    obtain ⟨_, he⟩ := h
    cases hactive : s.host.activeNode? scope with
    | none =>
      rw [Event.after, set_of_no_activeNode hactive]
      exact .refl s
    | some node => exact (set_commitsAt hactive c path value).keptFrom he
  | activate scope =>
    obtain ⟨_, he⟩ := h
    rw [Event.after]
    rw [activate_apply] at he ⊢
    split
    · next hseen =>
      simp only [hseen] at he
      cases he
    · exact .refl s

/-- **Calls that fail commit nothing.** After a call that fails, every snapshot is as it was before,
and a view that is left was there before, while what is seen from its node has not changed either.
So no view is left that is wrong, unless it was there and wrong before the call. A write that is
not applied changes nothing at all. -/
theorem failure_commits_nothing (c : Config) (s : Session Memory) :
    (∀ e : Event, e.Fails c s →
      (∀ scope node, (e.after c s).host.boundAt? scope node = s.host.boundAt? scope node) ∧
      (∀ scope view, Table.get? (e.after c s).views scope = some view →
        Table.get? s.views scope = some view ∧
        (e.after c s).host.seenAt c scope view.node = s.host.seenAt c scope view.node) ∧
      (Coherent c s → Coherent c (e.after c s))) ∧
    ∀ scope path value result, (set c scope path value s).1 = .ok result → ¬result.applied →
      (set c scope path value s).2 = s := by
  refine ⟨fun e hfails => ?_, fun scope path value result => set_of_not_applied⟩
  have hkept := hfails.keptFrom
  refine ⟨fun scope node => hkept.host.bound scope node id, fun scope view hview => ?_,
    hkept.coherent⟩
  exact ⟨hkept.views scope view hview, hkept.host.seenAt c scope view.node⟩

/-- A text without commands unbinds its node, and is refused because the user looks at a node whose
parent is not known: the snapshot is back, and the view of the other scope is still right. -/
theorem failure_commits_nothing_unbind :
    let alice : Scope := ⟨"alice"⟩
    let bob : Scope := ⟨"bob"⟩
    let root : Node := ⟨"root"⟩
    let lost : Node := ⟨"lost"⟩
    let s : Session Memory :=
      { host :=
          { parents := [((alice, root), none), ((alice, lost), some ⟨"gone"⟩), ((bob, root), none)]
            active := [(alice, lost), (bob, root)]
            snapshots := [((alice, root), { revision := 1 }), ((bob, root), { revision := 2 })] }
        views := [(alice, ⟨none, {}⟩), (bob, ⟨some root, { revision := 2 }⟩)] }
    let after := Event.after {} s (.respond alice root "")
    (respond {} alice root "" s).1 = .error (.unknownNode ⟨"gone"⟩) ∧
      after.host.boundAt? alice root = some { revision := 1 } ∧
      Table.get? after.views alice = none ∧
      Coherent {} after := by
  intro alice bob root lost s after
  have hcommands : (Batch.ofText {} "").commands = [] := by decide +kernel
  have hbase : baseAt {} s.host alice root = .ok {} := rfl
  have hrespond := respond_of_no_commands hbase hcommands
  have herror : (respond {} alice root "" s).1 = .error (.unknownNode ⟨"gone"⟩) := by
    rw [hrespond]
    rfl
  have hfails : (Event.respond alice root "").Fails {} s := ⟨_, herror⟩
  obtain ⟨hbound, -, hcoherent⟩ := (failure_commits_nothing {} s).1 _ hfails
  have hs : Coherent {} s := by
    intro scope view hview
    simp only [s, Table.get?_cons] at hview
    split at hview
    · next halice =>
      cases hview
      cases halice
      rfl
    · split at hview
      · next hbob =>
        cases hview
        cases hbob
        rfl
      · cases hview
  refine ⟨herror, hbound alice root, ?_, hcoherent hs⟩
  show Table.get? (respond {} alice root "" s).2.views alice = none
  rw [hrespond]
  rfl

/-- A view of one scope that is wrong is still there after a call on another one has failed: when a
node is pushed again, as a root, the session is not told, and looks at its active node again only
when the scope of the node is called. -/
theorem failure_leaves_wrong_view :
    let alice : Scope := ⟨"alice"⟩
    let bob : Scope := ⟨"bob"⟩
    let root : Node := ⟨"root"⟩
    let leaf : Node := ⟨"leaf"⟩
    let document : Json := .obj [("hp", .ofNat 10)]
    let s := [.push bob root none, .start bob root document, .push bob leaf (some root),
      .activate bob, .push bob leaf none].foldl (Event.after {}) (⟨{}, []⟩ : Session Memory)
    let e := Event.set alice "hp" (.value (.ofNat 3))
    e.Fails {} s ∧ ∃ view, Table.get? (e.after {} s).views bob = some view ∧
      (e.after {} s).host.seenAt {} bob view.node ≠ .ok view.bundle := by
  intro alice bob root leaf document s e
  have hactive : s.host.activeNode? alice = none := rfl
  have hset := set_of_no_activeNode hactive {} "hp" (.value (.ofNat 3))
  have hafter : e.after {} s = s := congrArg Prod.snd hset
  refine ⟨⟨_, congrArg Prod.fst hset⟩, ?_⟩
  rw [hafter]
  have hview : Table.get? s.views bob = some ⟨some leaf, .ofDocument true document⟩ := rfl
  have hseen : s.host.seenAt {} bob (some leaf) = .ok {} := rfl
  refine ⟨_, hview, fun hright => ?_⟩
  cases hseen.symm.trans hright

end StatVars.Session
