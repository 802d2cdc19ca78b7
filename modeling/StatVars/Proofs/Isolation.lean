import StatVars.Proofs.Calls

/-!
# Branches and scopes are apart

A call that writes at a node changes the snapshot of this node and no other one, also when it fails,
so what is read elsewhere stays what it was unless the walk to the nearest snapshot passes the node.
Main statement: `Session.branches_isolated`, for every tree, be it with cycles or unknown parents.
-/

namespace StatVars.Session

open Fallible

variable {c : Config} {scope scope' : Scope} {node node' : Node} {s t : Session Memory}

/-! ## Where an event writes -/

/-- The node that a call writes at, if it is one that writes. -/
def Event.target? (s : Session Memory) : Event → Option (Scope × Node)
  | start scope node _ => some (scope, node)
  | respond scope node _ => some (scope, node)
  | set scope _ _ => (s.host.activeNode? scope).map fun node => (scope, node)
  | push .. | setActive .. | deleteScope .. | activate .. | current .. => none

/-- An event that writes at a node changes nothing else but the view of its scope. -/
theorem Event.sameBut_of_target {e : Event} (h : e.target? s = some (scope, node)) (c : Config) :
    SameBut scope node s (e.after c s) := by
  cases e with
  | push | setActive | deleteScope | activate | current => cases h
  | start written node' document =>
    cases h
    exact (start_commitsAt c scope node document s).sameBut
  | respond written node' text =>
    cases h
    exact (respond_commitsAt c scope node text s).sameBut
  | set written path value =>
    obtain ⟨active, hactive, hplace⟩ := Option.map_eq_some_iff.1 h
    cases hplace
    exact (set_commitsAt hactive c path value).sameBut

theorem host_activate (c : Config) (scope : Scope) (s : Session Memory) :
    (activate c scope s).2.host = s.host := by
  rw [activate_apply]
  split <;> rfl

theorem host_current (c : Config) (scope : Scope) (s : Session Memory) :
    (current c scope s).2.host = s.host := by
  have hactivate (looked : Scope) : Keeps (fun t => t.host = s.host) (activate c looked) :=
    fun t ht => (host_activate c looked t).trans ht
  exact keeps_current hactivate scope s rfl

/-- Only a call that writes at a node, or deletes its scope, changes the snapshot of the node. -/
theorem Event.boundAt?_after {e : Event} (hwrite : e.target? s ≠ some (scope, node))
    (hdelete : e ≠ .deleteScope scope) (c : Config) :
    (e.after c s).host.boundAt? scope node = s.host.boundAt? scope node := by
  cases htarget : e.target? s with
  | some place =>
    -- The call writes at another node.
    obtain ⟨written, node'⟩ := place
    refine (sameBut_of_target htarget c).host.bound scope node fun hplace => hwrite ?_
    rw [htarget]
    exact congrArg some hplace
  | none =>
    cases e with
    | push pushed node' parent => rfl
    | setActive moved node' =>
      rw [Event.after, Memory.setActive]
      split
      · next host hmove =>
        split at hmove <;> cases hmove
        rfl
      · rfl
    | start | respond => cases htarget
    | set written path value =>
      rw [Event.after, set_of_no_activeNode (Option.map_eq_none_iff.1 htarget)]
    | deleteScope deleted =>
      have hne : scope ≠ deleted := fun hsame => hdelete (hsame ▸ rfl)
      exact (Memory.agreesOutside_unbindAll s.host deleted).bound scope node hne
    | activate looked => rw [Event.after, host_activate]
    | current looked => rw [Event.after, host_current]

/-! ## Runs that spare a node -/

/-- What a session comes to by calls and moves of its host of which none writes at the node or
deletes its scope. -/
inductive Spares (c : Config) (scope : Scope) (node : Node) (s : Session Memory) :
    Session Memory → Prop
  | refl : Spares c scope node s s
  | event {t : Session Memory} (e : Event) (h : Spares c scope node s t)
    (hwrite : e.target? t ≠ some (scope, node)) (hdelete : e ≠ .deleteScope scope) :
    Spares c scope node s (e.after c t)
  | read {t : Session Memory} (scope' : Scope) (node' : Node) (h : Spares c scope node s t) :
    Spares c scope node s (bundleAt c scope' node' t).2

theorem Spares.boundAt? (h : Spares c scope node s t) :
    t.host.boundAt? scope node = s.host.boundAt? scope node := by
  induction h with
  | refl => rfl
  | event e _ hwrite hdelete ih => rw [Event.boundAt?_after hwrite hdelete, ih]
  | read scope' node' _ ih => rw [bundleAt_apply, ih]

/-! ## Scopes -/

/-- The variables of a scope as they are remembered, or else as of its active node, are the same
after the deletion of another one. -/
theorem current_of_deleteScope {deleted : Scope} (hne : scope ≠ deleted) (c : Config)
    (s : Session Memory) :
    (current c scope (deleteScope deleted s).2).1 = (current c scope s).1 := by
  have hviews : Table.get? (deleteScope deleted s).2.views scope = Table.get? s.views scope :=
    (Table.get?_erase ..).trans (if_neg (Ne.symm hne))
  have hhost := Memory.agreesOutside_unbindAll s.host deleted
  have hseen : (deleteScope deleted s).2.host.seenAt c scope (s.host.activeNode? scope) =
      s.host.seenAt c scope (s.host.activeNode? scope) :=
    hhost.seenAt fun _ _ _ _ => hne
  simp only [current, bind_apply, get_apply, hviews]
  cases Table.get? s.views scope with
  | some view => rfl
  | none =>
    have hactive : (deleteScope deleted s).2.host.activeNode? scope = s.host.activeNode? scope :=
      rfl
    simp only [activate_apply, hactive, hseen]
    cases s.host.seenAt c scope (s.host.activeNode? scope) <;> rfl

/-- **Branches and scopes are apart.** A call that writes at a node, successful or not, leaves all
other snapshots as they were, and so what is read in another scope, or at a node whose walk to the
nearest snapshot does not pass the written node. Calls and moves of the host that neither write at
a node nor delete its scope never change what is read at the node if it has a snapshot. To delete
another scope changes nothing for a scope. -/
theorem branches_isolated (c : Config) (s : Session Memory) (scope : Scope) (node : Node) :
    (∀ e : Event, e.target? s = some (scope, node) →
      (∀ scope' node', (scope', node') ≠ (scope, node) →
        (e.after c s).host.boundAt? scope' node' = s.host.boundAt? scope' node') ∧
      ∀ scope' start,
        scope' ≠ scope ∨ ¬s.host.Visits scope (c.maxAncestorWalk + 1) start node →
        (bundleAt c scope' start (e.after c s)).1 = (bundleAt c scope' start s).1) ∧
    (∀ t bundle, Spares c scope node s t → s.host.boundAt? scope node = some bundle →
      (bundleAt c scope node t).1 = .ok bundle) ∧
    ∀ deleted t, deleted ≠ scope → t = (deleteScope deleted s).2 →
      (∀ node', t.host.boundAt? scope node' = s.host.boundAt? scope node') ∧
      Table.get? t.views scope = Table.get? s.views scope ∧
      (∀ start, (bundleAt c scope start t).1 = (bundleAt c scope start s).1) ∧
      (current c scope t).1 = (current c scope s).1 := by
  refine ⟨fun e htarget => ?_, fun t bundle hspares hbound => ?_, fun deleted t hne ht => ?_⟩
  · have hhost := (Event.sameBut_of_target htarget c).host
    refine ⟨fun scope' node' hne => hhost.bound scope' node' (Ne.symm hne), ?_⟩
    intro scope' start haway
    simp only [bundleAt_apply]
    refine hhost.seenAt fun start' hstart visited hvisited hplace => ?_
    cases hstart
    cases hplace
    rcases haway with hne | hunvisited
    · exact hne rfl
    · exact hunvisited hvisited
  · rw [bundleAt_apply]
    exact Memory.seenAt_of_bound (hspares.boundAt?.trans hbound) c
  · subst ht
    have hhost := Memory.agreesOutside_unbindAll s.host deleted
    refine ⟨fun node' => hhost.bound scope node' (Ne.symm hne), ?_, fun start => ?_,
      current_of_deleteScope (Ne.symm hne) c s⟩
    · exact (Table.get?_erase ..).trans (if_neg hne)
    · simp only [bundleAt_apply]
      exact hhost.seenAt fun _ _ _ _ => Ne.symm hne

/-- The root has two branches, and the user looks at a node of a cycle, so that every write fails
when it looks at this node. A failed write on the left leaves what is read on the right, and a
failed write on the right leaves what is read on the left. -/
theorem branches_isolated_cycle :
    let c : Config := { maxAncestorWalk := 3 }
    let scope : Scope := ⟨"alice"⟩
    let root : Node := ⟨"root"⟩
    let left : Node := ⟨"left"⟩
    let right : Node := ⟨"right"⟩
    let loop : Node := ⟨"loop"⟩
    let s : Session Memory :=
      { host :=
          { parents := [((scope, root), none), ((scope, left), some root),
              ((scope, right), some root), ((scope, loop), some loop)]
            active := [(scope, loop)]
            snapshots := [((scope, root), {}), ((scope, left), { revision := 1 })] } }
    (start c scope left .null s).1 = .error (.walkTooLong loop 3) ∧
      (bundleAt c scope right (Event.after c s (.start scope left .null))).1 = .ok {} ∧
      (start c scope right .null s).1 = .error (.walkTooLong loop 3) ∧
      (bundleAt c scope left (Event.after c s (.start scope right .null))).1 =
        .ok { revision := 1 } := by
  intro c scope root left right loop s
  obtain ⟨hwrite, hspares, -⟩ := branches_isolated c s scope left
  have haway : ¬s.host.Visits scope (c.maxAncestorWalk + 1) right left := by
    rintro ⟨steps, hsteps, hvisited, -⟩
    have hpassed : ∀ steps < c.maxAncestorWalk + 1,
        s.host.ancestor? scope steps right ≠ some left := by decide
    exact hpassed steps hsteps hvisited
  refine ⟨rfl, ?_, rfl, ?_⟩
  · exact (hwrite (.start scope left .null) rfl).2 scope right (.inr haway)
  · exact hspares _ _ (.event (.start scope right .null) .refl (by decide) nofun) rfl

end StatVars.Session
