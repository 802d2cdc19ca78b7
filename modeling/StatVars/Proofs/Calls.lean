import StatVars.Proofs.Walks

/-!
# What the calls of a session come to

Apart from its answer, a call that writes at a node is one commit there or nothing at all. A commit
changes one snapshot and the view of one scope, and what it does depends neither on the snapshot
that was there nor on that view, as long as it succeeds.
-/

namespace StatVars

namespace Fallible

variable {ε σ α β : Type}

theorem bind_pure_apply (x : Fallible ε σ α) (f : α → β) (s : σ) :
    (x >>= fun a => pure (f a)) s = ((x s).1.map f, (x s).2) := by
  rw [bind_apply]
  rcases x s with ⟨_ | _, t⟩ <;> rfl

end Fallible

namespace Session

open Fallible

variable {c : Config} {scope : Scope} {node : Node} {s t u : Session Memory}

/-! ## Sessions that differ at one node -/

/-- Two sessions differ in the snapshot at one node and in the view of its scope at most. -/
structure SameBut (scope : Scope) (node : Node) (s t : Session Memory) : Prop where
  host : Memory.AgreesOutside (Memory.At scope node) s.host t.host
  views : ∀ other, other ≠ scope → Table.get? t.views other = Table.get? s.views other

/-- Two sessions have hosts that agree, and the same views. -/
structure Same (s t : Session Memory) : Prop where
  host : Memory.Agrees s.host t.host
  views : ∀ scope, Table.get? t.views scope = Table.get? s.views scope

namespace SameBut

theorem refl (scope : Scope) (node : Node) (s : Session Memory) : SameBut scope node s s :=
  ⟨.refl _ _, fun _ _ => rfl⟩

theorem trans (h : SameBut scope node s t) (h' : SameBut scope node t u) :
    SameBut scope node s u :=
  ⟨h.host.trans h'.host, fun other hne => (h'.views other hne).trans (h.views other hne)⟩

/-- Sessions that differ at one node, and have looked at the active node after the same was written
there, are the same. -/
theorem same_looked (h : SameBut scope node s t) (bundle : Option Bundle) (shown : Bundle) :
    Same (looked { s with host := s.host.rebound scope node bundle } scope shown)
      (looked { t with host := t.host.rebound scope node bundle } scope shown) := by
  have hhost := h.host.rebound bundle
  refine ⟨hhost, fun other => ?_⟩
  simp only [looked, Table.get?_insert, hhost.active]
  split
  · rfl
  · next hne => exact h.views other (Ne.symm hne)

end SameBut

/-! ## A commit -/

theorem sameBut_commit (c : Config) (scope : Scope) (node : Node) (bundle : Option Bundle)
    (s : Session Memory) : SameBut scope node s (commit c scope node bundle s).2 := by
  have hwritten := Memory.agreesOutside_rebound s.host scope node bundle
  rw [commit_apply]
  extract_lets written
  split
  · next shown _ =>
    refine ⟨hwritten, fun other hne => ?_⟩
    exact (Table.get?_insert ..).trans (if_neg (Ne.symm hne))
  · refine ⟨hwritten.trans (Memory.agreesOutside_rebound ..), fun other hne => ?_⟩
    exact (Table.get?_erase ..).trans (if_neg (Ne.symm hne))

theorem host_of_commit_ok {bundle : Option Bundle}
    (h : (commit c scope node bundle s).1 = .ok ()) :
    (commit c scope node bundle s).2.host = s.host.rebound scope node bundle := by
  rw [commit_apply] at h ⊢
  dsimp only at h ⊢
  split at h
  · rfl
  · cases h

/-- A commit that fails leaves every snapshot as it was, and no view of its scope. -/
theorem commit_error {bundle : Option Bundle} {e : HostError}
    (h : (commit c scope node bundle s).1 = .error e) :
    Memory.Agrees s.host (commit c scope node bundle s).2.host ∧
      (commit c scope node bundle s).2.views = Table.erase s.views scope := by
  rw [commit_apply] at h ⊢
  dsimp only at h ⊢
  split at h
  · cases h
  · exact ⟨Memory.agrees_restored .., rfl⟩

/-- What a commit shows to the user does not depend on the snapshot that it replaces. -/
theorem commit_congr (h : SameBut scope node s t) (c : Config) (bundle : Option Bundle) :
    (commit c scope node bundle t).1 = (commit c scope node bundle s).1 ∧
      ((commit c scope node bundle s).1 = .ok () →
        Same (commit c scope node bundle s).2 (commit c scope node bundle t).2) := by
  have hhost := h.host.rebound bundle
  have hlooked := h.same_looked bundle
  -- Both look at the same snapshots once the same is written, so they fail together.
  simp only [commit_apply, hhost.active, hhost.seenAt]
  cases (s.host.rebound scope node bundle).seenAt c scope
    ((s.host.rebound scope node bundle).activeNode? scope) with
  | ok shown => exact ⟨rfl, fun _ => hlooked shown⟩
  | error e => exact ⟨rfl, fun h => nomatch h⟩

/-! ## The calls that write -/

/-- What a call that writes at a node comes to: it leaves the session as it is, or does one commit
and fails only if the commit does. -/
inductive CommitsAt (c : Config) (scope : Scope) (node : Node) (s : Session Memory) {α : Type} :
    Except HostError α × Session Memory → Prop
  | unchanged (result : Except HostError α) : CommitsAt c scope node s (result, s)
  | commit (bundle : Option Bundle) (answer : Unit → α) :
    CommitsAt c scope node s
      ((commit c scope node bundle s).1.map answer, (commit c scope node bundle s).2)

namespace CommitsAt

variable {α : Type} {outcome : Except HostError α × Session Memory}

theorem sameBut (h : CommitsAt c scope node s outcome) : SameBut scope node s outcome.2 := by
  cases h with
  | unchanged result => exact .refl scope node s
  | commit bundle answer => exact sameBut_commit c scope node bundle s

theorem of_error {e : HostError} (h : CommitsAt c scope node s outcome)
    (he : outcome.1 = .error e) :
    Memory.Agrees s.host outcome.2.host ∧
      (outcome.2.views = s.views ∨ outcome.2.views = Table.erase s.views scope) := by
  cases h with
  | unchanged result => exact ⟨.refl _ _, .inl rfl⟩
  | commit bundle answer =>
    cases hcommit : (Session.commit c scope node bundle s).1 with
    | ok done =>
      simp only [hcommit] at he
      cases he
    | error e' =>
      obtain ⟨hhost, hviews⟩ := commit_error hcommit
      exact ⟨hhost, .inr hviews⟩

end CommitsAt

theorem start_commitsAt (c : Config) (scope : Scope) (node : Node) (document : Json)
    (s : Session Memory) : CommitsAt c scope node s (start c scope node document s) := by
  rw [start, bind_pure_apply]
  exact .commit ..

/-- The variables that a text generated at a node is run against. -/
def baseAt (c : Config) (m : Memory) (scope : Scope) (node : Node) : Except HostError Bundle :=
  match m.parent? scope node with
  | .ok parent => m.seenAt c scope parent
  | .error e => .error e

/-- What a text makes of the variables it is run against: the snapshot of its node, if it has one,
and the response. -/
def generated (c : Config) (base : Bundle) (text : String) : Option Bundle × Response :=
  let batch := Batch.ofText c text
  if batch.commands.isEmpty then (none, ⟨base, [], batch.diagnostics, false⟩)
  else
    let (bundle, results) := base.apply c batch.commands
    (some bundle, ⟨bundle, results, batch.diagnostics, true⟩)

/-- The response says what is bound to the node, or has the variables that the text was run against
if nothing is. -/
theorem generated_bundle (c : Config) (base : Bundle) (text : String) :
    (generated c base text).1.getD base = (generated c base text).2.bundle := by
  rw [generated]
  split <;> rfl

theorem respond_apply (c : Config) (scope : Scope) (node : Node) (text : String)
    (s : Session Memory) :
    respond c scope node text s =
      match baseAt c s.host scope node with
      | .error e => (.error e, s)
      | .ok base =>
        let commit := commit c scope node (generated c base text).1 s
        (commit.1.map fun _ => (generated c base text).2, commit.2) := by
  have hparent : ask (Host.parent? scope node) s = (s.host.parent? scope node, s) := rfl
  simp only [respond, bind_apply, hparent, baseAt]
  rcases s.host.parent? scope node with e | parent
  · rfl
  · simp only [bundleAt?_apply]
    cases s.host.seenAt c scope parent with
    | error e => rfl
    | ok base =>
      simp only [generated]
      split <;> exact bind_pure_apply ..

/-- A text without commands does nothing but leave its node without a snapshot. -/
theorem respond_of_no_commands {base : Bundle} {text : String}
    (hbase : baseAt c s.host scope node = .ok base)
    (hcommands : (Batch.ofText c text).commands = []) :
    respond c scope node text s =
      let commit := commit c scope node none s
      (commit.1.map fun _ => ⟨base, [], (Batch.ofText c text).diagnostics, false⟩, commit.2) := by
  have hgenerated : generated c base text =
      (none, ⟨base, [], (Batch.ofText c text).diagnostics, false⟩) := by
    simp only [generated, hcommands, List.isEmpty_nil, if_true]
  simp only [respond_apply, hbase, hgenerated]

/-- A response comes from the variables of the parent, and from a commit that stands. -/
theorem respond_ok {text : String} {response : Response}
    (h : (respond c scope node text s).1 = .ok response) :
    ∃ base, baseAt c s.host scope node = .ok base ∧ response = (generated c base text).2 ∧
      (commit c scope node (generated c base text).1 s).1 = .ok () ∧
      (respond c scope node text s).2 = (commit c scope node (generated c base text).1 s).2 := by
  rw [respond_apply] at h ⊢
  cases hbase : baseAt c s.host scope node with
  | error e =>
    rw [hbase] at h
    cases h
  | ok base =>
    simp only [hbase] at h
    obtain ⟨_, hcommit, rfl⟩ := exists_of_map_ok h
    exact ⟨base, rfl, rfl, hcommit, rfl⟩

theorem respond_commitsAt (c : Config) (scope : Scope) (node : Node) (text : String)
    (s : Session Memory) : CommitsAt c scope node s (respond c scope node text s) := by
  rw [respond_apply]
  split
  · exact .unchanged _
  · exact .commit ..

theorem set_of_no_activeNode (h : s.host.activeNode? scope = none) (c : Config) (path : String)
    (value : Literal) : set c scope path value s = (.error (.noActiveNode scope), s) := by
  simp only [set, bind_apply, ask_activeNode?_apply, h]
  rfl

theorem set_apply (h : s.host.activeNode? scope = some node) (c : Config) (path : String)
    (value : Literal) :
    set c scope path value s =
      match s.host.seenAt c scope (some node) with
      | .error e => (.error e, s)
      | .ok base =>
        let (bundle, result) := base.applyOne c ⟨.set, path, [.literal value], none⟩
        if result.applied then
          let commit := commit c scope node (some bundle) s
          (commit.1.map fun _ => result, commit.2)
        else (.ok result, s) := by
  simp only [set, bind_apply, ask_activeNode?_apply, h, bundleAt_apply]
  cases s.host.seenAt c scope (some node) with
  | error e => rfl
  | ok base =>
    dsimp only
    split
    · exact bind_pure_apply ..
    · rfl

theorem set_commitsAt (h : s.host.activeNode? scope = some node) (c : Config) (path : String)
    (value : Literal) : CommitsAt c scope node s (set c scope path value s) := by
  rw [set_apply h]
  split
  · exact .unchanged _
  · dsimp only
    split
    · exact .commit ..
    · exact .unchanged _

/-- A write that is not applied changes nothing. -/
theorem set_of_not_applied {path : String} {value : Literal} {result : Command.Result}
    (h : (set c scope path value s).1 = .ok result) (hrefused : ¬result.applied) :
    (set c scope path value s).2 = s := by
  cases hactive : s.host.activeNode? scope with
  | none => rw [set_of_no_activeNode hactive]
  | some node =>
    rw [set_apply hactive] at h ⊢
    split
    · rfl
    · next base hbase =>
      simp only [hbase] at h
      split at h
      · next happlied =>
        obtain ⟨_, -, rfl⟩ := exists_of_map_ok h
        exact absurd happlied hrefused
      · next hnot => exact congrArg Prod.snd (if_neg hnot)

end Session

end StatVars
