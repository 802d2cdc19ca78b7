import StatVars.Conversation.Memory
import StatVars.Conversation.Session

/-!
# Views agree with snapshots

A session answers from its views, while snapshots come and go at other nodes and the host moves on.
A view is still right as long as the walk from its node to the nearest snapshot finds what it has
found. A new node does not change a walk that has come to its end, and every call of the session
that writes a snapshot looks at the active node again or forgets the view of the scope. Main
statement: `Session.views_coherent`, for every run of calls and moves of a host in memory.
-/

namespace StatVars

namespace Fallible

variable {ε σ α β : Type} {P : σ → Prop}

/-- The computation leads from states with the property to such states, also when it fails. -/
def Keeps (P : σ → Prop) (x : Fallible ε σ α) : Prop :=
  ∀ s, P s → P (x s).2

theorem keeps_pure (a : α) : Keeps P (pure a : Fallible ε σ α) := fun _ h => h

theorem keeps_throw (e : ε) : Keeps P (throw e : Fallible ε σ α) := fun _ h => h

theorem keeps_get : Keeps P (get : Fallible ε σ σ) := fun _ h => h

theorem keeps_of_unchanged {x : Fallible ε σ α} (hx : ∀ s, (x s).2 = s) : Keeps P x := by
  intro s h
  rwa [hx s]

theorem Keeps.bind {x : Fallible ε σ α} {f : α → Fallible ε σ β} (hx : Keeps P x)
    (hf : ∀ a, Keeps P (f a)) : Keeps P (x >>= f) := by
  intro s h
  have hfirst := hx s h
  rw [bind_apply]
  rcases hstep : x s with ⟨_ | a, t⟩ <;> rw [hstep] at hfirst
  · exact hfirst
  · exact hf a t hfirst

end Fallible

open Fallible

/-! ## Walks in memory -/

namespace Memory

variable {m m' : Memory} {scope : Scope} {start node : Node} {limit visits : Nat}
  {found : Option Bundle}

/-- A walk looks for a snapshot at a node, and goes on at its parent if there is none. -/
theorem climb_succ (m : Memory) (scope : Scope) (start node : Node) (limit visits : Nat) :
    Host.climb scope start limit (visits + 1) node m =
      match m.boundAt? scope node with
      | some bundle => (.ok (some bundle), m)
      | none =>
        match m.parent? scope node with
        | .ok (some parent) => Host.climb scope start limit visits parent m
        | .ok none => (.ok none, m)
        | .error e => (.error e, m) := by
  have hbound : Host.boundAt? scope node m = (.ok (m.boundAt? scope node), m) := rfl
  have hparent : Host.parent? scope node m = (m.parent? scope node, m) := rfl
  simp only [Host.climb, bind_apply, hbound]
  cases m.boundAt? scope node with
  | some bundle => rfl
  | none =>
    simp only [bind_apply, hparent]
    rcases m.parent? scope node with _ | _ | _ <;> rfl

theorem climb_unchanged (m : Memory) (scope : Scope) (start node : Node) (limit visits : Nat) :
    (Host.climb scope start limit visits node m).2 = m := by
  induction visits generalizing node with
  | zero => rfl
  | succ visits ih =>
    rw [climb_succ]
    split
    · rfl
    · split
      · exact ih _
      · rfl
      · rfl

/-- A host has the snapshots of another one in a scope, and knows the parents that the other
knows. -/
structure Continues (scope : Scope) (m m' : Memory) : Prop where
  bound : ∀ node, m'.boundAt? scope node = m.boundAt? scope node
  parent : ∀ node parent, m.parent? scope node = .ok parent → m'.parent? scope node = .ok parent

theorem Continues.refl (scope : Scope) (m : Memory) : Continues scope m m :=
  ⟨fun _ => rfl, fun _ _ h => h⟩

theorem Continues.trans {m'' : Memory} (h : Continues scope m m') (h' : Continues scope m' m'') :
    Continues scope m m'' :=
  ⟨fun node => (h'.bound node).trans (h.bound node),
    fun node parent hp => h'.parent node parent (h.parent node parent hp)⟩

/-- A walk that has come to its end comes to the same end later. -/
theorem Continues.climb (h : Continues scope m m')
    (hm : Host.climb scope start limit visits node m = (.ok found, m)) :
    Host.climb scope start limit visits node m' = (.ok found, m') := by
  induction visits generalizing node with
  | zero => cases hm
  | succ visits ih =>
    rw [climb_succ] at hm ⊢
    rw [h.bound]
    cases hbound : m.boundAt? scope node with
    | some bundle =>
      rw [hbound] at hm
      cases hm
      rfl
    | none =>
      simp only [hbound] at hm
      cases hparent : m.parent? scope node with
      | error e =>
        rw [hparent] at hm
        cases hm
      | ok parent =>
        simp only [hparent] at hm
        simp only [h.parent node parent hparent]
        cases parent with
        | none =>
          cases hm
          rfl
        | some parent => exact ih hm

theorem boundAt?_bindAt (m : Memory) (bundle : Bundle) (scope' : Scope) (node' : Node) :
    (m.bindAt scope node bundle).boundAt? scope' node' =
      if (scope, node) = (scope', node') then some bundle else m.boundAt? scope' node' :=
  Table.get?_insert ..

theorem boundAt?_unbindAt (m : Memory) (scope' : Scope) (node' : Node) :
    (m.unbindAt scope node).boundAt? scope' node' =
      if (scope, node) = (scope', node') then none else m.boundAt? scope' node' :=
  Table.get?_erase ..

/-- The host after a snapshot at a node has been put or removed. -/
def rebound (m : Memory) (scope : Scope) (node : Node) : Option Bundle → Memory
  | some bundle => m.bindAt scope node bundle
  | none => m.unbindAt scope node

theorem rebind_apply (m : Memory) (scope : Scope) (node : Node) (bundle : Option Bundle) :
    Host.rebind scope node bundle m = (.ok (), m.rebound scope node bundle) := by
  cases bundle <;> rfl

theorem activeNode?_rebound (m : Memory) (scope : Scope) (node : Node) (bundle : Option Bundle)
    (scope' : Scope) :
    (m.rebound scope node bundle).activeNode? scope' = m.activeNode? scope' := by
  cases bundle <;> rfl

theorem boundAt?_rebound (m : Memory) (scope : Scope) (node : Node) (bundle : Option Bundle)
    (scope' : Scope) (node' : Node) :
    (m.rebound scope node bundle).boundAt? scope' node' =
      if (scope, node) = (scope', node') then bundle else m.boundAt? scope' node' := by
  cases bundle with
  | some bundle => exact boundAt?_bindAt m bundle scope' node'
  | none => exact boundAt?_unbindAt m scope' node'

/-- A snapshot of one scope is nothing to another one. -/
theorem continues_rebound {scope' : Scope} (h : scope' ≠ scope) (m : Memory) (node : Node)
    (bundle : Option Bundle) : Continues scope' m (m.rebound scope node bundle) := by
  refine ⟨fun node' => ?_, fun node' parent hparent => ?_⟩
  · rw [boundAt?_rebound, if_neg fun he => h (congrArg Prod.fst he).symm]
  · cases bundle <;> exact hparent

theorem continues_unbindAll {scope' : Scope} (h : scope' ≠ scope) (m : Memory) :
    Continues scope' m (m.unbindAll scope) := by
  refine ⟨fun node' => ?_, fun node' parent hparent => hparent⟩
  simp only [boundAt?, unbindAll, Table.get?_keep, ne_eq, h, not_false_eq_true, decide_true,
    if_true]

/-- A node that is new changes no parent that is known. -/
theorem continues_push (hnew : m.parent? scope node = .error (.unknownNode node))
    (parent : Option Node) (scope' : Scope) : Continues scope' m (m.push scope node parent) := by
  refine ⟨fun _ => rfl, fun node' p hp => ?_⟩
  have hother : (scope, node) ≠ (scope', node') := by
    rintro ⟨⟩
    rw [hnew] at hp
    cases hp
  rwa [parent?, push, Table.get?_insert, if_neg hother]

/-- What there is now as of a node. Without a node there is nothing, and neither is there where
the walk finds no snapshot. -/
def seenAt (c : Config) (m : Memory) (scope : Scope) : Option Node → Except HostError Bundle
  | some node => (Host.nearest? scope node c.maxAncestorWalk m).1.map (·.getD {})
  | none => .ok {}

theorem Continues.seenAt {c : Config} {node : Option Node} {bundle : Bundle}
    (h : Continues scope m m') (hm : m.seenAt c scope node = .ok bundle) :
    m'.seenAt c scope node = .ok bundle := by
  cases node with
  | none => exact hm
  | some node =>
    have hunchanged := climb_unchanged m scope node node c.maxAncestorWalk (c.maxAncestorWalk + 1)
    simp only [Memory.seenAt, Host.nearest?] at hm ⊢
    rcases hclimb : Host.climb scope node c.maxAncestorWalk (c.maxAncestorWalk + 1) node m
      with ⟨e | found, t⟩ <;> rw [hclimb] at hm hunchanged
    · cases hm
    · obtain rfl : t = m := hunchanged
      rwa [h.climb hclimb]

end Memory

/-! ## Calls of a session -/

namespace Session

variable {c : Config} {scope : Scope} {node : Node} {s : Session Memory}

theorem bundleAt?_apply (c : Config) (scope : Scope) (node : Option Node) (s : Session Memory) :
    bundleAt? c scope node s = (s.host.seenAt c scope node, s) := by
  cases node with
  | none => rfl
  | some node =>
    have hunchanged :=
      Memory.climb_unchanged s.host scope node node c.maxAncestorWalk (c.maxAncestorWalk + 1)
    simp only [bundleAt?, bundleAt, bind_apply, ask, Memory.seenAt, Host.nearest?]
    rcases hclimb : Host.climb scope node c.maxAncestorWalk (c.maxAncestorWalk + 1) node s.host
      with ⟨_ | _, t⟩ <;> rw [hclimb] at hunchanged <;> obtain rfl : t = s.host := hunchanged <;>
      rfl

theorem bundleAt_apply (c : Config) (scope : Scope) (node : Node) (s : Session Memory) :
    bundleAt c scope node s = (s.host.seenAt c scope (some node), s) :=
  bundleAt?_apply c scope (some node) s

theorem ask_activeNode?_apply (scope : Scope) (s : Session Memory) :
    ask (Host.activeNode? scope) s = (.ok (s.host.activeNode? scope), s) := rfl

/-- The session after it has looked at the active node of a scope and found a bundle. -/
def looked (s : Session Memory) (scope : Scope) (bundle : Bundle) : Session Memory :=
  { s with views := Table.insert s.views scope ⟨s.host.activeNode? scope, bundle⟩ }

theorem activate_apply (c : Config) (scope : Scope) (s : Session Memory) :
    activate c scope s =
      match s.host.seenAt c scope (s.host.activeNode? scope) with
      | .ok bundle => (.ok bundle, s.looked scope bundle)
      | .error e => (.error e, s) := by
  simp only [activate, bind_apply, ask_activeNode?_apply, bundleAt?_apply]
  cases s.host.seenAt c scope (s.host.activeNode? scope) <;> rfl

theorem ask_rebind_apply (scope : Scope) (node : Node) (bundle : Option Bundle)
    (s : Session Memory) :
    ask (Host.rebind scope node bundle) s =
      (.ok (), { s with host := s.host.rebound scope node bundle }) := by
  rw [ask, Memory.rebind_apply]

theorem revert_apply (scope : Scope) (node : Node) (previous : Option Bundle)
    (s : Session Memory) :
    revert scope node previous s =
      (.ok (), ⟨s.host.rebound scope node previous, Table.erase s.views scope⟩) := by
  simp only [revert, bind_apply, tryCatch_apply, ask_rebind_apply]
  rfl

/-- A commit either stands and has a new view, or has left the snapshot as it was before and no
view. -/
theorem commit_apply (c : Config) (scope : Scope) (node : Node) (bundle : Option Bundle)
    (s : Session Memory) :
    commit c scope node bundle s =
      let t : Session Memory := { s with host := s.host.rebound scope node bundle }
      match t.host.seenAt c scope (t.host.activeNode? scope) with
      | .ok shown => (.ok (), t.looked scope shown)
      | .error e => (.error e, ⟨t.host.rebound scope node (s.host.boundAt? scope node),
          Table.erase s.views scope⟩) := by
  have hbound : ask (Host.boundAt? scope node) s = (.ok (s.host.boundAt? scope node), s) := rfl
  have hdiscard : (discard (activate c scope) : Action Memory Unit) =
      (fun _ => ()) <$> activate c scope := rfl
  simp only [commit, bind_apply, hbound, ask_rebind_apply, tryCatch_apply, hdiscard, map_apply,
    activate_apply]
  generalize Memory.seenAt c _ scope _ = shown
  cases shown with
  | ok shown => rfl
  | error e => simp only [revert_apply, throw_apply]

/-! ### What every call keeps -/

section Keeps

variable {P : Session Memory → Prop}

theorem keeps_ask {α : Type} {call : Call Memory α} (h : ∀ m, (call m).2 = m) :
    Keeps P (ask call) :=
  keeps_of_unchanged fun s => congrArg (fun m => (⟨m, s.views⟩ : Session Memory)) (h s.host)

theorem keeps_bundleAt (c : Config) (scope : Scope) (node : Node) :
    Keeps P (bundleAt c scope node) :=
  keeps_of_unchanged fun s => by rw [bundleAt_apply]

theorem keeps_bundleAt? (c : Config) (scope : Scope) (node : Option Node) :
    Keeps P (bundleAt? c scope node) :=
  keeps_of_unchanged fun s => by rw [bundleAt?_apply]

/-- Apart from looking at the active node, and from what `deleteScope` does, a session changes
nothing but by a commit. -/
theorem keeps_start (hcommit : ∀ scope node bundle, Keeps P (commit c scope node bundle))
    (scope : Scope) (node : Node) (document : Json) : Keeps P (start c scope node document) :=
  (hcommit _ _ _).bind fun _ => keeps_pure _

theorem keeps_respond (hcommit : ∀ scope node bundle, Keeps P (commit c scope node bundle))
    (scope : Scope) (node : Node) (text : String) : Keeps P (respond c scope node text) := by
  refine (keeps_ask fun _ => rfl).bind fun parent => ?_
  refine (keeps_bundleAt? c scope parent).bind fun base => ?_
  dsimp only
  split
  · exact (hcommit _ _ _).bind fun _ => keeps_pure _
  · exact (hcommit _ _ _).bind fun _ => keeps_pure _

theorem keeps_set (hcommit : ∀ scope node bundle, Keeps P (commit c scope node bundle))
    (scope : Scope) (path : String) (value : Literal) : Keeps P (set c scope path value) := by
  refine (keeps_ask fun _ => rfl).bind fun active => ?_
  split
  · exact keeps_throw _
  · refine (keeps_bundleAt c scope _).bind fun base => ?_
    dsimp only
    split
    · exact (hcommit _ _ _).bind fun _ => keeps_pure _
    · exact keeps_pure _

theorem keeps_current (hactivate : ∀ scope, Keeps P (activate c scope)) (scope : Scope) :
    Keeps P (current c scope) := by
  refine keeps_get.bind fun s => ?_
  split
  · exact keeps_pure _
  · exact hactivate scope

end Keeps

/-! ### Views that are right -/

/-- Every view is what is seen now from its node. -/
def Coherent (c : Config) (s : Session Memory) : Prop :=
  ∀ scope view, Table.get? s.views scope = some view →
    s.host.seenAt c scope view.node = .ok view.bundle

/-- A view of the scope is a view from the node that is active now. -/
def UpToDate (scope : Scope) (s : Session Memory) : Prop :=
  ∀ view, Table.get? s.views scope = some view → view.node = s.host.activeNode? scope

theorem Coherent.host (h : Coherent c s) {m : Memory}
    (hm : ∀ scope, Memory.Continues scope s.host m) : Coherent c { s with host := m } :=
  fun scope view hview => (hm scope).seenAt (h scope view hview)

/-- A new view is right if the bundle was seen from the active node, and the other views are if
the snapshots of their scopes have not changed. -/
theorem Coherent.looked (h : Coherent c s) {t : Session Memory} (hviews : t.views = s.views)
    (hother : ∀ other, other ≠ scope → Memory.Continues other s.host t.host) {shown : Bundle}
    (hshown : t.host.seenAt c scope (t.host.activeNode? scope) = .ok shown) :
    Coherent c (t.looked scope shown) := by
  intro other view hview
  rw [Session.looked, Table.get?_insert, hviews] at hview
  split at hview
  · next hsame =>
    cases hview
    cases hsame
    exact hshown
  · next hne => exact (hother other (Ne.symm hne)).seenAt (h other view hview)

theorem Coherent.forgotten (h : Coherent c s) {m : Memory}
    (hother : ∀ other, other ≠ scope → Memory.Continues other s.host m) :
    Coherent c ⟨m, Table.erase s.views scope⟩ := by
  intro other view hview
  rw [Table.get?_erase] at hview
  split at hview
  · cases hview
  · next hne => exact (hother other (Ne.symm hne)).seenAt (h other view hview)

theorem keeps_coherent_activate (c : Config) (scope : Scope) :
    Keeps (Coherent c) (activate c scope) := by
  intro s h
  rw [activate_apply]
  cases hshown : s.host.seenAt c scope (s.host.activeNode? scope) with
  | ok shown => exact h.looked rfl (fun _ _ => .refl _ _) hshown
  | error e => exact h

theorem keeps_coherent_commit (c : Config) (scope : Scope) (node : Node)
    (bundle : Option Bundle) : Keeps (Coherent c) (commit c scope node bundle) := by
  intro s h
  have hother (m : Memory) (b : Option Bundle) (other : Scope) (hne : other ≠ scope) :
      Memory.Continues other m (m.rebound scope node b) := Memory.continues_rebound hne m node b
  rw [commit_apply]
  extract_lets t
  split
  · next shown hshown => exact h.looked (t := t) rfl (hother _ _) hshown
  · exact h.forgotten fun other hne => (hother _ _ other hne).trans (hother _ _ other hne)

theorem keeps_coherent_deleteScope (c : Config) (scope : Scope) :
    Keeps (Coherent c) (deleteScope scope) :=
  fun s h => h.forgotten fun _ hne => Memory.continues_unbindAll hne s.host

/-! ### Views that are up to date -/

section UpToDate

variable {looked : Scope} {t : Session Memory}

/-- A look at the active node brings the view of its scope up to date. -/
theorem upToDate_looked (h : scope ≠ looked → UpToDate scope s) (hviews : t.views = s.views)
    (hactive : t.host.activeNode? scope = s.host.activeNode? scope) (shown : Bundle) :
    UpToDate scope (t.looked looked shown) := by
  intro view hview
  rw [Session.looked, Table.get?_insert, hviews] at hview
  split at hview
  · next hsame =>
    cases hview
    rw [hsame]
    rfl
  · next hne => exact (h (Ne.symm hne) view hview).trans hactive.symm

theorem upToDate_forgotten (h : scope ≠ looked → UpToDate scope s) {m : Memory}
    (hactive : m.activeNode? scope = s.host.activeNode? scope) :
    UpToDate scope ⟨m, Table.erase s.views looked⟩ := by
  intro view hview
  rw [Table.get?_erase] at hview
  split at hview
  · cases hview
  · next hne => exact (h (Ne.symm hne) view hview).trans hactive.symm

/-- Whether or not a commit succeeds, a view that its scope has afterwards is up to date. -/
theorem upToDate_commit (h : scope ≠ looked → UpToDate scope s) (c : Config) (node : Node)
    (bundle : Option Bundle) : UpToDate scope (commit c looked node bundle s).2 := by
  have hactive (m : Memory) (b : Option Bundle) :
      (m.rebound looked node b).activeNode? scope = m.activeNode? scope :=
    m.activeNode?_rebound looked node b scope
  rw [commit_apply]
  extract_lets t
  split
  · next shown _ => exact upToDate_looked (t := t) h rfl (hactive _ _) shown
  · exact upToDate_forgotten h ((hactive _ _).trans (hactive _ _))

theorem upToDate_activate {bundle : Bundle} (h : scope ≠ looked → UpToDate scope s)
    (hlook : activate c looked s = (.ok bundle, t)) : UpToDate scope t := by
  rw [activate_apply] at hlook
  split at hlook
  · cases hlook
    exact upToDate_looked h rfl rfl bundle
  · cases hlook

theorem keeps_upToDate_activate (c : Config) (looked : Scope) :
    Keeps (UpToDate scope) (activate c looked) := by
  intro s h
  rcases hlook : activate c looked s with ⟨e | bundle, t⟩
  · rw [activate_apply] at hlook
    split at hlook <;> cases hlook
    exact h
  · exact upToDate_activate (fun _ => h) hlook

theorem keeps_upToDate_commit (c : Config) (looked : Scope) (node : Node)
    (bundle : Option Bundle) : Keeps (UpToDate scope) (commit c looked node bundle) :=
  fun _ h => upToDate_commit (fun _ => h) c node bundle

theorem keeps_upToDate_deleteScope (looked : Scope) :
    Keeps (UpToDate scope) (deleteScope looked) :=
  fun _ h => upToDate_forgotten (fun _ => h) rfl

end UpToDate

/-! ## Runs -/

/-- A call of a session, or a move of its host. -/
inductive Event
  | push (scope : Scope) (node : Node) (parent : Option Node)
  | setActive (scope : Scope) (node : Node)
  | start (scope : Scope) (node : Node) (document : Json)
  | respond (scope : Scope) (node : Node) (text : String)
  | set (scope : Scope) (path : String) (value : Literal)
  | deleteScope (scope : Scope)
  | activate (scope : Scope)
  | current (scope : Scope)

namespace Event

/-- The session after an event, whether or not it succeeds. -/
def after (c : Config) (s : Session Memory) : Event → Session Memory
  | push scope node parent => { s with host := s.host.push scope node parent }
  | setActive scope node =>
    match s.host.setActive scope node with
    | .ok host => { s with host }
    | .error _ => s
  | start scope node document => (Session.start c scope node document s).2
  | respond scope node text => (Session.respond c scope node text s).2
  | set scope path value => (Session.set c scope path value s).2
  | deleteScope scope => (Session.deleteScope scope s).2
  | activate scope => (Session.activate c scope s).2
  | current scope => (Session.current c scope s).2

/-- A host only pushes nodes that are new. -/
def Allowed (s : Session Memory) : Event → Prop
  | push scope node _ => s.host.parent? scope node = .error (.unknownNode node)
  | _ => True

/-- The event is an `activate` or a commit of the scope, and succeeds. -/
def Settles (c : Config) (scope : Scope) (s : Session Memory) : Event → Prop
  | activate looked => looked = scope ∧ ∃ bundle, (Session.activate c scope s).1 = .ok bundle
  | start looked node document =>
    looked = scope ∧ ∃ bundle, (Session.start c scope node document s).1 = .ok bundle
  | respond looked node text =>
    looked = scope ∧ ∃ response, (Session.respond c scope node text s).1 = .ok response
  | set looked path value =>
    looked = scope ∧
      ∃ result, (Session.set c scope path value s).1 = .ok result ∧ result.applied
  | push .. | setActive .. | deleteScope .. | current .. => False

/-- An event keeps what commits, looks at active nodes and deletions keep, if moves of the host
keep it. -/
theorem keeps {P : Session Memory → Prop}
    (hcommit : ∀ scope node bundle, Keeps P (commit c scope node bundle))
    (hactivate : ∀ scope, Keeps P (Session.activate c scope))
    (hdelete : ∀ scope, Keeps P (Session.deleteScope scope)) {e : Event} (h : P s)
    (hpush : ∀ scope node parent, e = push scope node parent → P (e.after c s))
    (hmove : ∀ scope node, e = setActive scope node → P (e.after c s)) : P (e.after c s) := by
  cases e with
  | push scope node parent => exact hpush scope node parent rfl
  | setActive scope node => exact hmove scope node rfl
  | start scope node document => exact keeps_start hcommit scope node document s h
  | respond scope node text => exact keeps_respond hcommit scope node text s h
  | set scope path value => exact keeps_set hcommit scope path value s h
  | deleteScope scope => exact hdelete scope s h
  | activate scope => exact hactivate scope s h
  | current scope => exact keeps_current hactivate scope s h

end Event

/-- The states that a session comes to from a fresh one, with a host that is new too. -/
inductive Reaches (c : Config) : Session Memory → Prop
  | fresh : Reaches c ⟨{}, []⟩
  | event {s : Session Memory} (e : Event) (h : Reaches c s) (hallowed : e.Allowed s) :
    Reaches c (e.after c s)

/-- The states in which the active node of the scope is the one that it was when it was last looked
at. -/
inductive Steady (c : Config) (scope : Scope) : Session Memory → Prop
  | settled {s : Session Memory} (e : Event) (h : Reaches c s) (hsettles : e.Settles c scope s) :
    Steady c scope (e.after c s)
  | event {s : Session Memory} (e : Event) (h : Steady c scope s) (hallowed : e.Allowed s)
    (hactive : (e.after c s).host.activeNode? scope = s.host.activeNode? scope) :
    Steady c scope (e.after c s)

theorem Reaches.coherent (h : Reaches c s) : Coherent c s := by
  induction h with
  | fresh => intro scope view hview; cases hview
  | @event s e _ hallowed ih =>
    refine Event.keeps (keeps_coherent_commit c) (keeps_coherent_activate c)
      (keeps_coherent_deleteScope c) ih ?_ ?_
    · rintro scope node parent rfl
      exact ih.host fun other => Memory.continues_push hallowed parent other
    · rintro scope node rfl
      rw [Event.after, Memory.setActive]
      split
      · next host hmove =>
        split at hmove <;> cases hmove
        exact ih.host fun other => ⟨fun _ => rfl, fun _ _ hp => hp⟩
      · exact ih

theorem upToDate_of_commit_ok {node : Node} {bundle : Option Bundle} {t : Session Memory}
    (h : commit c scope node bundle s = (.ok (), t)) : UpToDate scope t := by
  have hcommit : UpToDate scope (commit c scope node bundle s).2 :=
    upToDate_commit (fun hne => absurd rfl hne) c node bundle
  rwa [h] at hcommit

theorem upToDate_start {node : Node} {document : Json} {bundle : Bundle} {t : Session Memory}
    (h : start c scope node document s = (.ok bundle, t)) : UpToDate scope t := by
  obtain ⟨_, r, hcommit, h⟩ := bind_ok h
  cases h
  exact upToDate_of_commit_ok hcommit

theorem upToDate_respond {node : Node} {text : String} {response : Response} {t : Session Memory}
    (h : respond c scope node text s = (.ok response, t)) : UpToDate scope t := by
  obtain ⟨parent, r, -, h⟩ := bind_ok h
  obtain ⟨base, r', -, h⟩ := bind_ok h
  dsimp only at h
  split at h
  · obtain ⟨_, r'', hcommit, h⟩ := bind_ok h
    cases h
    exact upToDate_of_commit_ok hcommit
  · obtain ⟨_, r'', hcommit, h⟩ := bind_ok h
    cases h
    exact upToDate_of_commit_ok hcommit

theorem upToDate_set {path : String} {value : Literal} {result : Command.Result}
    {t : Session Memory} (h : set c scope path value s = (.ok result, t))
    (happlied : result.applied) : UpToDate scope t := by
  obtain ⟨active, r, -, h⟩ := bind_ok h
  split at h
  · cases h
  · obtain ⟨base, r', -, h⟩ := bind_ok h
    dsimp only at h
    split at h
    · obtain ⟨_, r'', hcommit, h⟩ := bind_ok h
      cases h
      exact upToDate_of_commit_ok hcommit
    · next hrefused =>
      cases h
      exact absurd happlied hrefused

theorem Event.Settles.upToDate {e : Event} (h : e.Settles c scope s) :
    UpToDate scope (e.after c s) := by
  cases e with
  | push | setActive | deleteScope | current => exact h.elim
  | activate looked =>
    obtain ⟨rfl, bundle, hok⟩ := h
    exact upToDate_activate (fun hne => absurd rfl hne) (Prod.ext hok rfl)
  | start looked node document =>
    obtain ⟨rfl, bundle, hok⟩ := h
    exact upToDate_start (Prod.ext hok rfl)
  | respond looked node text =>
    obtain ⟨rfl, response, hok⟩ := h
    exact upToDate_respond (Prod.ext hok rfl)
  | set looked path value =>
    obtain ⟨rfl, result, hok, happlied⟩ := h
    exact upToDate_set (Prod.ext hok rfl) happlied

theorem Steady.upToDate (h : Steady c scope s) : UpToDate scope s := by
  induction h with
  | settled e _ hsettles => exact hsettles.upToDate
  | @event s e _ _ hactive ih =>
    refine Event.keeps (keeps_upToDate_commit c) (keeps_upToDate_activate c)
      keeps_upToDate_deleteScope ih ?_ ?_
    · rintro pushed node parent rfl view hview
      rw [hactive]
      exact ih view hview
    · rintro moved node rfl view hview
      rw [hactive]
      apply ih view
      rw [Event.after] at hview
      split at hview <;> exact hview

/-- **Views agree with snapshots.** After any calls of a session and moves of its host, a view is
what is seen now from its node. Variables that are read as of the active node are hence those at
that node, if the host has not moved on since the session last looked at it, or if there is no view
to answer from. -/
theorem views_coherent (h : Reaches c s) :
    (∀ scope view, Table.get? s.views scope = some view →
      s.host.seenAt c scope view.node = .ok view.bundle) ∧
    ∀ scope node bundle t, Steady c scope s ∨ Table.get? s.views scope = none →
      s.host.activeNode? scope = some node → current c scope s = (.ok bundle, t) →
      (bundleAt c scope node s).1 = .ok bundle := by
  refine ⟨h.coherent, fun scope node bundle t hsteady hactive hcurrent => ?_⟩
  rw [bundleAt_apply]
  replace hcurrent := get_bind_ok hcurrent
  cases hview : Table.get? s.views scope with
  | some view =>
    have hnode : view.node = some node := by
      rcases hsteady with hsteady | hnone
      · rw [hsteady.upToDate view hview, hactive]
      · rw [hview] at hnone
        cases hnone
    rw [hview] at hcurrent
    cases hcurrent
    rw [← hnode]
    exact h.coherent scope view hview
  | none =>
    simp only [hview, activate_apply, hactive] at hcurrent
    split at hcurrent
    · next hseen => cases hcurrent; exact hseen
    · cases hcurrent

/-- Where a reply has been pushed, the view is still of the node before it, and right; only after
`activate` the reply is looked at. It has no snapshot, so its variables are those of its parent. -/
theorem views_coherent_reply :
    let scope : Scope := ⟨"alice"⟩
    let reply : Node := ⟨"reply"⟩
    let pushed := [.push scope ⟨"opening"⟩ none,
      .start scope ⟨"opening"⟩ (.obj [("hp", .ofNat 10)]),
      .push scope reply (some ⟨"opening"⟩)].foldl (Event.after {}) (⟨{}, []⟩ : Session Memory)
    (∃ view, Table.get? pushed.views scope = some view ∧ view.node = some ⟨"opening"⟩ ∧
      pushed.host.seenAt {} scope view.node = .ok view.bundle) ∧
    ∃ bundle, (bundleAt {} scope reply (Event.after {} pushed (.activate scope))).1 = .ok bundle ∧
      bundle.data = .obj [("hp", .ofNat 10)] := by
  intro scope reply pushed
  have hopening := Reaches.event (.push scope ⟨"opening"⟩ none) (Reaches.fresh (c := {})) rfl
  have hstart :=
    hopening.event (.start scope ⟨"opening"⟩ (.obj [("hp", .ofNat 10)])) trivial
  have hpushed : Reaches {} pushed := hstart.event (.push scope reply (some ⟨"opening"⟩)) rfl
  have hlooked : Reaches {} (Event.after {} pushed (.activate scope)) :=
    .event _ hpushed trivial
  have hsteady : Steady {} scope (Event.after {} pushed (.activate scope)) :=
    .settled _ hpushed ⟨rfl, _, rfl⟩
  exact ⟨⟨_, rfl, rfl, (views_coherent hpushed).1 scope _ rfl⟩, _,
    (views_coherent hlooked).2 scope reply _ _ (.inl hsteady) rfl rfl, rfl⟩

end Session

end StatVars
