import StatVars.Proofs.Coherence

/-!
# What a walk depends on

A walk from a node looks at the nodes on the way to the root, up to the first one with a snapshot.
Two hosts with the same tree, whose snapshots differ in some places only, answer alike as of every
node whose walk passes none of these places.
-/

namespace StatVars.Memory

variable {c : Config} {m m' m'' : Memory} {scope : Scope} {start node parent visited root : Node}
  {limit visits steps : Nat} {places : Scope → Node → Prop}

/-! ## Ancestors -/

/-- The ancestor of a node that many steps towards the root. -/
def ancestor? (m : Memory) (scope : Scope) : Nat → Node → Option Node
  | 0, node => some node
  | steps + 1, node =>
    match m.parent? scope node with
    | .ok (some parent) => m.ancestor? scope steps parent
    | _ => none

theorem ancestor?_succ (h : m.parent? scope node = .ok (some parent)) (steps : Nat) :
    m.ancestor? scope (steps + 1) node = m.ancestor? scope steps parent := by
  simp only [ancestor?, h]

/-- A walk that begins at `node`, and looks at so many nodes at most, looks at `visited`: no node
before it on the way has a snapshot. -/
def Visits (m : Memory) (scope : Scope) (visits : Nat) (node visited : Node) : Prop :=
  ∃ steps < visits, m.ancestor? scope steps node = some visited ∧
    ∀ before < steps, ∀ passed, m.ancestor? scope before node = some passed →
      m.boundAt? scope passed = none

theorem visits_self (m : Memory) (scope : Scope) (visits : Nat) (node : Node) :
    m.Visits scope (visits + 1) node node :=
  ⟨0, Nat.zero_lt_succ _, rfl, fun _ h => absurd h (Nat.not_lt_zero _)⟩

/-- What is looked at from the parent of a node without a snapshot is looked at from the node. -/
theorem Visits.below (hbound : m.boundAt? scope node = none)
    (hparent : m.parent? scope node = .ok (some parent))
    (h : m.Visits scope visits parent visited) : m.Visits scope (visits + 1) node visited := by
  obtain ⟨steps, hsteps, hvisited, hbefore⟩ := h
  refine ⟨steps + 1, Nat.succ_lt_succ hsteps, by rwa [ancestor?_succ hparent], ?_⟩
  intro before hlt passed hpassed
  cases before with
  | zero =>
    cases hpassed
    exact hbound
  | succ before =>
    rw [ancestor?_succ hparent] at hpassed
    exact hbefore before (Nat.lt_of_succ_lt_succ hlt) passed hpassed

/-! ## Hosts that agree outside some places -/

/-- Two hosts have the same tree and the same active nodes, and their snapshots differ in `places`
at most. -/
structure AgreesOutside (places : Scope → Node → Prop) (m m' : Memory) : Prop where
  parent : ∀ scope node, m'.parent? scope node = m.parent? scope node
  active : ∀ scope, m'.activeNode? scope = m.activeNode? scope
  bound : ∀ scope node, ¬places scope node → m'.boundAt? scope node = m.boundAt? scope node

/-- The place of one node. -/
def At (scope : Scope) (node : Node) (scope' : Scope) (node' : Node) : Prop :=
  (scope, node) = (scope', node')

/-- Two hosts have the same tree, the same active nodes and the same snapshots. -/
abbrev Agrees (m m' : Memory) : Prop := AgreesOutside (fun _ _ => False) m m'

namespace AgreesOutside

theorem refl (places : Scope → Node → Prop) (m : Memory) : AgreesOutside places m m :=
  ⟨fun _ _ => rfl, fun _ => rfl, fun _ _ _ => rfl⟩

theorem trans (h : AgreesOutside places m m') (h' : AgreesOutside places m' m'') :
    AgreesOutside places m m'' :=
  ⟨fun scope node => (h'.parent scope node).trans (h.parent scope node),
    fun scope => (h'.active scope).trans (h.active scope),
    fun scope node hout => (h'.bound scope node hout).trans (h.bound scope node hout)⟩

theorem ancestor? (h : AgreesOutside places m m') (scope : Scope) (steps : Nat) (node : Node) :
    m'.ancestor? scope steps node = m.ancestor? scope steps node := by
  induction steps generalizing node with
  | zero => rfl
  | succ steps ih =>
    simp only [Memory.ancestor?, h.parent]
    split
    · exact ih _
    · rfl

/-- A walk finds the same in both hosts if it passes no place where they differ. -/
theorem climb (h : AgreesOutside places m m')
    (hpass : ∀ visited, m.Visits scope visits node visited → ¬places scope visited) :
    (Host.climb scope start limit visits node m').1 =
      (Host.climb scope start limit visits node m).1 := by
  induction visits generalizing node with
  | zero => rfl
  | succ visits ih =>
    rw [climb_succ, climb_succ, h.parent, h.bound scope node (hpass node (visits_self ..))]
    cases hbound : m.boundAt? scope node with
    | some bundle => rfl
    | none =>
      rcases hparent : m.parent? scope node with e | _ | parent
      · rfl
      · rfl
      · -- What is looked at from the parent is looked at from the node, so no place is passed.
        exact ih fun visited hvisited => hpass visited (hvisited.below hbound hparent)

/-- What there is as of a node is the same in both hosts if the walk from the node passes no place
where they differ. -/
theorem seenAt {node : Option Node} (h : AgreesOutside places m m')
    (hpass : ∀ start, node = some start → ∀ visited,
      m.Visits scope (c.maxAncestorWalk + 1) start visited → ¬places scope visited) :
    m'.seenAt c scope node = m.seenAt c scope node := by
  cases node with
  | none => rfl
  | some start => exact congrArg (Except.map _) (h.climb (hpass start rfl))

end AgreesOutside

theorem Agrees.seenAt (h : Agrees m m') (c : Config) (scope : Scope) (node : Option Node) :
    m'.seenAt c scope node = m.seenAt c scope node :=
  AgreesOutside.seenAt h fun _ _ _ _ => id

/-! ## Writing and restoring a snapshot -/

theorem agreesOutside_rebound (m : Memory) (scope : Scope) (node : Node)
    (bundle : Option Bundle) : AgreesOutside (At scope node) m (m.rebound scope node bundle) := by
  refine ⟨fun _ _ => ?_, m.activeNode?_rebound scope node bundle, fun scope' node' hout => ?_⟩
  · cases bundle <;> rfl
  · rw [boundAt?_rebound]
    exact if_neg hout

/-- Hosts that differ at one node at most are the same once the same is written there. -/
theorem AgreesOutside.rebound (h : AgreesOutside (At scope node) m m') (bundle : Option Bundle) :
    Agrees (m.rebound scope node bundle) (m'.rebound scope node bundle) := by
  have hm := agreesOutside_rebound m scope node bundle
  have hm' := agreesOutside_rebound m' scope node bundle
  refine ⟨fun _ _ => ?_, fun _ => ?_, fun scope' node' _ => ?_⟩
  · rw [hm'.parent, h.parent, hm.parent]
  · rw [hm'.active, h.active, hm.active]
  · rw [boundAt?_rebound, boundAt?_rebound]
    split
    · rfl
    · next hout => exact h.bound scope' node' hout

/-- A snapshot that is put back where it was leaves no trace of what was written in between. -/
theorem agrees_restored (m : Memory) (scope : Scope) (node : Node) (bundle : Option Bundle) :
    Agrees m ((m.rebound scope node bundle).rebound scope node (m.boundAt? scope node)) := by
  have hwritten := agreesOutside_rebound m scope node bundle
  have hrestored := agreesOutside_rebound (m.rebound scope node bundle) scope node
    (m.boundAt? scope node)
  refine ⟨(hwritten.trans hrestored).parent, (hwritten.trans hrestored).active, ?_⟩
  intro scope' node' _
  rw [boundAt?_rebound]
  split
  · next hplace =>
    cases hplace
    rfl
  · next hout => exact hwritten.bound scope' node' hout

theorem agreesOutside_unbindAll (m : Memory) (scope : Scope) :
    AgreesOutside (fun scope' _ => scope' = scope) m (m.unbindAll scope) := by
  refine ⟨fun _ _ => rfl, fun _ => rfl, fun scope' node hout => ?_⟩
  exact (continues_unbindAll hout m).bound node

/-! ## Where a walk ends -/

theorem climb_of_bound {bundle : Bundle} (h : m.boundAt? scope node = some bundle)
    (hvisits : 0 < visits) :
    Host.climb scope start limit visits node m = (.ok (some bundle), m) := by
  cases visits with
  | zero => exact absurd hvisits (Nat.lt_irrefl 0)
  | succ visits => rw [climb_succ, h]

theorem seenAt_of_bound {bundle : Bundle} (h : m.boundAt? scope node = some bundle)
    (c : Config) : m.seenAt c scope (some node) = .ok bundle := by
  rw [seenAt, Host.nearest?, climb_of_bound h (Nat.zero_lt_succ _)]
  rfl

/-- A walk that may look at a root finds something or nothing, whatever its limit is. -/
theorem climb_of_root (hroot : m.ancestor? scope steps node = some root)
    (hend : m.parent? scope root = .ok none) :
    ∃ found, ∀ start limit visits, steps < visits →
      Host.climb scope start limit visits node m = (.ok found, m) := by
  induction steps generalizing node with
  | zero =>
    obtain rfl : node = root := Option.some.inj hroot
    refine ⟨m.boundAt? scope node, fun start limit visits hvisits => ?_⟩
    cases visits with
    | zero => exact absurd hvisits (Nat.lt_irrefl 0)
    | succ visits =>
      rw [climb_succ]
      cases m.boundAt? scope node with
      | some bundle => rfl
      | none => simp only [hend]
  | succ steps ih =>
    cases hbound : m.boundAt? scope node with
    | some bundle =>
      exact ⟨some bundle, fun _ _ _ hvisits => climb_of_bound hbound (Nat.zero_lt_of_lt hvisits)⟩
    | none =>
      rcases hparent : m.parent? scope node with e | _ | parent
      · simp only [ancestor?, hparent] at hroot
        cases hroot
      · simp only [ancestor?, hparent] at hroot
        cases hroot
      · rw [ancestor?_succ hparent] at hroot
        obtain ⟨found, hfound⟩ := ih hroot
        refine ⟨found, fun start limit visits hvisits => ?_⟩
        cases visits with
        | zero => exact absurd hvisits (Nat.not_lt_zero _)
        | succ visits =>
          simp only [climb_succ, hbound, hparent]
          exact hfound start limit visits (Nat.lt_of_succ_lt_succ hvisits)

/-- A node without a snapshot shows what its parent shows, if the limit admits the walk from the
node to its root. -/
theorem seenAt_of_unbound {above : Option Node} (hbound : m.boundAt? scope node = none)
    (hparent : m.parent? scope node = .ok above)
    (hroot : m.ancestor? scope steps node = some root) (hend : m.parent? scope root = .ok none)
    (hsteps : steps ≤ c.maxAncestorWalk) :
    m.seenAt c scope (some node) = m.seenAt c scope above := by
  cases above with
  | none =>
    simp only [seenAt, Host.nearest?, climb_succ, hbound, hparent]
    rfl
  | some parent =>
    cases steps with
    | zero =>
      obtain rfl : node = root := Option.some.inj hroot
      rw [hparent] at hend
      cases hend
    | succ steps =>
      rw [ancestor?_succ hparent] at hroot
      obtain ⟨found, hfound⟩ := climb_of_root hroot hend
      simp only [seenAt, Host.nearest?]
      rw [climb_succ, hbound]
      simp only [hparent]
      rw [hfound node _ _ hsteps, hfound parent _ _ (Nat.lt_succ_of_lt hsteps)]

end StatVars.Memory
