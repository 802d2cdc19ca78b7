import StatVars.Proofs.Calls

/-!
# Texts that are generated again

A text is run against the variables of the parent of its node, which no snapshot at the node itself
has a part in unless the node is its own ancestor. So a text that is generated again takes the place
of those before, whatever became of them. Main statement: `Session.regeneration_replaces`.
-/

namespace StatVars

variable {c : Config} {scope : Scope} {node : Node} {text : String}

namespace Memory

variable {m m' : Memory}

/-- The snapshot at a node has no part in what a text generated there is run against. -/
theorem AgreesOutside.baseAt (h : AgreesOutside (At scope node) m m') (c : Config)
    (hcycle : ∀ steps, m.ancestor? scope (steps + 1) node ≠ some node) :
    Session.baseAt c m' scope node = Session.baseAt c m scope node := by
  rw [Session.baseAt, Session.baseAt, h.parent]
  cases hparent : m.parent? scope node with
  | error e => rfl
  | ok above =>
    refine h.seenAt fun parent habove visited hvisited hplace => ?_
    cases hplace
    obtain ⟨steps, -, hsteps, -⟩ := hvisited
    rw [habove] at hparent
    exact hcycle steps ((ancestor?_succ hparent steps).trans hsteps)

end Memory

namespace Session

variable {s t : Session Memory}

/-- The session after texts were generated at a node one after the other, whether or not the calls
succeeded. -/
def regenerate (c : Config) (scope : Scope) (node : Node) (texts : List String)
    (s : Session Memory) : Session Memory :=
  texts.foldl (fun s text => (respond c scope node text s).2) s

theorem sameBut_regenerate (c : Config) (scope : Scope) (node : Node) (texts : List String)
    (s : Session Memory) : SameBut scope node s (regenerate c scope node texts s) := by
  induction texts generalizing s with
  | nil => exact .refl scope node s
  | cons text texts ih => exact (respond_commitsAt c scope node text s).sameBut.trans (ih _)

/-- Sessions that differ at a node give the same response there, and are the same after it. -/
theorem respond_congr (h : SameBut scope node s t) (c : Config) (text : String)
    (hcycle : ∀ steps, s.host.ancestor? scope (steps + 1) node ≠ some node) :
    (respond c scope node text t).1 = (respond c scope node text s).1 ∧
      ∀ response, (respond c scope node text t).1 = .ok response →
        Same (respond c scope node text s).2 (respond c scope node text t).2 := by
  have hbase := h.host.baseAt c hcycle
  constructor
  · rw [respond_apply, respond_apply, hbase]
    cases Session.baseAt c s.host scope node with
    | error e => rfl
    | ok base => exact congrArg (Except.map _) (commit_congr h c _).1
  · intro response hok
    obtain ⟨base, hbaset, -, hcommit, hafter⟩ := respond_ok hok
    obtain ⟨hresult, hsame⟩ := commit_congr h c (generated c base text).1
    rw [hresult] at hcommit
    have hs : (respond c scope node text s).2 =
        (commit c scope node (generated c base text).1 s).2 := by
      rw [respond_apply, ← hbase, hbaset]
    rw [hafter, hs]
    exact hsame hcommit

/-- After a response the variables at its node are those of the response. Without a snapshot at the
node the walk goes on to its parent, and has to be short enough to end at the root. -/
theorem seenAt_of_respond_ok {response : Response} {steps : Nat} {root : Node}
    (hok : (respond c scope node text s).1 = .ok response)
    (hcycle : ∀ steps, s.host.ancestor? scope (steps + 1) node ≠ some node)
    (hsteps : steps ≤ c.maxAncestorWalk)
    (hroot : s.host.ancestor? scope steps node = some root)
    (hend : s.host.parent? scope root = .ok none) :
    (respond c scope node text s).2.host.seenAt c scope (some node) = .ok response.bundle := by
  obtain ⟨base, hbase, rfl, hcommit, hafter⟩ := respond_ok hok
  rw [hafter, host_of_commit_ok hcommit]
  have hhost := Memory.agreesOutside_rebound s.host scope node (generated c base text).1
  have hbound := Memory.boundAt?_rebound s.host scope node (generated c base text).1 scope node
  rw [if_pos rfl] at hbound
  have hbundle := generated_bundle c base text
  cases hgenerated : (generated c base text).1 with
  | some bundle =>
    rw [hgenerated] at hbound hbundle
    rw [← hbundle]
    exact Memory.seenAt_of_bound hbound c
  | none =>
    rw [hgenerated] at hhost hbound hbundle
    rw [← hbundle]
    -- The parent still shows what the text was run against.
    have hbase' := (hhost.baseAt c hcycle).trans hbase
    rw [baseAt] at hbase'
    split at hbase'
    · next above hparent =>
      rw [← hhost.ancestor?] at hroot
      rw [← hhost.parent] at hend
      rw [Memory.seenAt_of_unbound hbound hparent hroot hend hsteps]
      exact hbase'
    · cases hbase'

/-- **A text that is generated again replaces those before.** Where the node is not its own
ancestor, texts that were generated at it before, with whatever outcome, leave no trace after one
more text has been accepted: the response, all snapshots and all views are those of a session that
has seen this text only. What is then read at the node is the bundle of the response, with or
without commands in the text, if the limit admits the walk from the node to its root. -/
theorem regeneration_replaces (c : Config) (s : Session Memory) (scope : Scope) (node : Node)
    (hcycle : ∀ steps, s.host.ancestor? scope (steps + 1) node ≠ some node)
    (texts : List String) (text : String) :
    let again := respond c scope node text (regenerate c scope node texts s)
    let once := respond c scope node text s
    again.1 = once.1 ∧
    ∀ response, again.1 = .ok response →
      (∀ scope' node', again.2.host.boundAt? scope' node' = once.2.host.boundAt? scope' node') ∧
      (∀ scope', Table.get? again.2.views scope' = Table.get? once.2.views scope') ∧
      ∀ steps root, steps ≤ c.maxAncestorWalk →
        s.host.ancestor? scope steps node = some root → s.host.parent? scope root = .ok none →
        (bundleAt c scope node again.2).1 = .ok response.bundle := by
  intro again once
  have hbefore := sameBut_regenerate c scope node texts s
  obtain ⟨hresponse, hsame⟩ := respond_congr hbefore c text hcycle
  refine ⟨hresponse, fun response hok => ?_⟩
  have hafter := hsame response hok
  refine ⟨fun scope' node' => hafter.host.bound scope' node' id, hafter.views, ?_⟩
  intro steps root hsteps hroot hend
  rw [bundleAt_apply, hafter.host.seenAt]
  exact seenAt_of_respond_ok (hresponse.symm.trans hok) hcycle hsteps hroot hend

/-- A reply that had set a variable is generated again, without commands this time: its snapshot is
gone, and the reply shows the variables of its parent. -/
theorem regeneration_replaces_unbind :
    let scope : Scope := ⟨"alice"⟩
    let opening : Node := ⟨"opening"⟩
    let reply : Node := ⟨"reply"⟩
    let shown : Bundle := { data := .obj [("hp", .ofNat 10)], revision := 1 }
    let s : Session Memory :=
      { host :=
          { parents := [((scope, opening), none), ((scope, reply), some opening)]
            active := [(scope, reply)]
            snapshots := [((scope, opening), shown)] } }
    let before := regenerate {} scope reply ["_.set('hp', 3);"] s
    let after := (respond {} scope reply "" before).2
    (before.host.boundAt? scope reply).isSome ∧ after.host.boundAt? scope reply = none ∧
      (bundleAt {} scope reply after).1 = .ok shown := by
  intro scope opening reply shown s before after
  have hcycle (steps : Nat) : s.host.ancestor? scope (steps + 1) reply ≠ some reply := by
    cases steps with
    | zero => decide
    | succ steps => nofun
  have hcommands : (Batch.ofText {} "").commands = [] := by decide +kernel
  have hbase : baseAt {} s.host scope reply = .ok shown := rfl
  have honce := respond_of_no_commands hbase hcommands
  obtain ⟨hresponse, hafter⟩ :=
    regeneration_replaces {} s scope reply hcycle ["_.set('hp', 3);"] ""
  obtain ⟨hbound, -, hread⟩ := hafter _ (hresponse.trans (congrArg Prod.fst honce))
  refine ⟨?_, ?_, ?_⟩
  · decide +kernel
  · rw [hbound, honce]
    rfl
  · exact hread 1 opening (by decide) rfl rfl

end Session

end StatVars
