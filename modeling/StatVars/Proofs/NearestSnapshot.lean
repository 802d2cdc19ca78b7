import StatVars.Conversation.Memory
import StatVars.Conversation.Nearest

/-!
# What a walk towards the root finds

At each node a walk asks for a snapshot first and for the parent next, and only then takes a step,
of which it has as many as the limit says. So a snapshot and a root are found exactly at the limit,
a node that is not in the tree may have a snapshot all the same, and a cycle is left at a snapshot
on it. `Ends` lists the ways in which a walk can end; there is always one and no other, and that is
the answer. Main statement: `nearest?_eq_iff`, for every host that answers from a tree and from
snapshots, as `Memory` does.
-/

namespace StatVars.Host

open Fallible

variable {σ : Type} [Host σ] {s : σ} {scope : Scope} {tree : Node → Option (Option Node)}
  {snapshots : Node → Option Bundle} {start node parent visited : Node} {bundle : Bundle}
  {steps limit limit' visits : Nat} {r : Except HostError (Option Bundle)}

/-- In the state `s` the host answers from a tree, in which a node that is known has a parent or is
a root, and from snapshots. A call changes nothing, and none fails but for the parent of a node that
is not in the tree. -/
structure Answers (s : σ) (scope : Scope) (tree : Node → Option (Option Node))
    (snapshots : Node → Option Bundle) : Prop where
  bound : ∀ node, boundAt? scope node s = (.ok (snapshots node), s)
  parent : ∀ node, parent? scope node s = (match tree node with
    | some parent => .ok parent
    | none => .error (.unknownNode node), s)

/-- The walk from the node takes so many steps to `visited`, each from a node without a snapshot to
its parent. -/
inductive Passes (tree : Node → Option (Option Node)) (snapshots : Node → Option Bundle) :
    Nat → Node → Node → Prop
  | here {node : Node} : Passes tree snapshots 0 node node
  | up {steps : Nat} {node parent visited : Node} (hbound : snapshots node = none)
    (hparent : tree node = some (some parent)) (h : Passes tree snapshots steps parent visited) :
    Passes tree snapshots (steps + 1) node visited

/-- How the walk from the node ends: at a snapshot, at a root, at a node that is not in the tree, or
because the limit does not let it go on. -/
inductive Ends (tree : Node → Option (Option Node)) (snapshots : Node → Option Bundle)
    (node : Node) (limit : Nat) : Except HostError (Option Bundle) → Prop
  | bound {steps : Nat} {visited : Node} {bundle : Bundle} (hsteps : steps ≤ limit)
    (h : Passes tree snapshots steps node visited) (hbound : snapshots visited = some bundle) :
    Ends tree snapshots node limit (.ok (some bundle))
  | root {steps : Nat} {visited : Node} (hsteps : steps ≤ limit)
    (h : Passes tree snapshots steps node visited) (hbound : snapshots visited = none)
    (hroot : tree visited = some none) : Ends tree snapshots node limit (.ok none)
  | unknown {steps : Nat} {visited : Node} (hsteps : steps ≤ limit)
    (h : Passes tree snapshots steps node visited) (hbound : snapshots visited = none)
    (hunknown : tree visited = none) :
    Ends tree snapshots node limit (.error (.unknownNode visited))
  | tooLong (h : ∀ steps ≤ limit, ∀ visited, Passes tree snapshots steps node visited →
      snapshots visited = none ∧ ∃ parent, tree visited = some (some parent)) :
    Ends tree snapshots node limit (.error (.walkTooLong node limit))

/-! ## The walk -/

theorem Answers.climb_succ (h : Answers s scope tree snapshots) (start node : Node)
    (limit visits : Nat) :
    climb scope start limit (visits + 1) node s =
      match snapshots node with
      | some bundle => (.ok (some bundle), s)
      | none =>
        match tree node with
        | some (some parent) => climb scope start limit visits parent s
        | some none => (.ok none, s)
        | none => (.error (.unknownNode node), s) := by
  simp only [climb, bind_apply, h.bound]
  cases snapshots node with
  | some bundle => rfl
  | none =>
    simp only [bind_apply, h.parent]
    rcases tree node with _ | _ | _ <;> rfl

theorem Passes.climb (h : Passes tree snapshots steps node visited)
    (hs : Answers s scope tree snapshots) (start : Node) (limit visits : Nat) :
    Host.climb scope start limit (steps + visits) node s =
      Host.climb scope start limit visits visited s := by
  induction h with
  | here => rw [Nat.zero_add]
  | up hbound hparent _ ih =>
    rw [Nat.succ_add, hs.climb_succ, hbound]
    simp only [hparent]
    exact ih

/-- A walk that may take a step to a node may look at it. -/
theorem Passes.nearest? (h : Passes tree snapshots steps node visited)
    (hs : Answers s scope tree snapshots) (hsteps : steps ≤ limit) :
    ∃ visits, Host.nearest? scope node limit s =
      Host.climb scope node limit (visits + 1) visited s := by
  refine ⟨limit - steps, ?_⟩
  have hvisits : limit + 1 = steps + (limit - steps + 1) := by omega
  rw [Host.nearest?, hvisits, h.climb hs]

theorem Passes.up_last (h : Passes tree snapshots steps node visited)
    (hbound : snapshots visited = none) (hparent : tree visited = some (some parent)) :
    Passes tree snapshots (steps + 1) node parent := by
  induction h with
  | here => exact .up hbound hparent .here
  | up hb hp _ ih => exact .up hb hp (ih hbound hparent)

/-- A walk goes on as long as it finds neither a snapshot nor an end of the tree. -/
theorem exists_passes (h : ∀ steps ≤ limit, ∀ visited, Passes tree snapshots steps node visited →
      snapshots visited = none ∧ ∃ parent, tree visited = some (some parent)) :
    ∃ visited, Passes tree snapshots (limit + 1) node visited := by
  induction limit with
  | zero =>
    obtain ⟨hbound, parent, hparent⟩ := h 0 (Nat.le_refl 0) node .here
    exact ⟨parent, .up hbound hparent .here⟩
  | succ limit ih =>
    obtain ⟨visited, hvisited⟩ := ih fun steps hsteps => h steps (Nat.le_succ_of_le hsteps)
    obtain ⟨hbound, parent, hparent⟩ := h (limit + 1) (Nat.le_refl _) visited hvisited
    exact ⟨parent, hvisited.up_last hbound hparent⟩

/-! ## The answer -/

theorem Ends.nearest? (h : Ends tree snapshots node limit r)
    (hs : Answers s scope tree snapshots) : Host.nearest? scope node limit s = (r, s) := by
  cases h with
  | bound hsteps h hbound =>
    obtain ⟨visits, hnearest⟩ := h.nearest? hs hsteps
    rw [hnearest, hs.climb_succ, hbound]
  | root hsteps h hbound hroot =>
    obtain ⟨visits, hnearest⟩ := h.nearest? hs hsteps
    rw [hnearest, hs.climb_succ, hbound]
    simp only [hroot]
  | unknown hsteps h hbound hunknown =>
    obtain ⟨visits, hnearest⟩ := h.nearest? hs hsteps
    rw [hnearest, hs.climb_succ, hbound]
    simp only [hunknown]
  | tooLong h =>
    obtain ⟨visited, hvisited⟩ := exists_passes h
    exact hvisited.climb hs node limit 0

/-- A walk ends in one of the ways. -/
theorem exists_ends (tree : Node → Option (Option Node)) (snapshots : Node → Option Bundle)
    (node : Node) (limit : Nat) : ∃ r, Ends tree snapshots node limit r := by
  refine Classical.byContradiction fun hnone => hnone ⟨_, .tooLong fun steps hsteps visited h => ?_⟩
  cases hbound : snapshots visited with
  | some bundle => exact absurd ⟨_, .bound hsteps h hbound⟩ hnone
  | none =>
    rcases hparent : tree visited with _ | _ | parent
    · exact absurd ⟨_, .unknown hsteps h hbound hparent⟩ hnone
    · exact absurd ⟨_, .root hsteps h hbound hparent⟩ hnone
    · exact ⟨rfl, parent, rfl⟩

/-- What ends a walk before its limit does ends it under a higher limit too. -/
theorem Ends.mono (h : Ends tree snapshots node limit r) (hr : r ≠ .error (.walkTooLong node limit))
    (hle : limit ≤ limit') : Ends tree snapshots node limit' r := by
  cases h with
  | bound hsteps h hbound => exact .bound (Nat.le_trans hsteps hle) h hbound
  | root hsteps h hbound hroot => exact .root (Nat.le_trans hsteps hle) h hbound hroot
  | unknown hsteps h hbound hunknown =>
    exact .unknown (Nat.le_trans hsteps hle) h hbound hunknown
  | tooLong => exact absurd rfl hr

/-- **The answer of a walk is how it ends, and the host stays as it is.** A higher limit changes no
answer but that the walk is too long. -/
theorem nearest?_eq_iff (h : Answers s scope tree snapshots) (node : Node) (limit : Nat) :
    (∀ r t, nearest? scope node limit s = (r, t) ↔ Ends tree snapshots node limit r ∧ t = s) ∧
    ∀ limit', limit ≤ limit' →
      nearest? scope node limit s ≠ (.error (.walkTooLong node limit), s) →
        nearest? scope node limit' s = nearest? scope node limit s := by
  obtain ⟨r, hr⟩ := exists_ends tree snapshots node limit
  have hnearest := hr.nearest? h
  refine ⟨fun r' t => ⟨fun hr' => ?_, ?_⟩, fun limit' hle hne => ?_⟩
  · cases hnearest.symm.trans hr'
    exact ⟨hr, rfl⟩
  · rintro ⟨hends, rfl⟩
    exact hends.nearest? h
  · have hr' : r ≠ .error (.walkTooLong node limit) := by
      rintro rfl
      exact hne hnearest
    rw [hnearest, (hr.mono hr' hle).nearest? h]

end StatVars.Host

namespace StatVars.Memory

open Host

/-- Whatever is in the tables of a host in memory, it answers from them. -/
theorem answers (m : Memory) (scope : Scope) :
    Answers m scope (fun node => Table.get? m.parents (scope, node)) (m.boundAt? scope) :=
  ⟨fun _ => rfl, fun _ => rfl⟩

/-- The parent is not in the tree, but has a snapshot, which is found as soon as one step is
allowed. -/
theorem nearest?_eq_iff_dangling :
    let scope : Scope := ⟨"s"⟩
    let node : Node := ⟨"a"⟩
    let m : Memory :=
      { parents := [((scope, node), some ⟨"b"⟩)], snapshots := [((scope, ⟨"b"⟩), {})] }
    nearest? scope node 0 m = (.error (.walkTooLong node 0), m) ∧
      ∀ limit, 1 ≤ limit → nearest? scope node limit m = (.ok (some {}), m) := by
  intro scope node m
  obtain ⟨hzero, -⟩ := nearest?_eq_iff (m.answers scope) node 0
  obtain ⟨hone, hmore⟩ := nearest?_eq_iff (m.answers scope) node 1
  have hfound : nearest? scope node 1 m = (.ok (some {}), m) :=
    (hone _ _).2 ⟨.bound (Nat.le_refl 1) (.up rfl rfl .here) rfl, rfl⟩
  refine ⟨(hzero _ _).2 ⟨.tooLong fun steps hsteps visited h => ?_, rfl⟩, fun limit hlimit => ?_⟩
  · obtain rfl := Nat.le_zero.1 hsteps
    cases h
    exact ⟨rfl, _, rfl⟩
  · rw [hmore limit hlimit (by rw [hfound]; nofun), hfound]

end StatVars.Memory
