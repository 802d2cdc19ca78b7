import StatVars.Change.Run
import StatVars.Proofs.Creation

/-!
# Refused commands

Commands write in place, so a refusal could leave half of a change behind. It never does: every
command makes all of its checks before it writes, and the one way of writing that goes step by step
(`Json.create`) is only begun when it can be finished (`Schema.create_done_of_checkSet`). Hence a
batch does what the commands of it that are applied do on their own.

`Fallible.CleanAt` is the property that is followed through the parts of a command: parts that only
read may stand before a clean one, and parts that cannot fail behind it.
-/

namespace StatVars

namespace Fallible

variable {ε σ α β : Type}

/-- The computation changes nothing if it starts from `s` and fails. -/
def CleanAt (x : Fallible ε σ α) (s : σ) : Prop :=
  ∀ e t, x s = (.error e, t) → t = s

theorem cleanAt_throw (e : ε) (s : σ) : CleanAt (throw e : Fallible ε σ α) s := by
  intro e t h
  cases h
  rfl

theorem cleanAt_set (t s : σ) : CleanAt (set t : Fallible ε σ PUnit) s := by
  intro e t h
  cases h

namespace CleanAt

variable {x : Fallible ε σ α} {f : α → Fallible ε σ β} {s : σ}

/-- Before a clean part there may be one that changes nothing at all. -/
theorem bind_of_unchanged (hx : (x s).2 = s) (hf : ∀ a, x s = (.ok a, s) → CleanAt (f a) s) :
    CleanAt (x >>= f) s := by
  intro e t h
  rcases bind_error h with hfirst | ⟨a, r, hfirst, hsecond⟩ <;> rw [hfirst] at hx
  · exact hx
  · obtain rfl : r = s := hx
    exact hf a hfirst e t hsecond

theorem get_bind {f : σ → Fallible ε σ β} (hf : CleanAt (f s) s) :
    CleanAt (get >>= f) s := by
  refine bind_of_unchanged rfl fun a h => ?_
  cases h
  exact hf

theorem liftM_bind {r : Except ε α} (hf : ∀ a, r = .ok a → CleanAt (f a) s) :
    CleanAt ((liftM r : Fallible ε σ α) >>= f) s := by
  refine bind_of_unchanged rfl fun a h => hf a ?_
  rw [liftM_apply] at h
  cases h
  rfl

/-- Behind a clean part there may be one that cannot fail. -/
theorem bind_pure (hx : CleanAt x s) (g : α → β) : CleanAt (x >>= fun a => pure (g a)) s := by
  intro e t h
  rcases bind_error h with h | ⟨a, r, -, h⟩
  · exact hx e t h
  · cases h

end CleanAt

/-- A list of checks changes nothing. -/
theorem forM_liftM_apply (l : List α) (check : α → Except ε PUnit) (s : σ) :
    (l.forM fun a => liftM (check a) : Fallible ε σ PUnit) s = (l.forM check, s) := by
  induction l with
  | nil => rfl
  | cons a l ih =>
    simp only [List.forM, bind_apply, liftM_apply]
    cases check a with
    | error e => rfl
    | ok u => exact ih

/-- Checks of a list, one after the other, are one check. -/
theorem forM_liftM_bind (l : List α) (check : α → Except ε PUnit) (f : PUnit → Fallible ε σ β)
    (s : σ) :
    ((l.forM fun a => liftM (check a) : Fallible ε σ PUnit) >>= f) s =
      (liftM (l.forM check) >>= f) s := by
  rw [bind_apply, bind_apply, forM_liftM_apply, liftM_apply]

end Fallible

namespace Change

open Fallible Fallible.CleanAt

theorem cleanAt_overwrite (p : Path) (v : Json) (vars : Variables) : CleanAt (overwrite p v) vars :=
  get_bind (liftM_bind fun _ _ => cleanAt_set _ _)

theorem cleanAt_remove (p : Path) (vars : Variables) : CleanAt (remove p) vars := by
  refine get_bind (liftM_bind fun _ _ => ?_)
  intro e t h
  rcases bind_error h with h | ⟨_, _, -, h⟩ <;> cases h

theorem create_apply_of_done {p : Path} {v : Json} {vars : Variables}
    (h : (vars.data.create p v).2 = true) :
    create p v vars = (.ok (), { vars with data := (vars.data.create p v).1 }) := by
  simp only [create, bind_apply, get_apply, set_apply, h]
  rfl

theorem cleanAt_deleteAt (p : Path) (vars : Variables) : CleanAt (deleteAt p) vars :=
  get_bind (liftM_bind fun _ _ => bind_pure (cleanAt_remove p vars) _)

theorem cleanAt_setRoot (p : Path) (l : Literal) (vars : Variables) :
    CleanAt (setRoot p l) vars := by
  unfold setRoot
  split
  · refine get_bind (bind_of_unchanged ?_ fun _ _ => ?_)
    · rw [forM_liftM_apply]
    · split
      · exact bind_pure (cleanAt_set _ _) _
      · exact cleanAt_throw _ _
  · exact cleanAt_throw _ _

/-- Creation is the one way of writing that could stop half way; the check before it sees to it
that it does not. -/
theorem cleanAt_createAt {p : Path} {vars : Variables} (hp : vars.data.get? p = none)
    (l : Literal) : CleanAt (createAt p l) vars := by
  unfold createAt
  split
  · exact cleanAt_throw _ _
  · next v =>
    refine get_bind (liftM_bind fun _ hcheck => ?_)
    have hok : vars.schema.checkSet vars.data p = .ok () := by
      cases h : vars.schema.checkSet vars.data p with
      | error e => rw [h] at hcheck; cases hcheck
      | ok => rfl
    intro e t h
    rcases bind_error h with h | ⟨_, _, -, h⟩
    · rw [create_apply_of_done (Schema.create_done_of_checkSet hok hp v)] at h
      cases h
    · cases h

theorem cleanAt_unsetAt (p : Path) (current : Json) (vars : Variables) :
    CleanAt (unsetAt p current) vars := by
  refine get_bind ?_
  split
  · exact bind_pure (cleanAt_overwrite _ _ _) _
  · exact cleanAt_deleteAt p vars

theorem cleanAt_replaceAt (p : Path) (current v : Json) (vars : Variables) :
    CleanAt (replaceAt p current v) vars := by
  unfold replaceAt
  split <;> exact bind_pure (cleanAt_overwrite _ _ _) _

theorem cleanAt_insertItem (p : Path) (items : List Json) (place : Nat) (v : Json)
    (vars : Variables) : CleanAt (insertItem p items place v) vars :=
  get_bind (liftM_bind fun _ _ => bind_pure (cleanAt_overwrite _ _ _) _)

theorem cleanAt_insertField (p : Path) (fields : List (String × Json)) (k : String) (v : Json)
    (vars : Variables) : CleanAt (insertField p fields k v) vars :=
  get_bind (liftM_bind fun _ _ => bind_pure (cleanAt_overwrite _ _ _) _)

theorem cleanAt_merge (p : Path) (fields : List (String × Json)) (v : Json) (vars : Variables) :
    CleanAt (merge p fields v) vars := by
  unfold merge
  split
  · refine get_bind (bind_of_unchanged ?_ fun _ _ => bind_pure (cleanAt_overwrite _ _ _) _)
    rw [forM_liftM_apply]
  · exact cleanAt_throw _ _

theorem cleanAt_shiftAt (precision : Nat) (p : Path) (current : Json) (amount : Finite)
    (vars : Variables) : CleanAt (shiftAt precision p current amount) vars := by
  unfold shiftAt
  split <;> exact liftM_bind fun _ _ => bind_pure (cleanAt_overwrite _ _ _) _

theorem cleanAt_shiftBy (precision : Nat) (p : Path) (current : Json) (delta : Literal)
    (vars : Variables) : CleanAt (shiftBy precision p current delta) vars := by
  unfold shiftBy
  split
  · exact cleanAt_shiftAt _ _ _ _ _
  · exact cleanAt_throw _ _

variable (c : Config) (p : Path) (args : List Command.Argument) (vars : Variables)

theorem set_cleanAt : CleanAt (set c p args) vars := by
  unfold set
  split
  · exact cleanAt_throw _ _
  · refine liftM_bind fun l _ => ?_
    split
    · exact cleanAt_setRoot p l vars
    · refine get_bind ?_
      split
      · exact cleanAt_createAt ‹vars.data.get? p = none› _
      · exact cleanAt_unsetAt _ _ _
      · exact cleanAt_replaceAt _ _ _ _

theorem delete_cleanAt : CleanAt (delete c p args) vars := by
  unfold delete
  split
  · exact cleanAt_deleteAt p vars
  · exact liftM_bind fun _ _ => get_bind (liftM_bind fun _ _ => cleanAt_deleteAt _ vars)

theorem insert_cleanAt : CleanAt (insert c p args) vars := by
  refine get_bind (liftM_bind fun _ _ => ?_)
  split
  · split
    · exact liftM_bind fun _ _ => cleanAt_insertItem _ _ _ _ _
    · exact liftM_bind fun _ _ => liftM_bind fun _ _ => liftM_bind fun _ _ =>
        cleanAt_insertItem _ _ _ _ _
    · exact cleanAt_throw _ _
  · split
    · exact liftM_bind fun _ _ => cleanAt_merge _ _ _ _
    · exact liftM_bind fun _ _ => liftM_bind fun _ _ => cleanAt_insertField _ _ _ _ _
    · exact cleanAt_throw _ _
  · exact cleanAt_throw _ _

theorem add_cleanAt : CleanAt (add c p args) vars := by
  refine liftM_bind fun delta _ => get_bind (liftM_bind fun current _ => ?_)
  split
  · split
    · exact cleanAt_throw _ _
    · split
      · exact cleanAt_insertItem _ _ _ _ _
      · exact cleanAt_throw _ _
  · exact cleanAt_shiftBy _ _ _ _ _

end Change

/-- No command leaves anything of a change behind that is refused. -/
theorem Command.attempt_cleanAt (c : Config) (command : Command) (p : Path) (vars : Variables) :
    Fallible.CleanAt (command.attempt c p) vars := by
  unfold attempt
  cases command.kind with
  | set => exact Change.set_cleanAt c p _ vars
  | add => exact Change.add_cleanAt c p _ vars
  | delete => exact Change.delete_cleanAt c p _ vars
  | insert => exact Change.insert_cleanAt c p _ vars

namespace Variables

variable (c : Config) (vars : Variables)

theorem run_of_attempt_error {command : Command} {p : Path} {e : CommandError}
    {after : Variables} (hp : Path.parse command.path = .ok p)
    (h : command.attempt c p vars = (.error e, after)) :
    vars.run c command = (after, ⟨command, some p, .refused e⟩) := by
  simp only [run, hp, h]

theorem run_of_attempt_ok {command : Command} {p : Path} {change : Change} {after : Variables}
    (hp : Path.parse command.path = .ok p)
    (h : command.attempt c p vars = (.ok change, after)) :
    vars.run c command = (after.reconcile c change.path,
      ⟨command, some change.path,
        .applied change.previous (change.new.map Json.stripMeta)⟩) := by
  simp only [run, hp, h]

/-- A command is refused for what its attempt fails with. -/
theorem error?_run {command : Command} {p : Path} (hp : Path.parse command.path = .ok p)
    (e : CommandError) :
    (vars.run c command).2.error? = some e ↔ (command.attempt c p vars).1 = .error e := by
  rcases hattempt : command.attempt c p vars with ⟨e' | change, after⟩
  · rw [run_of_attempt_error c vars hp hattempt]
    simp [Command.Result.error?]
  · rw [run_of_attempt_ok c vars hp hattempt]
    simp [Command.Result.error?]

/-- What a run of a command can be: it is refused and changes nothing, or it makes a change. -/
theorem run_cases (command : Command) :
    (∃ p e, vars.run c command = (vars, ⟨command, p, .refused e⟩)) ∨
      ∃ p change after, Path.parse command.path = .ok p ∧
        command.attempt c p vars = (.ok change, after) ∧
        vars.run c command = (after.reconcile c change.path,
          ⟨command, some change.path,
            .applied change.previous (change.new.map Json.stripMeta)⟩) := by
  cases hp : Path.parse command.path with
  | error e => exact .inl ⟨none, .path e, by simp only [run, hp]⟩
  | ok p =>
    rcases hattempt : command.attempt c p vars with ⟨e | change, after⟩
    · obtain rfl := Command.attempt_cleanAt c command p vars e after hattempt
      exact .inl ⟨some p, e, run_of_attempt_error c _ hp hattempt⟩
    · exact .inr ⟨p, change, after, rfl, hattempt, run_of_attempt_ok c vars hp hattempt⟩

@[simp] theorem run_command (command : Command) : (vars.run c command).2.command = command := by
  rcases vars.run_cases c command with ⟨p, e, hrun⟩ | ⟨p, change, after, -, -, hrun⟩ <;> rw [hrun]

theorem run_of_refused {command : Command} (h : (vars.run c command).2.applied = false) :
    (vars.run c command).1 = vars := by
  rcases vars.run_cases c command with ⟨p, e, hrun⟩ | ⟨p, change, after, -, -, hrun⟩
  · rw [hrun]
  · rw [hrun] at h
    cases h

theorem runAll_cons (command : Command) (commands : List Command) :
    vars.runAll c (command :: commands) =
      (((vars.run c command).1.runAll c commands).1,
        (vars.run c command).2 :: ((vars.run c command).1.runAll c commands).2) := rfl

theorem runAll_append (before after : List Command) :
    vars.runAll c (before ++ after) =
      (((vars.runAll c before).1.runAll c after).1,
        (vars.runAll c before).2 ++ ((vars.runAll c before).1.runAll c after).2) := by
  induction before generalizing vars with
  | nil => rfl
  | cons command before ih => simp only [List.cons_append, runAll_cons, ih]

theorem runAll_concat (before : List Command) (command : Command) :
    (vars.runAll c (before ++ [command])).1 = ((vars.runAll c before).1.run c command).1 := by
  rw [runAll_append]
  rfl

theorem map_command_runAll (commands : List Command) :
    (vars.runAll c commands).2.map (·.command) = commands := by
  induction commands generalizing vars with
  | nil => rfl
  | cons command commands ih => simp [runAll_cons, ih]

/-- Commands that are refused might as well not have been there. -/
theorem runAll_applied (commands : List Command) :
    let kept := (vars.runAll c commands).2.filter Command.Result.applied
    vars.runAll c (kept.map (·.command)) = ((vars.runAll c commands).1, kept) := by
  induction commands generalizing vars with
  | nil => rfl
  | cons command commands ih =>
    have hrest := ih (vars.run c command).1
    cases happlied : (vars.run c command).2.applied with
    | true => simp only [runAll_cons, List.filter_cons, happlied, if_true, List.map_cons,
        run_command, hrest]
    | false =>
      rw [run_of_refused c vars happlied] at hrest
      simp only [runAll_cons, List.filter_cons, happlied, run_of_refused c vars happlied]
      exact hrest

end Variables

namespace Bundle

/-- Runs each command as a batch of its own. -/
def applyEach (c : Config) (b : Bundle) : List Command → Bundle × List Command.Result
  | [] => (b, [])
  | command :: commands =>
    let (b, result) := b.applyOne c command
    let (b, results) := applyEach c b commands
    (b, result :: results)

theorem applyEach_eq_runAll (c : Config) (b : Bundle) (commands : List Command) :
    ((b.applyEach c commands).1.toVariables, (b.applyEach c commands).2) =
      b.runAll c commands := by
  induction commands generalizing b with
  | nil => rfl
  | cons command commands ih =>
    rw [Variables.runAll_cons]
    exact congrArg (fun r => (r.1, (b.run c command).2 :: r.2)) (ih (b.applyOne c command).1)

/-- **Refused commands leave no trace.** A command of a batch that is refused leaves the document
and its schema as they were before it, so that the applied commands of the batch, each run as a
batch of its own, end with the same document and schema and have the same results. -/
theorem apply_refused (c : Config) (b : Bundle) (commands : List Command) :
    let batch := b.apply c commands
    let kept := batch.2.filter Command.Result.applied
    let single := b.applyEach c (kept.map (·.command))
    (∀ before command after, commands = before ++ command :: after →
      batch.2[before.length]?.map Command.Result.applied = some false →
        (b.apply c (before ++ [command])).1.data = (b.apply c before).1.data ∧
        (b.apply c (before ++ [command])).1.schema = (b.apply c before).1.schema) ∧
    batch.2.map (·.command) = commands ∧
    single.1.data = batch.1.data ∧ single.1.schema = batch.1.schema ∧ single.2 = kept := by
  refine ⟨fun before command after hsplit hrefused => ?_, b.map_command_runAll c commands, ?_⟩
  · have hlength : (b.runAll c before).2.length = before.length := by
      rw [← List.length_map, Variables.map_command_runAll]
    have hstep : ((b.runAll c before).1.run c command).1 = (b.runAll c before).1 := by
      apply Variables.run_of_refused
      subst hsplit
      simpa [apply, Variables.runAll_append, Variables.runAll_cons, hlength] using hrefused
    have hend : (b.runAll c (before ++ [command])).1 = (b.runAll c before).1 := by
      rw [Variables.runAll_append, Variables.runAll_cons, hstep]
      rfl
    exact ⟨congrArg Variables.data hend, congrArg Variables.schema hend⟩
  · have hsingle := (b.applyEach_eq_runAll c _).trans (b.runAll_applied c commands)
    obtain ⟨hvars, hresults⟩ := Prod.mk.inj hsingle
    exact ⟨congrArg Variables.data hvars, congrArg Variables.schema hvars, hresults⟩

/-- A place that the check finds out of bounds keeps even the container before it from being made,
and the command behind is applied as if nothing had been tried. -/
theorem apply_refused_creation :
    let b := ofDocument true (.obj [("a", .obj [])])
    let value : Command.Argument := .literal (.value (.ofNat 1))
    let refused : Command := ⟨.set, "a.b[2]", [value], none⟩
    let applied : Command := ⟨.set, "a.c", [value], none⟩
    (b.apply {} [refused, applied]).2[0]?.map Command.Result.applied = some false ∧
      (b.apply {} [refused, applied]).1.data = .obj [("a", .obj [("c", .ofNat 1)])] ∧
      (b.apply {} [refused]).1.data = b.data := by
  intro b value refused applied
  have hrefused :
      (b.apply {} [refused, applied]).2[0]?.map Command.Result.applied = some false := by
    decide
  exact ⟨hrefused, by decide,
    ((apply_refused {} b [refused, applied]).1 [] refused [applied] rfl hrefused).1⟩

end Bundle

end StatVars
