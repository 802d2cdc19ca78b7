import StatVars.Change.Run
import StatVars.Command.Codec
import StatVars.Proofs.LiteralText
import StatVars.Proofs.Records

/-!
# Commands that are recorded

A command is written with the texts of its arguments and read back with these texts as arguments.
What it does then is what the command does with its values as their texts are read. This is what it
did at first if the reader of JSON texts reads back the numbers in every array and object that it
takes, and the numbers in all other values are such as calculations result in. Main statement:
`Command.replays`.
-/

namespace StatVars

variable {c : Config} {p : Path} {args : List Command.Argument}

/-! ## Arguments that are read alike -/

namespace Change

variable {f g : Command.Argument → Command.Argument}
  (h : ∀ arg ∈ args, (f arg).resolve c.literals = (g arg).resolve c.literals)

include h

theorem resolve_congr {arg : Command.Argument} (harg : arg ∈ args) :
    resolve c (f arg) = resolve c (g arg) := by
  rw [resolve, resolve, h arg harg]

theorem resolveValue_congr {arg : Command.Argument} (harg : arg ∈ args) (refusal : String) :
    resolveValue c p (f arg) refusal = resolveValue c p (g arg) refusal := by
  rw [resolveValue, resolveValue, resolve_congr h harg]

theorem deltaOf_congr : deltaOf c (args.map f) = deltaOf c (args.map g) := by
  cases args with
  | nil => rfl
  | cons arg args => exact resolve_congr h (.head _)

theorem set_congr : set c p (args.map f) = set c p (args.map g) := by
  rw [set, set, List.getLast?_map, List.getLast?_map]
  cases harg : args.getLast? with
  | none => rfl
  | some arg => simp only [Option.map_some, resolve_congr h (List.mem_of_getLast? harg)]

theorem delete_congr : delete c p (args.map f) = delete c p (args.map g) := by
  cases args with
  | nil => rfl
  | cons arg args =>
    simp only [delete, List.map_cons, List.head?_cons, resolveValue_congr h (.head _)]

theorem add_congr : add c p (args.map f) = add c p (args.map g) := by
  simp only [add, deltaOf_congr h, List.isEmpty_map]

theorem insert_congr : insert c p (args.map f) = insert c p (args.map g) := by
  match args, h with
  | [], _ => rfl
  | [v], h =>
    have hv := resolveValue_congr (p := p) h (.head _) "undefined cannot be stored here"
    simp only [insert, List.map_cons, List.map_nil, hv]
  | [k, v], h =>
    have hk := resolveValue_congr (p := p) h (.head _) "undefined cannot be stored here"
    have hv := resolveValue_congr (p := p) h (.tail _ (.head _)) "undefined cannot be stored here"
    simp only [insert, List.map_cons, List.map_nil, hk, hv]
  | _ :: _ :: _ :: _, _ => rfl

end Change

/-- Two commands that differ in nothing but arguments that are read alike make the same attempt. -/
theorem Command.attempt_congr {command : Command} {f g : Argument → Argument}
    (h : ∀ arg ∈ command.args, (f arg).resolve c.literals = (g arg).resolve c.literals) :
    attempt c { command with args := command.args.map f } p =
      attempt c { command with args := command.args.map g } p := by
  rw [attempt, attempt]
  cases command.kind with
  | set => exact Change.set_congr h
  | add => exact Change.add_congr h
  | delete => exact Change.delete_congr h
  | insert => exact Change.insert_congr h

/-- The same came of two commands: the changed bundle, the path and the outcome. -/
def Command.SameEffect (r r' : Bundle × Result) : Prop :=
  r.1 = r'.1 ∧ r.2.path = r'.2.path ∧ r.2.outcome = r'.2.outcome

theorem Bundle.applyOne_congr (b : Bundle) {command : Command}
    {f g : Command.Argument → Command.Argument}
    (h : ∀ arg ∈ command.args, (f arg).resolve c.literals = (g arg).resolve c.literals) :
    Command.SameEffect (b.applyOne c { command with args := command.args.map f })
      (b.applyOne c { command with args := command.args.map g }) := by
  have hrun : (b.run c { command with args := command.args.map f }).1 =
        (b.run c { command with args := command.args.map g }).1 ∧
      (b.run c { command with args := command.args.map f }).2.path =
        (b.run c { command with args := command.args.map g }).2.path ∧
      (b.run c { command with args := command.args.map f }).2.outcome =
        (b.run c { command with args := command.args.map g }).2.outcome := by
    unfold Variables.run
    dsimp only
    split
    · exact ⟨rfl, rfl, rfl⟩
    · rw [Command.attempt_congr h]
      split <;> exact ⟨rfl, rfl, rfl⟩
  exact ⟨congrArg b.next hrun.1, hrun.2⟩

/-! ## Reading what was written -/

namespace Command

/-- The argument as it is read from its text. -/
def Argument.restored : Argument → Argument
  | source text => source text
  | literal l => literal l.restored

/-- The command with its arguments as they are read from their texts. -/
def restored (command : Command) : Command :=
  { command with args := command.args.map Argument.restored }

/-- The command with the texts of its arguments, which is what a record of it has. -/
def ofSources (command : Command) : Command :=
  { command with args := command.args.map fun arg => .source arg.toSource }

theorem depth_toJson_le (command : Command) : command.toJson.depth ≤ Json.maxDepth := by
  have hargs : (Json.arr (command.args.map fun arg => .str arg.toSource)).depth ≤ 1 := by
    refine Nat.succ_le_succ (Json.depthItems_le.2 fun v hv => ?_)
    obtain ⟨arg, -, rfl⟩ := List.mem_map.1 hv
    exact Nat.le_refl 0
  have hfields : command.toJson.depth ≤ 2 := by
    refine Nat.succ_le_succ (Json.depthFields_le.2 ?_)
    cases command.reason with
    | none => simpa [Json.depth] using hargs
    | some reason => simpa [Json.depth] using hargs
  exact Nat.le_trans hfields (by decide)

/-- Values are written as texts, so there are no numbers in a record of a command. -/
theorem numbers_toJson (command : Command) : command.toJson.numbers = [] := by
  have hargs : Json.itemNumbers (command.args.map fun arg => .str arg.toSource) = [] := by
    refine List.eq_nil_iff_forall_not_mem.2 fun n hn => ?_
    obtain ⟨v, hv, hn⟩ := Json.mem_itemNumbers.1 hn
    obtain ⟨arg, -, rfl⟩ := List.mem_map.1 hv
    cases hn
  rw [toJson, Json.numbers]
  cases command.reason <;> simp [Json.fieldNumbers, Json.numbers, hargs]

/-- A command is written as a record whose fields say what it is. -/
theorem exists_toJson (command : Command) : ∃ fields, command.toJson = .obj fields ∧
    (∀ f ∈ fields, f.1 ∈ fieldNames) ∧ (Table.keys fields).Nodup ∧
    ofFields? fields = some command.ofSources := by
  have hkind : Kind.ofName? command.kind.name = some command.kind := by
    cases command.kind <;> rfl
  have hargs : (command.args.map fun arg => Json.str arg.toSource).mapM Json.asStr? =
      some (command.args.map Argument.toSource) := by
    rw [← Json.mapM_asStr?, List.map_map]
    rfl
  refine ⟨_, rfl, ?_⟩
  cases hreason : command.reason with
  | none | some reason =>
    simp [fieldNames, Table.keys, ofFields?, Table.get?_cons, Json.choiceName?, hkind,
      Json.asStr?, Json.asArr?, hargs, reason?, Json.orNull?, ofSources, hreason]

/-- **A command that is written is read back with the texts of its arguments.** -/
theorem read?_write (command : Command) :
    read? command.toJson.write = some command.ofSources := by
  obtain ⟨fields, hfields, hnames, hkeys, hread⟩ := command.exists_toJson
  have hdepth : (Json.obj fields).depth ≤ Json.maxDepth := hfields ▸ command.depth_toJson_le
  have hnumbers : Json.mapFields Number.reread fields = fields := by
    have hnil : (Json.obj fields).numbers = [] := hfields ▸ command.numbers_toJson
    refine (Json.mapFields_eq_self _ _).2 fun n hn => ?_
    rw [Json.numbers] at hnil
    rw [hnil] at hn
    cases hn
  rw [read?, hfields, Json.readRecord?_write hnames hkeys, if_pos hdepth, hnumbers]
  exact hread

theorem restored_eq_self {command : Command} :
    command.restored = command ↔ ∀ arg ∈ command.args, arg.restored = arg := by
  have hargs : command.restored = command ↔ command.args.map Argument.restored = command.args :=
    ⟨congrArg Command.args, fun h => by rw [restored, h]⟩
  rw [hargs]
  simpa using List.map_inj_left (l := command.args) (f := Argument.restored) (g := id)

/-- **A command that is recorded does what it did, with its values as their texts are read.** So its
effect is the same if its values are what their texts stand for. Arrays and objects that the reader
of JSON texts takes are, just if it reads back each number in them; other values are, just if each
number in them is one that a calculation results in. -/
theorem replays (c : Config) (command : Command)
    (hvalues : ∀ v, .literal (.value v) ∈ command.args →
      (v.Regular fun _ => True) ∧ v.depth ≤ c.maxLiteralDepth) :
    ∃ recorded, read? command.toJson.write = some recorded ∧
      (∀ b : Bundle, SameEffect (b.applyOne c recorded) (b.applyOne c command.restored)) ∧
      (command.restored = command ↔ ∀ v, .literal (.value v) ∈ command.args → ∀ n ∈ v.numbers,
        if v.isScalar = false ∧ v.depth ≤ Json.maxDepth then n.ReadsBack else n.IsResult) := by
  refine ⟨_, command.read?_write, fun b => b.applyOne_congr fun arg harg => ?_, ?_⟩
  · cases arg with
    | source text => rfl
    | literal l =>
      refine Literal.parse_toSource fun v hv => ?_
      subst hv
      exact hvalues v harg
  · rw [restored_eq_self]
    refine ⟨fun h v hv => ?_, fun h arg harg => ?_⟩
    · exact Literal.restored_eq_self.1 (Argument.literal.inj (h _ hv))
    · cases arg with
      | source text => rfl
      | literal l =>
        cases l with
        | undefined => rfl
        | value v => exact congrArg Argument.literal (Literal.restored_eq_self.2 (h v harg))

/-- A number that no calculation results in is another one when the command is read back, but not
if the number is in an array. The number next to `1.4` becomes `1.4` there, since the reader of JSON
texts takes it for that, and by itself it is read back. -/
theorem replays_number :
    let n : Json := .ofNat 9007199254740993
    let x : Json := .num (.float ⟨false, 6305039478318695, 1022, by decide, by decide, by decide⟩)
    let y : Json := .num (.float ⟨false, 6305039478318694, 1022, by decide, by decide, by decide⟩)
    let write (v : Json) : Command := ⟨.set, "x", [.literal (.value v)], none⟩
    (∃ recorded, read? (write n).toJson.write = some recorded ∧
      (({} : Bundle).applyOne {} recorded).1.data ≠
        (({} : Bundle).applyOne {} (write n)).1.data) ∧
    (∃ recorded, read? (write (.arr [x])).toJson.write = some recorded ∧
      ∀ b : Bundle, SameEffect (b.applyOne {} recorded) (b.applyOne {} (write (.arr [y])))) ∧
    ∀ v ∈ [.arr [n], x], ∃ recorded, read? (write v).toJson.write = some recorded ∧
      ∀ b : Bundle, SameEffect (b.applyOne {} recorded) (b.applyOne {} (write v)) := by
  intro n x y write
  have hvalues {v : Json} (h : v.mergeRepeated = v) (hdepth : v.depth ≤ 64) :
      ∀ w, .literal (.value w) ∈ (write v).args →
        (w.Regular fun _ => True) ∧ w.depth ≤ ({} : Config).maxLiteralDepth := by
    intro w hw
    cases List.mem_singleton.1 hw
    exact ⟨Json.regular_of_mergeRepeated h, hdepth⟩
  refine ⟨?_, ?_, ?_⟩
  · obtain ⟨recorded, hread, heffect, -⟩ := replays {} (write n) (hvalues rfl (by decide))
    refine ⟨recorded, hread, ?_⟩
    rw [(heffect {}).1]
    decide +kernel
  · obtain ⟨recorded, hread, heffect, -⟩ :=
      replays {} (write (.arr [x])) (hvalues rfl (by decide))
    have hreread : (Json.arr [x]).reread = .arr [y] := by decide +kernel
    have hrestored : (write (.arr [x])).restored = write (.arr [y]) := congrArg write hreread
    rw [hrestored] at heffect
    exact ⟨recorded, hread, heffect⟩
  · have hkept : ∀ v ∈ [.arr [n], x], v.mergeRepeated = v ∧ v.depth ≤ 64 ∧ ∀ n ∈ v.numbers,
        if v.isScalar = false ∧ v.depth ≤ Json.maxDepth then n.ReadsBack else n.IsResult := by
      decide +kernel
    intro v hv
    obtain ⟨hmerged, hdepth, hnumbers⟩ := hkept v hv
    obtain ⟨recorded, hread, heffect, hself⟩ := replays {} (write v) (hvalues hmerged hdepth)
    have hrestored : (write v).restored = write v := by
      refine hself.2 fun w hw => ?_
      cases List.mem_singleton.1 hw
      exact hnumbers
    rw [hrestored] at heffect
    exact ⟨recorded, hread, heffect⟩

end Command

end StatVars
