import StatVars.Proofs.Independence
import StatVars.Proofs.NumberText
import StatVars.Proofs.Regular
import StatVars.Proofs.WholeNumbers

/-!
# When adding whole numbers is exact

`add` calculates in double precision and rounds to the significant digits of the configuration. For
whole numbers below `2 ^ 53` in size, that is all that can alter the sum: what is stored is the sum
just if it has no more significant digits than are kept, and then it is stored as an integer. Main
statement: `Variables.run_add_isWhole_iff`.
-/

namespace StatVars

variable {k : Int}

/-! ## Whole numbers in documents -/

namespace Number

variable {n m : Number} {x : Finite}

/-- The number has this whole value, as an integer or in double precision. -/
def IsWhole : Number → Int → Prop
  | int j _, k => j = k
  | float x, k => x.IsWhole k

theorem IsWhole.toBinary64 (h : n.IsWhole k) (hk : k.natAbs < 9007199254740992) :
    ∃ x, n.toBinary64 = .finite x ∧ x.IsWhole k := by
  cases n with
  | float x => exact ⟨x, rfl, h⟩
  | int j _ =>
    obtain rfl : j = k := h
    obtain ⟨x, hx, hnegative, hmagnitude⟩ := Binary64.ofRatio_whole (decide (j < 0)) hk
    exact ⟨x, hx, Finite.isWhole_of hnegative hmagnitude⟩

/-- What stores a result has the value of the result. -/
theorem isWhole_of_ofBinary64? (h : ofBinary64? (.finite x) = some m) :
    m.IsWhole k ↔ x.IsWhole k := by
  cases m with
  | float y =>
    obtain rfl := eq_of_ofBinary64?_float h
    exact Iff.rfl
  | int j _ =>
    have hj := toInt?_of_ofBinary64?_int h
    rw [← Finite.toInt?_eq_some_iff, hj, Option.some_inj]
    rfl

/-- A whole result below `2 ^ 53` in size is stored as an integer. -/
theorem eq_int_of_ofBinary64? (h : ofBinary64? (.finite x) = some m) (hx : x.IsWhole k)
    (hk : k.natAbs < 9007199254740992) : ∃ fits, m = .int k fits := by
  simp only [ofBinary64?, Finite.toInt?_eq_some_iff.2 hx, hk, dite_true] at h
  exact ⟨_, (Option.some.inj h).symm⟩

/-- **The rounded sum of whole numbers below `2 ^ 53` in size can be stored. It is their sum just if
that has no more digits than are kept, and then it is an integer.** -/
theorem IsWhole.exists_sum {y : Finite} {a b : Int} (hn : n.IsWhole a) (hy : y.IsWhole b)
    (ha : a.natAbs < 9007199254740992) (hsum : (a + b).natAbs < 9007199254740992) (d : Nat) :
    ∃ m, ofBinary64? ((n.toBinary64.add (.finite y)).roundTo d) = some m ∧
      (m.IsWhole (a + b) ↔ d = 0 ∨ significantDigits (a + b) ≤ d) ∧
      (m.IsWhole (a + b) → ∃ fits, m = .int (a + b) fits) := by
  obtain ⟨x, hx, hxa⟩ := hn.toBinary64 ha
  obtain ⟨z, hz, hzsum⟩ := Finite.add_isWhole hxa hy hsum
  obtain ⟨w, hw, hiff⟩ := Finite.roundTo_isWhole_iff hzsum hsum d
  obtain ⟨m, hm⟩ := exists_ofBinary64?_finite w
  have hround : (n.toBinary64.add (.finite y)).roundTo d = .finite w := by
    rw [hx, Binary64.add, hz, Binary64.roundTo, hw]
  have hvalue := isWhole_of_ofBinary64? (k := a + b) hm
  refine ⟨m, hround ▸ hm, hvalue.trans hiff, fun h => ?_⟩
  exact eq_int_of_ofBinary64? hm (hvalue.1 h) hsum

end Number

/-! ## Variables that hold a number -/

namespace Json

variable {v old : Json} {m : Number}

/-- What a variable holds: the scalar of a described value, else the value itself. -/
def held (v : Json) : Json :=
  v.described?.getD v

/-- The variable with something else in the place of what it holds. -/
def withHeld (v w : Json) : Json :=
  if v.isDescribed then v.setDescribed w else w

/-- A number as the scalar keeps a value described. -/
theorem described?_setDescribed_num (h : v.isDescribed) (m : Number) :
    (v.setDescribed (.num m)).described? = some (.num m) := by
  obtain ⟨place, text, h⟩ := isDescribed_iff.1 h
  cases h with
  | pair => rfl
  | @record fields _ _ hlength hvalue _ htext =>
    have hmem : "value" ∈ Table.keys fields := by
      refine Decidable.byContradiction fun hnone => ?_
      rw [Table.get?_eq_none_iff.2 hnone] at hvalue
      cases hvalue
    have hkeys := congrArg List.length (Table.keys_insert_of_mem (Json.num m) hmem)
    have hlength' : (Table.insert fields "value" (.num m)).length = 2 := by
      simpa [Table.keys, hlength] using hkeys
    have htext' : Table.get? (Table.insert fields "value" (.num m)) "description" =
        some (.str text) := by
      rw [Table.get?_insert, if_neg (by decide), htext]
    simp only [setDescribed, described?, hlength', Table.get?_insert_self, htext']
    rfl

theorem held_withHeld_num (v : Json) (m : Number) : (v.withHeld (.num m)).held = .num m := by
  unfold withHeld held
  split
  · next h => rw [described?_setDescribed_num h, Option.getD_some]
  · rfl

theorem isDescribed_withHeld_num (v : Json) (m : Number) :
    (v.withHeld (.num m)).isDescribed = v.isDescribed := by
  unfold withHeld
  split
  · next h => rw [h, isDescribed, described?_setDescribed_num h, Option.isSome_some]
  · next h => exact (Bool.eq_false_iff.2 h).symm

theorem Avoids.withHeld_num {k : String} (h : v.Avoids k) (m : Number) :
    (v.withHeld (.num m)).Avoids k := by
  unfold withHeld
  split
  · next hdescribed =>
    obtain ⟨old, hold⟩ := Option.isSome_iff_exists.1 hdescribed
    exact (hereditary_avoids k).setDescribed h hold (.scalar rfl)
  · exact .scalar rfl

/-- An array that holds a number is described. -/
theorem isDescribed_of_held {n : Number} (h : v.held = .num n) :
    ∀ items, v = .arr items → v.isDescribed := by
  rintro items rfl
  cases hslot : (arr items).described? with
  | some old => rw [isDescribed, hslot, Option.isSome_some]
  | none => cases (congrArg (Option.getD · (arr items)) hslot).symm.trans h

/-- The value is a number of this whole value or a text that writes one. -/
inductive Writes : Json → Int → Prop
  | num {n : Number} {k : Int} (h : n.IsWhole k) : Writes (.num n) k
  | str {s : String} {x : Finite} {k : Int} (hs : (Json.str s).asNumber? = some x)
      (hx : x.IsWhole k) : Writes (.str s) k

theorem Writes.asNumber? (h : v.Writes k) (hk : k.natAbs < 9007199254740992) :
    ∃ x, v.asNumber? = some x ∧ x.IsWhole k := by
  cases h with
  | num hn =>
    obtain ⟨x, hx, hwhole⟩ := hn.toBinary64 hk
    exact ⟨x, congrArg Binary64.toFinite? hx, hwhole⟩
  | str hs hx => exact ⟨_, hs, hx⟩

end Json

/-! ## Adding -/

open Json

variable {c : Config} {p : Path} {vars : Variables} {current w : Json} {n m : Number}
  {amount : Finite}

theorem Change.shifted_num {precision : Nat}
    (hm : Number.ofBinary64? ((n.toBinary64.add (.finite amount)).roundTo precision) = some m) :
    shifted precision p (.num n) amount = .ok (.num m) := by
  simp only [shifted, Literal.numberValue, hm]
  rfl

/-- A shift puts the rounded sum in the place of the number. -/
theorem Change.shiftAt_num {precision : Nat} {data : Json} (hheld : current.held = .num n)
    (hm : Number.ofBinary64? ((n.toBinary64.add (.finite amount)).roundTo precision) = some m)
    (hdata : vars.data.replace? p (current.withHeld (.num m)) = some data) :
    shiftAt precision p current amount vars =
      (.ok ⟨p, some (.num n), some (.num m)⟩, { vars with data }) := by
  unfold shiftAt
  cases hslot : current.described? with
  | some old =>
    obtain rfl : old = .num n := by simpa [held, hslot] using hheld
    rw [withHeld, if_pos (by rw [isDescribed, hslot, Option.isSome_some])] at hdata
    dsimp only
    rw [shifted_num hm]
    exact overwrite_bind_apply hdata _
  | none =>
    obtain rfl : current = .num n := by simpa [held, hslot] using hheld
    dsimp only
    rw [shifted_num hm]
    exact overwrite_bind_apply hdata _

theorem Change.add_num {args : List Command.Argument} {data : Json}
    (hdelta : deltaOf c args = .ok (.value w)) (hamount : w.asNumber? = some amount)
    (hget : vars.data.get? p = some current) (hheld : current.held = .num n)
    (hm : Number.ofBinary64? ((n.toBinary64.add (.finite amount)).roundTo c.precision) = some m)
    (hdata : vars.data.replace? p (current.withHeld (.num m)) = some data) :
    add c p args vars = (.ok ⟨p, some (.num n), some (.num m)⟩, { vars with data }) := by
  rw [add_eq_shiftBy hdelta hget (isDescribed_of_held hheld), shiftBy, Literal.toValue?,
    Option.bind_some, hamount]
  exact shiftAt_num hheld hm hdata

/-- The command has put the number `m` in the place of the number `n` that the value at the path
held. Nothing else in the document has changed. -/
structure Command.Stores (command : Command) (c : Config) (p : Path) (vars : Variables)
    (n m : Number) (data : Json) : Prop where
  attempt : command.attempt c p vars =
    (.ok ⟨p, some (.num n), some (.num m)⟩, { vars with data })
  /-- A described value stays one, and its text stays. -/
  written : ∃ v, vars.data.get? p = some v ∧ v.held = .num n ∧
    (v.withHeld (.num m)).held = .num m ∧ (v.withHeld (.num m)).isDescribed = v.isDescribed ∧
    vars.data.replace? p (v.withHeld (.num m)) = some data
  result : (vars.run c command).2 =
    ⟨command, some p, .applied (some (.num n)) (some (.num m))⟩
  /-- Annotations elsewhere in the document may still take effect. -/
  data : vars.data.Avoids metaKey → (vars.run c command).1.data = data

namespace Variables

variable {command : Command} {old delta : Int}

theorem exists_stores_of_add (hkind : command.kind = .add)
    (hpath : Path.parse command.path = .ok p)
    (hdelta : Change.deltaOf c command.args = .ok (.value w)) (hamount : w.asNumber? = some amount)
    (hget : vars.data.get? p = some current) (hheld : current.held = .num n)
    (hm : Number.ofBinary64? ((n.toBinary64.add (.finite amount)).roundTo c.precision) = some m) :
    ∃ data, command.Stores c p vars n m data := by
  obtain ⟨data, hdata⟩ := exists_replace? hget (current.withHeld (.num m))
  have hattempt : command.attempt c p vars =
      (.ok ⟨p, some (.num n), some (.num m)⟩, { vars with data }) := by
    rw [Command.attempt, hkind]
    exact Change.add_num hdelta hamount hget hheld hm hdata
  have hrun := run_of_attempt_ok c vars hpath hattempt
  refine ⟨data, hattempt, ⟨current, hget, hheld, held_withHeld_num current m,
    isDescribed_withHeld_num current m, hdata⟩, by rw [hrun]; rfl, fun havoids => ?_⟩
  have hk := hereditary_avoids metaKey
  have hafter := hk.replace? havoids ((hk.get? havoids hget).withHeld_num m) hdata
  rw [hrun]
  exact Schema.reconcile_data hafter p

/-- **Adding whole numbers.** Where the number in a variable, the amount and their sum are whole
numbers below `2 ^ 53` in size, `add` stores a number, whether the variable is described or not.
That number is the sum just if the sum has no more significant digits than are kept, and then it is
stored as an integer. -/
theorem run_add_isWhole_iff (hkind : command.kind = .add)
    (hpath : Path.parse command.path = .ok p) (hget : vars.data.get? p = some current)
    (hheld : current.held = .num n) (hn : n.IsWhole old)
    (hdelta : Change.deltaOf c command.args = .ok (.value w)) (hw : w.Writes delta)
    (hold : old.natAbs < 9007199254740992) (hamount : delta.natAbs < 9007199254740992)
    (hsum : (old + delta).natAbs < 9007199254740992) :
    ∃ m data, command.Stores c p vars n m data ∧
      (m.IsWhole (old + delta) ↔
        c.precision = 0 ∨ significantDigits (old + delta) ≤ c.precision) ∧
      (m.IsWhole (old + delta) → ∃ fits, m = .int (old + delta) fits) := by
  obtain ⟨amount, hnumber, hwhole⟩ := hw.asNumber? hamount
  obtain ⟨m, hm, hexact, hint⟩ := hn.exists_sum hwhole hold hsum c.precision
  obtain ⟨data, hstores⟩ := exists_stores_of_add hkind hpath hdelta hnumber hget hheld hm
  exact ⟨m, data, hstores, hexact, hint⟩

/-- A time in milliseconds has 13 digits, one more than are kept by default. A second that is added
to it is seen, a millisecond is lost in rounding. -/
theorem run_add_isWhole_iff_milliseconds :
    let seen := Json.arr [.ofNat 1700000000000, .str "last seen"]
    let vars := (Bundle.ofDocument true (.obj [("seen", seen)])).toVariables
    let add (amount : Nat) : Command :=
      ⟨.add, "seen", [.literal (.value (.ofNat amount))], none⟩
    let after (amount : Nat) := (vars.run {} (add amount)).1.data.get? [.key "seen"]
    after 1000 = some (.arr [.ofNat 1700000001000, .str "last seen"]) ∧
      ∃ v m, after 1 = some v ∧ v.held = .num m ∧ ¬ m.IsWhole 1700000000001 := by
  intro seen vars add after
  have hpath : Path.parse "seen" = .ok [.key "seen"] := rfl
  have hget : vars.data.get? [.key "seen"] = some seen := rfl
  have hheld : seen.held = .num (.int 1700000000000 (by decide)) := rfl
  have hadd (amount : Nat) (hamount : amount < 1000000) :
      ∃ m, after amount = some (.arr [.num m, .str "last seen"]) ∧
        (m.IsWhole (1700000000000 + amount) ↔
          (12 : Nat) = 0 ∨ significantDigits (1700000000000 + amount) ≤ 12) ∧
        (m.IsWhole (1700000000000 + amount) →
          ∃ fits, m = .int (1700000000000 + amount) fits) := by
    have hnumber : Number.ofNat amount = .int amount (by omega) := dif_pos (by omega)
    have hvalue : Change.deltaOf {} (add amount).args =
        .ok (.value (.num (.int amount (by omega)))) :=
      congrArg (fun n => Except.ok (Literal.value (.num n))) hnumber
    obtain ⟨m, data, hstores, hexact⟩ := run_add_isWhole_iff rfl hpath hget hheld rfl hvalue
      (.num rfl) (by decide) (by omega) (by omega)
    obtain ⟨v, hv, -, -, -, hreplace⟩ := hstores.written
    cases hget.symm.trans hv
    refine ⟨m, ?_, hexact⟩
    change (vars.run {} (add amount)).1.data.get? _ = _
    rw [hstores.data (Json.stripMeta_avoids _), Json.get?_of_replace? hreplace]
    rfl
  constructor
  · obtain ⟨m, hafter, hexact, hint⟩ := hadd 1000 (by decide)
    obtain ⟨_, rfl⟩ := hint (hexact.2 (.inr (by decide +kernel)))
    exact hafter
  · obtain ⟨m, hafter, hexact, -⟩ := hadd 1 (by decide)
    exact ⟨_, m, hafter, rfl, mt hexact.1 (by decide +kernel)⟩

end Variables

end StatVars
