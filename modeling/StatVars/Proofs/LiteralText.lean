import StatVars.Literal.Parser
import StatVars.Proofs.RelaxedText

/-!
# Literals and their texts

A literal that is read from a text is written as a text that is read as the same literal, under the
same options. It need not be read by the same rule: the result of an operation is written as a
number, a text that stands for itself as a string between quotes, and what was in the relaxed
notation as a JSON text, unless it is nested too deep for the reader of these. That reader
calculates numbers, so it has to read back those of the literal that it calculates. A literal that
comes from elsewhere may have numbers that no calculation results in, which the other rules read as
those that one does. Main statements: `Literal.parse_toSource`, `Literal.parse_toSource_of_parse`.
-/

namespace StatVars

open Fallible Text

namespace Literal

variable {options : Options} {v : Json} {l : Literal} {s : List Char} {limit : Nat}

/-- The literals that texts stand for. An array or an object comes from one of the two readers, of
which the one of JSON texts takes numbers that no calculation results in, and the other one goes
deeper. -/
inductive Readable (options : Options) : Literal → Prop
  | undefined : Readable options .undefined
  | scalar {v : Json} (hv : v.isScalar) (h : v.Regular Number.IsResult) :
    Readable options (.value v)
  | strict {v : Json} (hv : v.isScalar = false) (hdepth : v.depth ≤ options.maxDepth)
    (hlimit : v.depth ≤ Json.maxDepth) (h : v.Regular fun _ => True) : Readable options (.value v)
  | relaxed {v : Json} (hv : v.isScalar = false) (hdepth : v.depth ≤ options.maxDepth)
    (h : v.Regular Number.IsResult) : Readable options (.value v)

/-! ## What is read -/

theorem readable_of_parseStructure (hs : s.head? = some '\x7b' ∨ s.head? = some '[')
    (h : parseStructure options.maxDepth s = .ok v) : Readable options (.value v) := by
  unfold parseStructure at h
  split at h
  · next w hw =>
    split at h
    · cases h
    · next hdepth =>
      cases h
      exact .strict (Json.isScalar_of_read? hs hw) (Nat.le_of_not_lt hdepth)
        (Json.depth_le_of_read? hw) (Json.regular_of_read? hw)
  · obtain ⟨hdepth, hregular⟩ := Relaxed.regular_of_parse h
    exact .relaxed (Relaxed.isScalar_of_parse hs h) hdepth hregular

theorem readable_of_numberValue {x : Binary64} (h : numberValue x = .ok v) :
    Readable options (.value v) := by
  obtain ⟨n, hn, rfl⟩ := exists_of_numberValue h
  refine .scalar rfl (.scalar rfl ?_)
  rintro _ ⟨⟩
  exact hn

theorem readable_of_parseTrimmed (h : parseTrimmed options s = .ok l) : Readable options l := by
  have hword {v : Json} (hv : v.isScalar) (hnum : ∀ n, v ≠ .num n) : Readable options (.value v) :=
    .scalar hv (.scalar hv fun n hn => absurd hn (hnum n))
  unfold parseTrimmed at h
  -- The words.
  split at h
  · cases h
    exact hword rfl (by simp)
  split at h
  · cases h
    exact hword rfl (by simp)
  split at h
  · cases h
    exact hword rfl (by simp)
  split at h
  · cases h
    exact .undefined
  -- A number, an array or an object, and a string between quotes.
  split at h
  · obtain ⟨v, hv, rfl⟩ := exists_of_map_ok h
    exact readable_of_numberValue hv
  split at h
  · next hs =>
    obtain ⟨v, hv, rfl⟩ := exists_of_map_ok h
    exact readable_of_parseStructure (by simpa using hs) hv
  split at h
  · cases h
    exact hword rfl (by simp)
  -- An operation, and the text itself.
  split at h
  · obtain ⟨v, hv, rfl⟩ := exists_of_map_ok h
    obtain ⟨x, -, hx⟩ := exists_of_bind_ok hv
    exact readable_of_numberValue hx
  split at h
  · cases h
    exact hword rfl (by simp)
  · cases h

theorem readable_of_parse {source : String} (h : parse options source = .ok l) :
    Readable options l := by
  unfold parse at h
  dsimp only at h
  split at h
  · cases h
  · exact readable_of_parseTrimmed h

/-! ## Reading what was written -/

/-- A number has neither blanks nor the text of a word. -/
theorem parse_number (n : Number) :
    parse options n.toText = .ok (.value (.num n.rounded)) := by
  obtain ⟨m, htext, hvalue⟩ := n.exists_numeral
  have hblank : ∀ c ∈ m.text, isBlank c = false := fun c hc =>
    Relaxed.not_isBlank_of_inScalar (Relaxed.inScalar_of_isPart (m.isPart_of_mem_text c hc))
  have htrim : trim m.text = m.text := by
    refine trim_of_ends (fun c hc => hblank c (List.mem_of_mem_head? hc)) fun c hc => hblank c ?_
    exact List.mem_reverse.1 (List.mem_of_mem_head? hc)
  have hne : m.text.isEmpty = false := by
    obtain ⟨c, t, hcons, -⟩ := m.exists_text_cons
    rw [hcons]
    rfl
  obtain ⟨htrue, hfalse, hnull, hundefined⟩ := Relaxed.text_ne_words m
  simp only [parse, ← htext, htrim, hne, Bool.false_eq_true, if_false, parseTrimmed, htrue, hfalse,
    hnull, hundefined, m.ofNumeral?_text, hvalue,
    numberValue_of_ofBinary64? n.ofBinary64?_toBinary64]
  rfl

/-- What is nested too deep for the reader of JSON texts is left to the relaxed one, which rounds
its numbers. -/
theorem parseStructure_write {P : Number → Prop} (h : v.Regular P) (hdepth : v.depth ≤ limit) :
    parseStructure limit v.write =
      .ok (if v.depth ≤ Json.maxDepth then v.reread else v.rounded) := by
  rw [parseStructure, h.read?_write]
  by_cases hstrict : v.depth ≤ Json.maxDepth
  · rw [if_pos hstrict, if_pos hstrict]
    exact if_neg (Nat.not_lt.2 (Json.depth_mapNumbers Number.reread v ▸ hdepth))
  · rw [if_neg hstrict, if_neg hstrict]
    exact Relaxed.parse_write h hdepth

/-- An array or an object is read by the rule for them. -/
theorem parse_container (hv : v.isScalar = false) :
    parse options v.toText = (parseStructure options.maxDepth v.write).map .value := by
  cases v with
  | arr items =>
    have htrim : trim (Json.arr items).write = (Json.arr items).write :=
      trim_eq_self (by decide) (by decide)
    rw [parse, Json.toText, String.toList_ofList, htrim, Json.write, List.cons_append]
    simp [parseTrimmed, Decimal.ofNumeral?, Decimal.takeNumeral?, Decimal.takeSign]
  | obj fields =>
    have htrim : trim (Json.obj fields).write = (Json.obj fields).write :=
      trim_eq_self (by decide) (by decide)
    rw [parse, Json.toText, String.toList_ofList, htrim, Json.write, List.cons_append]
    simp [parseTrimmed, Decimal.ofNumeral?, Decimal.takeNumeral?, Decimal.takeSign]
  | _ => cases hv

/-- What the text of a literal stands for. In a container that the reader of JSON texts takes the
numbers are as this reader reads their texts, and elsewhere they are rounded. -/
def restored : Literal → Literal
  | undefined => undefined
  | value v =>
    .value (if v.isScalar = false ∧ v.depth ≤ Json.maxDepth then v.reread else v.rounded)

theorem parse_toSource (h : ∀ v, l = .value v →
    (v.Regular fun _ => True) ∧ v.depth ≤ options.maxDepth) :
    parse options l.toSource = .ok l.restored := by
  cases l with
  | undefined => rfl
  | value v =>
    obtain ⟨hregular, hdepth⟩ := h v rfl
    cases v with
    | null => rfl
    | bool b => cases b <;> rfl
    | num n =>
      show parse options (.ofList n.toText.toList) = _
      rw [String.ofList_toList]
      exact parse_number n
    | str t => exact parse_writeString options t
    | arr items =>
      rw [toSource, parse_container rfl, parseStructure_write hregular hdepth, restored]
      simp only [Json.isScalar, true_and]
      rfl
    | obj fields =>
      rw [toSource, parse_container rfl, parseStructure_write hregular hdepth, restored]
      simp only [Json.isScalar, true_and]
      rfl

theorem Readable.regular (h : Readable options (.value v)) :
    (v.Regular fun _ => True) ∧ v.depth ≤ options.maxDepth := by
  cases h with
  | scalar hv h =>
    exact ⟨h.mono fun _ _ => trivial, Json.depth_of_isScalar hv ▸ Nat.zero_le _⟩
  | strict _ hdepth _ h => exact ⟨h, hdepth⟩
  | relaxed _ hdepth h => exact ⟨h.mono fun _ _ => trivial, hdepth⟩

/-- **A literal is what its text stands for just if its numbers are.** -/
theorem restored_eq_self : restored (.value v) = .value v ↔ ∀ n ∈ v.numbers,
    if v.isScalar = false ∧ v.depth ≤ Json.maxDepth then n.ReadsBack else n.IsResult := by
  rw [restored, value.injEq]
  split
  · simp only [Json.reread, Json.mapNumbers_eq_self, Number.readsBack_iff]
  · exact Json.rounded_eq_self

/-- What is read from a text is what the text of it stands for just if the reader of JSON texts, if
it takes that text, reads the numbers back. -/
theorem Readable.restored_eq_self_iff (h : Readable options (.value v)) :
    restored (.value v) = .value v ↔
      (v.isScalar = false → v.depth ≤ Json.maxDepth → ∀ n ∈ v.numbers, n.ReadsBack) := by
  rw [restored_eq_self]
  by_cases hstrict : v.isScalar = false ∧ v.depth ≤ Json.maxDepth
  · simp only [hstrict.1, hstrict.2, and_self, if_true, forall_const]
  · have hresult : ∀ n ∈ v.numbers, n.IsResult := by
      cases h with
      | scalar _ h => exact h.numbers
      | strict hv _ hlimit => exact absurd ⟨hv, hlimit⟩ hstrict
      | relaxed _ _ h => exact h.numbers
    simp only [if_neg hstrict]
    exact iff_of_true hresult fun hv hlimit => absurd ⟨hv, hlimit⟩ hstrict

theorem Readable.parse_toSource (h : Readable options l)
    (hback : ∀ v, l = .value v → v.isScalar = false → v.depth ≤ Json.maxDepth →
      ∀ x, .float x ∈ v.numbers → (Number.float x).ReadsBack) :
    parse options l.toSource = .ok l := by
  have hrestored : l.restored = l := by
    cases l with
    | undefined => rfl
    | value v =>
      refine h.restored_eq_self_iff.2 fun hv hlimit n hn => ?_
      cases n with
      | int k hk => exact Number.readsBack_int k hk
      | float x => exact hback v rfl hv hlimit x hn
  rw [Literal.parse_toSource fun v hv => (hv ▸ h).regular, hrestored]

/-- **A literal that is read from a text is read back from the text that it is written as**, if the
reader of JSON texts, where it takes that text, reads back the numbers in double precision. -/
theorem parse_toSource_of_parse {source : String} (h : parse options source = .ok l)
    (hback : ∀ v, l = .value v → v.isScalar = false → v.depth ≤ Json.maxDepth →
      ∀ x, .float x ∈ v.numbers → (Number.float x).ReadsBack) :
    parse options l.toSource = .ok l :=
  (readable_of_parse h).parse_toSource hback

/-- Single quotes, a key without quotes, a sign and a comma behind the last part are read, and not
written. -/
theorem parse_toSource_of_parse_relaxed :
    let v : Json := .obj [("name", .str "it's"), ("tags", .arr [.num (.ofNat 7),
      .num (.float ⟨false, 4503599627370496, 1021, by decide, by decide, by decide⟩), .null])]
    parse ⟨2, false⟩ "\x7bname: 'it\\'s', 'tags': [+7.0, 0.5, undefined,],\x7d" = .ok (.value v) ∧
      (∀ n ∈ v.numbers, n.ReadsBack) ∧
      parse ⟨2, false⟩ (toSource (.value v)) = .ok (.value v) ∧
      toSource (.value v) = "\x7b\"name\":\"it's\",\"tags\":[7,0.5,null]\x7d" := by
  intro v
  have hread : (parse ⟨2, false⟩
      "\x7bname: 'it\\'s', 'tags': [+7.0, 0.5, undefined,],\x7d").toOption = some (.value v) := by
    decide +kernel
  have hok {r : Except SyntaxError Literal} (h : r.toOption = some (.value v)) :
      r = .ok (.value v) := by
    cases r with
    | ok a => exact congrArg Except.ok (Option.some.inj h)
    | error e => cases h
  have hnumbers : ∀ n ∈ v.numbers, n.ReadsBack := by decide +kernel
  have hback : ∀ w, value v = .value w → w.isScalar = false → w.depth ≤ Json.maxDepth →
      ∀ x, .float x ∈ w.numbers → (Number.float x).ReadsBack := by
    intro w hw _ _ x hx
    cases value.inj hw
    exact hnumbers _ hx
  exact ⟨hok hread, hnumbers, parse_toSource_of_parse (hok hread) hback, by decide +kernel⟩

end Literal

end StatVars
