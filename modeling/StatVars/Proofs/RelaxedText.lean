import StatVars.Fallible
import StatVars.Literal.Relaxed
import StatVars.Proofs.JsonText

/-!
# Relaxed texts that are read back

The reader of the relaxed notation takes every regular value from its JSON text that is nested no
deeper than there is room for, with its numbers as results of calculations are stored. What it
accepts is regular and has such numbers. Main statements: `Relaxed.parse_write`,
`Relaxed.regular_of_parse`.
-/

namespace StatVars

open Fallible Text

namespace Json

/-- The value with its numbers as results of calculations are stored. -/
def rounded (v : Json) : Json :=
  v.mapNumbers Number.rounded

/-- Nothing is rounded in a value just if its numbers store results. -/
theorem rounded_eq_self {v : Json} : v.rounded = v ↔ ∀ n ∈ v.numbers, n.IsResult := by
  simp only [rounded, mapNumbers_eq_self, Number.isResult_iff]

end Json

namespace Literal

theorem numberValue_of_ofBinary64? {x : Binary64} {n : Number} (h : Number.ofBinary64? x = some n) :
    numberValue x = .ok (.num n) := by
  rw [numberValue, h]

theorem numberValue_nonFinite {x : Binary64} (h : x.toFinite? = none) :
    numberValue x = .error .nonFinite := by
  cases x with
  | finite x => cases h
  | infinite _ | nan => rfl

/-- A calculated value is a number that stores a result. -/
theorem exists_of_numberValue {x : Binary64} {v : Json} (h : numberValue x = .ok v) :
    ∃ n : Number, n.IsResult ∧ v = .num n := by
  unfold numberValue at h
  split at h
  · next n hn =>
    cases h
    exact ⟨n, ⟨x, hn⟩, rfl⟩
  · cases h

namespace Relaxed

variable {v : Json} {s rest : List Char} {total limit room fuel : Nat}

/-! ## Strings -/

theorem escaped_of_letterEscape? {e c : Char} (h : Json.letterEscape? e = some c) :
    escaped e = c := by
  unfold Json.letterEscape? at h
  unfold escaped
  grind

theorem codePoint_toNat (c : Char) : codePoint c.toNat = c := by
  have hvalid : c.toNat.isValidChar := c.valid
  rw [codePoint, if_pos hvalid, Char.ofNat_toNat]

theorem takeString_letter {c e : Char} (he : e ≠ 'u') (h : Json.letterEscape? e = some c)
    (s : List Char) : takeString total '"' ('\\' :: e :: s) =
      putFirst c (takeString total '"' s) := by
  rw [takeString]
  · rw [escaped_of_letterEscape? h]
  · rintro rfl
    exact absurd rfl he

theorem takeString_plain {c : Char} (hq : c ≠ '"') (hb : c ≠ '\\') (s : List Char) :
    takeString total '"' (c :: s) = putFirst c (takeString total '"' s) := by
  rw [takeString]
  · rw [if_neg hq]
  all_goals simp [hb]

theorem codePoint_eq {n : Nat} (hn : n < 65536) :
    codePoint n = if Json.isHalf n then '\ufffd' else Char.ofNat n := by
  have hvalid : n.isValidChar ↔ Json.isHalf n = false := by
    simp only [Nat.isValidChar, Json.isHalf, Json.isHighHalf, Json.isLowHalf,
      Bool.or_eq_false_iff, Bool.and_eq_false_iff, decide_eq_false_iff_not]
    omega
  rw [codePoint]
  cases hhalf : Json.isHalf n with
  | true => rw [if_neg (by simp [hvalid, hhalf]), if_pos rfl]
  | false => rw [if_pos (hvalid.2 hhalf), if_neg Bool.false_ne_true]

theorem takeString_unicode {a b c d : Char} {n : Nat} (h : Json.hex4? a b c d = some n)
    (s : List Char) : takeString total '"' ('\\' :: 'u' :: a :: b :: c :: d :: s) =
      putFirst (codePoint n) (takeString total '"' s) := by
  obtain ⟨-, hlength, hplus⟩ := Json.hex4?_eq_some h
  have htake := takeBytes_append [a, b, c, d] s
  rw [hlength] at htake
  have hnamed : namedChar? a b c d = some (codePoint n) := by
    rw [namedChar?, if_neg (by simpa using hplus), h, Option.map_some]
  simp only [List.cons_append, List.nil_append] at htake
  rw [takeString, htake, if_neg (not_not_intro hlength)]
  simp only [hnamed]

theorem takeString_control {c : Char} (h : c.toNat < 32) (s : List Char) :
    takeString total '"' ('\\' :: 'u' :: (Json.controlDigits c.toNat ++ s)) =
      putFirst c (takeString total '"' s) := by
  rw [Json.controlDigits, List.cons_append, List.cons_append, List.cons_append, List.cons_append,
    List.nil_append, takeString_unicode (Json.hex4?_controlDigits _ h), codePoint_toNat]

/-- **A written string is read back.** -/
theorem takeString_escape (s rest : List Char) :
    takeString total '"' (s.flatMap Json.escape ++ '"' :: rest) = .ok (s, rest) := by
  induction s with
  | nil => simp [takeString]
  | cons c s ih =>
    rw [List.flatMap_cons, List.append_assoc]
    obtain ⟨e, he, hu, hletter⟩ | ⟨hlt, hc⟩ | ⟨hc, -, hq, hb⟩ := Json.escape_cases c
    · rw [he, List.cons_append, List.cons_append, List.nil_append, takeString_letter hu hletter, ih]
      rfl
    · rw [hc, List.cons_append, List.cons_append, takeString_control hlt, ih]
      rfl
    · rw [hc, List.cons_append, List.nil_append, takeString_plain hq hb, ih]
      rfl

theorem skipBlank_of_stops (h : Stops isBlank s) : skipBlank s = s :=
  dropWhile_run (s := []) nofun h

theorem takeKey_quote {key t : List Char} (hkey : takeString total '"' s = .ok (key, t))
    (ht : skipBlank t = ':' :: rest) : takeKey total ('"' :: s) = .ok (.ofList key, rest) := by
  have hquote : isQuote '"' := rfl
  rw [takeKey]
  dsimp only
  rw [if_pos hquote, hkey, ok_bind]
  simp only [ht]
  rfl

theorem takeKey_writeString (k : String) (rest : List Char) :
    takeKey total (Json.writeString k.toList ++ ':' :: rest) = .ok (k, rest) := by
  have htext : Json.writeString k.toList ++ ':' :: rest =
      '"' :: (k.toList.flatMap Json.escape ++ '"' :: ':' :: rest) := by
    simp [Json.writeString]
  rw [htext, takeKey_quote (takeString_escape _ _) rfl, String.ofList_toList]

/-! ## Reading what was written -/

/-- A reader takes the value from its text and rounds its numbers. -/
def ReadsBack (value : ValueReader) (v : Json) : Prop :=
  ∀ rest, Stops Json.inPart rest → value (v.write ++ rest) = .ok (v.rounded, rest)

variable {value : ValueReader}

/-- An array that is not closed goes on with an item. -/
theorem takeItems_open {t : List Char} (hs : skipBlank s = t) (hhead : t.head? ≠ some ']') :
    takeItems total value (fuel + 1) s = (do
      let (v, rest) ← value t
      match skipBlank rest with
      | ',' :: rest =>
        let (vs, rest) ← takeItems total value fuel rest
        return (v :: vs, rest)
      | ']' :: rest => return ([v], rest)
      | rest => .error (.invalidStructure (.missingSeparator ']' (position total rest)))) := by
  rw [takeItems, hs]
  split
  · exact absurd rfl hhead
  · rfl

theorem takeItems_comma {t t' : List Char} (hs : skipBlank s = t) (hhead : t.head? ≠ some ']')
    (hv : value t = .ok (v, t')) (ht : skipBlank t' = ',' :: rest) :
    takeItems total value (fuel + 1) s =
      (takeItems total value fuel rest).map fun (vs, rest) => (v :: vs, rest) := by
  rw [takeItems_open hs hhead, hv, ok_bind]
  simp only [ht]
  cases takeItems total value fuel rest <;> rfl

theorem takeItems_close {t t' : List Char} (hs : skipBlank s = t) (hhead : t.head? ≠ some ']')
    (hv : value t = .ok (v, t')) (ht : skipBlank t' = ']' :: rest) :
    takeItems total value (fuel + 1) s = .ok ([v], rest) := by
  rw [takeItems_open hs hhead, hv, ok_bind]
  simp only [ht]
  rfl

theorem takeItems_error {t : List Char} {e : SyntaxError} (hs : skipBlank s = t)
    (hhead : t.head? ≠ some ']') (hv : value t = .error e) :
    takeItems total value (fuel + 1) s = .error e := by
  rw [takeItems_open hs hhead, hv]
  rfl

theorem takeItems_writeItems {items : List Json} (hvalue : ∀ v ∈ items, ReadsBack value v)
    (rest : List Char) (hfuel : items.length < fuel) :
    takeItems total value fuel (Json.writeItems items ++ ']' :: rest) =
      .ok (Json.mapItems Number.rounded items, rest) := by
  induction items generalizing fuel with
  | nil =>
    cases fuel with
    | zero => cases hfuel
    | succ fuel => rfl
  | cons v items ih =>
    cases fuel with
    | zero => cases hfuel
    | succ fuel =>
      obtain ⟨hv, hitems⟩ := List.forall_mem_cons.1 hvalue
      have hrest := ih hitems (Nat.lt_of_succ_lt_succ hfuel)
      obtain ⟨c, t, htext, hblank, hc⟩ := Json.exists_writeItems_cons v items
      have hs : Stops isBlank (Json.writeItems (v :: items) ++ ']' :: rest) :=
        htext ▸ stops_cons hblank
      have hhead : (Json.writeItems (v :: items) ++ ']' :: rest).head? ≠ some ']' := by
        rw [htext]
        exact mt Option.some.inj hc
      cases items with
      | nil => exact takeItems_close (skipBlank_of_stops hs) hhead (hv _ (stops_cons rfl)) rfl
      | cons w items =>
        rw [Json.writeItems_cons, List.append_assoc, List.cons_append] at hs hhead ⊢
        rw [takeItems_comma (skipBlank_of_stops hs) hhead (hv _ (stops_cons rfl)) rfl, hrest]
        rfl

/-- An object that is not closed goes on with a field. -/
theorem takeFields_open {t : List Char} (hs : skipBlank s = t) (hhead : t.head? ≠ some '\x7d') :
    takeFields total value (fuel + 1) s = (do
      let (k, rest) ← structural (takeKey total t)
      let (v, rest) ← value rest
      match skipBlank rest with
      | ',' :: rest =>
        let (fs, rest) ← takeFields total value fuel rest
        return ((k, v) :: fs, rest)
      | '\x7d' :: rest => return ([(k, v)], rest)
      | rest => .error (.invalidStructure (.missingSeparator '\x7d' (position total rest)))) := by
  rw [takeFields, hs]
  split
  · exact absurd rfl hhead
  · rfl

theorem takeFields_comma {k : String} {t t' t'' : List Char} (hs : skipBlank s = t)
    (hhead : t.head? ≠ some '\x7d') (hk : takeKey total t = .ok (k, t'))
    (hv : value t' = .ok (v, t'')) (ht : skipBlank t'' = ',' :: rest) :
    takeFields total value (fuel + 1) s =
      (takeFields total value fuel rest).map fun (fs, rest) => ((k, v) :: fs, rest) := by
  rw [takeFields_open hs hhead, hk]
  show value t' >>= _ = _
  rw [hv, ok_bind]
  simp only [ht]
  cases takeFields total value fuel rest <;> rfl

theorem takeFields_close {k : String} {t t' t'' : List Char} (hs : skipBlank s = t)
    (hhead : t.head? ≠ some '\x7d') (hk : takeKey total t = .ok (k, t'))
    (hv : value t' = .ok (v, t'')) (ht : skipBlank t'' = '\x7d' :: rest) :
    takeFields total value (fuel + 1) s = .ok ([(k, v)], rest) := by
  rw [takeFields_open hs hhead, hk]
  show value t' >>= _ = _
  rw [hv, ok_bind]
  simp only [ht]
  rfl

theorem takeFields_error {k : String} {t t' : List Char} {e : SyntaxError}
    (hs : skipBlank s = t) (hhead : t.head? ≠ some '\x7d') (hk : takeKey total t = .ok (k, t'))
    (hv : value t' = .error e) : takeFields total value (fuel + 1) s = .error e := by
  rw [takeFields_open hs hhead, hk]
  show value t' >>= _ = _
  rw [hv]
  rfl

theorem takeFields_writeFields {fields : List (String × Json)}
    (hvalue : ∀ f ∈ fields, ReadsBack value f.2) (rest : List Char)
    (hfuel : fields.length < fuel) :
    takeFields total value fuel (Json.writeFields fields ++ '\x7d' :: rest) =
      .ok (Json.mapFields Number.rounded fields, rest) := by
  induction fields generalizing fuel with
  | nil =>
    cases fuel with
    | zero => cases hfuel
    | succ fuel => rfl
  | cons f fields ih =>
    cases fuel with
    | zero => cases hfuel
    | succ fuel =>
      obtain ⟨k, v⟩ := f
      obtain ⟨hv, hfields⟩ := List.forall_mem_cons.1 hvalue
      have hrest := ih hfields (Nat.lt_of_succ_lt_succ hfuel)
      obtain ⟨t, htext⟩ := Json.exists_writeFields_cons (k, v) fields
      have hs : Stops isBlank (Json.writeFields ((k, v) :: fields) ++ '\x7d' :: rest) :=
        htext ▸ stops_cons rfl
      have hhead : (Json.writeFields ((k, v) :: fields) ++ '\x7d' :: rest).head? ≠
          some '\x7d' := by
        rw [htext]
        nofun
      cases fields with
      | nil =>
        rw [Json.writeFields, List.append_assoc, List.cons_append] at hs hhead ⊢
        exact takeFields_close (skipBlank_of_stops hs) hhead (takeKey_writeString k _)
          (hv _ (stops_cons rfl)) rfl
      | cons g fields =>
        rw [Json.writeFields_cons, List.append_assoc, List.append_assoc, List.cons_append,
          List.cons_append] at hs hhead ⊢
        rw [takeFields_comma (skipBlank_of_stops hs) hhead (takeKey_writeString k _)
          (hv _ (stops_cons rfl)) rfl, hrest]
        rfl

/-! ## Scalars -/

theorem inScalar_of_isPart {c : Char} (h : Numeral.isPart c) : inScalar c := by
  simp only [Numeral.isPart, Bool.or_eq_true, beq_iff_eq] at h
  rcases h with ((((h | rfl) | rfl) | rfl) | rfl) | rfl
  · simp only [inScalar, isBlank_of_isDigit h, Bool.and_eq_true, bne_iff_ne]
    refine ⟨⟨⟨?_, ?_⟩, ?_⟩, rfl⟩ <;> rintro rfl <;> cases h
  all_goals rfl

theorem inPart_of_inScalar (c : Char) (h : inScalar c) : Json.inPart c := by
  simp only [inScalar, Bool.and_eq_true] at h
  simp only [Json.inPart, Bool.and_eq_true]
  exact h.1

/-- A numeral is no word. -/
theorem text_ne_words (m : Numeral) :
    m.text ≠ "true".toList ∧ m.text ≠ "false".toList ∧ m.text ≠ "null".toList ∧
      m.text ≠ "undefined".toList := by
  obtain ⟨c, t, htext, hc⟩ := m.exists_text_cons
  rw [htext]
  refine ⟨?_, ?_, ?_, ?_⟩
  all_goals
    intro heq
    cases heq
    exact absurd hc (by decide)

theorem scalar_text (m : Numeral) {n : Number} (hvalue : m.value.toBinary64 = n.toBinary64) :
    scalar m.text = .ok (.num n.rounded) := by
  obtain ⟨htrue, hfalse, hnull, hundefined⟩ := text_ne_words m
  simp only [scalar, htrue, hfalse, hnull, hundefined, m.ofNumeral?_text, if_false, decide_false,
    Bool.or_self, Bool.false_eq_true, hvalue, numberValue_of_ofBinary64? n.ofBinary64?_toBinary64]

theorem scalar_text_nonFinite (m : Numeral) (hvalue : m.value.toBinary64.toFinite? = none) :
    scalar m.text = .error .nonFinite := by
  obtain ⟨htrue, hfalse, hnull, hundefined⟩ := text_ne_words m
  simp only [scalar, htrue, hfalse, hnull, hundefined, m.ofNumeral?_text, if_false, decide_false,
    Bool.or_self, Bool.false_eq_true, numberValue_nonFinite hvalue]

theorem not_isBlank_of_inScalar {c : Char} (h : inScalar c) : isBlank c = false := by
  rw [inScalar, Bool.and_eq_true, Bool.not_eq_true'] at h
  exact h.2

/-- Whether a character may be the first of a scalar without quotes. -/
def startsScalar (c : Char) : Bool :=
  c != '\x7b' && c != '[' && !isQuote c

theorem startsScalar_text (m : Numeral) : m.text.head?.any startsScalar := by
  obtain ⟨c, t, htext, rfl | hc⟩ := m.exists_text_cons
  · rw [htext]
    rfl
  · rw [htext, List.head?_cons, Option.any_some, startsScalar]
    simp only [isQuote, Bool.and_eq_true, bne_iff_ne, Bool.not_eq_true', Bool.or_eq_false_iff,
      beq_eq_false_iff_ne]
    refine ⟨⟨?_, ?_⟩, ⟨?_, ?_⟩, ?_⟩ <;> rintro rfl <;> cases hc

theorem takeValue_token (token : List Char) {r : Except SyntaxError Json}
    (hhead : token.head?.any startsScalar) (htoken : token.all inScalar) (hr : scalar token = r)
    (hrest : Stops inScalar rest) :
    takeValue total limit room (token ++ rest) = r.map fun v => (v, rest) := by
  have htake := takeWhile_run (List.all_eq_true.1 htoken) hrest
  have hdrop := dropWhile_run (List.all_eq_true.1 htoken) hrest
  cases token with
  | nil => cases hhead
  | cons c t =>
    have hskip : skipBlank (c :: t ++ rest) = c :: (t ++ rest) :=
      skipBlank_of_stops (stops_cons (not_isBlank_of_inScalar
        (List.all_eq_true.1 htoken c (.head _))))
    rw [List.cons_append] at htake hdrop
    unfold takeValue
    rw [hskip]
    split
    case h_1 heq => cases heq
    case h_2 heq => cases heq; cases hhead
    case h_3 heq => cases heq; cases hhead
    case h_4 heq =>
      cases heq
      have hquote : isQuote c = false := by
        simp only [List.head?_cons, Option.any_some, startsScalar, Bool.and_eq_true,
          Bool.not_eq_true'] at hhead
        exact hhead.2
      rw [hquote, htake, hdrop, hr]
      rfl

theorem takeValue_numeral (m : Numeral) {n : Number} (hvalue : m.value.toBinary64 = n.toBinary64)
    (hrest : Stops inScalar rest) :
    takeValue total limit room (m.text ++ rest) = .ok (.num n.rounded, rest) :=
  takeValue_token m.text (startsScalar_text m) (List.all_eq_true.2 fun c hc =>
    inScalar_of_isPart (m.isPart_of_mem_text c hc)) (scalar_text m hvalue) hrest

/-- A numeral beyond the greatest number is refused. -/
theorem takeValue_nonFinite (m : Numeral) (hvalue : m.value.toBinary64.toFinite? = none)
    (hrest : Stops inScalar rest) :
    takeValue total limit room (m.text ++ rest) = .error .nonFinite :=
  takeValue_token m.text (startsScalar_text m) (List.all_eq_true.2 fun c hc =>
    inScalar_of_isPart (m.isPart_of_mem_text c hc)) (scalar_text_nonFinite m hvalue) hrest

theorem takeValue_quote (s : List Char) : takeValue total limit room ('"' :: s) =
    (structural (takeString total '"' s)).map fun (t, rest) => (.str (.ofList t), rest) := by
  rw [takeValue]
  rfl

/-- A value that holds no others is read however little room is left. -/
theorem takeValue_scalar (hv : v.isScalar) : ReadsBack (takeValue total limit room) v := by
  intro rest hrest
  have hstop := hrest.mono inPart_of_inScalar
  cases v with
  | arr | obj => cases hv
  | null => exact takeValue_token "null".toList rfl rfl rfl hstop
  | bool b =>
    cases b with
    | true => exact takeValue_token "true".toList rfl rfl rfl hstop
    | false => exact takeValue_token "false".toList rfl rfl rfl hstop
  | num n =>
    obtain ⟨m, htext, hvalue⟩ := n.exists_numeral
    show takeValue total limit room (n.toText.toList ++ rest) = _
    rw [← htext, takeValue_numeral m hvalue hstop]
    rfl
  | str s =>
    have htext : (Json.str s).write ++ rest =
        '"' :: (s.toList.flatMap Json.escape ++ '"' :: rest) := by
      simp [Json.write, Json.writeScalar, Json.writeString]
    rw [htext, takeValue_quote, takeString_escape]
    show Except.ok (Json.str (String.ofList s.toList), rest) = _
    rw [String.ofList_toList]
    rfl

/-! ## Values -/

theorem takeValue_bracket (s : List Char) : takeValue total limit (room + 1) ('[' :: s) =
    (takeItems total (takeValue total limit room) (s.length + 1) s).map fun (vs, rest) =>
      (.arr vs, rest) := rfl

theorem takeValue_brace (s : List Char) : takeValue total limit (room + 1) ('\x7b' :: s) =
    (takeFields total (takeValue total limit room) (s.length + 1) s).map fun (fs, rest) =>
      (.obj (Table.ofEntries fs), rest) := rfl

/-- **A regular value that there is room for is read back with its numbers rounded.** -/
theorem takeValue_write {P : Number → Prop} (hv : v.Regular P) (hdepth : v.depth ≤ room) :
    ReadsBack (takeValue total limit room) v := by
  -- What a container holds is read with less room, so the induction is on the room.
  induction room generalizing v with
  | zero =>
    cases v with
    | arr | obj => cases hdepth
    | _ => exact takeValue_scalar rfl
  | succ room ih =>
    intro rest hrest
    cases v with
    | arr items =>
      have hitems : ∀ v ∈ items, ReadsBack (takeValue total limit room) v := fun v hv' =>
        ih (hv.items v hv') (Json.depthItems_le.1 (Nat.le_of_succ_le_succ hdepth) v hv')
      have hlength := Json.length_le_writeItems items
      rw [Json.write, List.append_assoc, List.cons_append, List.cons_append, List.nil_append,
        takeValue_bracket, takeItems_writeItems hitems]
      · rfl
      · simp only [List.length_append, List.length_cons]
        omega
    | obj fields =>
      have hfields : ∀ f ∈ fields, ReadsBack (takeValue total limit room) f.2 := fun f hf =>
        ih (hv.fields.2 f hf) (Json.depthFields_le.1 (Nat.le_of_succ_le_succ hdepth) f hf)
      have hlength := Json.length_le_writeFields fields
      rw [Json.write, List.append_assoc, List.cons_append, List.cons_append, List.nil_append,
        takeValue_brace, takeFields_writeFields hfields]
      · have hkeys : (Table.keys (Json.mapFields Number.rounded fields)).Nodup :=
          Json.keys_mapFields _ fields ▸ hv.fields.1
        show Except.ok (Json.obj (Table.ofEntries (Json.mapFields Number.rounded fields)), rest) = _
        rw [Table.ofEntries_of_nodup hkeys]
        rfl
      · simp only [List.length_append, List.length_cons]
        omega
    | _ => exact takeValue_scalar rfl rest hrest

theorem parse_write {P : Number → Prop} (hv : v.Regular P) (hdepth : v.depth ≤ limit) :
    parse limit v.write = .ok v.rounded := by
  have hread : takeValue (byteLength v.write) limit limit (v.write ++ []) = .ok (v.rounded, []) :=
    takeValue_write hv hdepth [] stops_nil
  rw [List.append_nil] at hread
  show takeValue _ limit limit v.write >>= _ = _
  rw [hread]
  rfl

/-! ## What is read -/

/-- Every item of an array comes from the reader of values. -/
theorem exists_of_takeItems {items : List Json}
    (h : takeItems total value fuel s = .ok (items, rest)) :
    ∀ v ∈ items, ∃ s rest, value s = .ok (v, rest) := by
  induction fuel generalizing s items with
  | zero => cases h
  | succ fuel ih =>
    rw [takeItems] at h
    split at h
    · cases h
      nofun
    · obtain ⟨⟨v, t⟩, hv, h⟩ := exists_of_bind_ok h
      dsimp only at h
      split at h
      · obtain ⟨⟨vs, t'⟩, hvs, h⟩ := exists_of_bind_ok h
        cases h
        exact List.forall_mem_cons.2 ⟨⟨_, t, hv⟩, ih hvs⟩
      · cases h
        exact List.forall_mem_singleton.2 ⟨_, t, hv⟩
      · cases h

theorem exists_of_takeFields {fields : List (String × Json)}
    (h : takeFields total value fuel s = .ok (fields, rest)) :
    ∀ f ∈ fields, ∃ s rest, value s = .ok (f.2, rest) := by
  induction fuel generalizing s fields with
  | zero => cases h
  | succ fuel ih =>
    rw [takeFields] at h
    split at h
    · cases h
      nofun
    · obtain ⟨⟨k, t⟩, -, h⟩ := exists_of_bind_ok h
      obtain ⟨⟨v, t'⟩, hv, h⟩ := exists_of_bind_ok h
      dsimp only at h
      split at h
      · obtain ⟨⟨fs, t''⟩, hfs, h⟩ := exists_of_bind_ok h
        cases h
        exact List.forall_mem_cons.2 ⟨⟨t, t', hv⟩, ih hfs⟩
      · cases h
        exact List.forall_mem_singleton.2 ⟨t, t', hv⟩
      · cases h

/-- A scalar holds no others, and a number stores a result. -/
theorem regular_of_scalar {token : List Char} (h : scalar token = .ok v) :
    v.isScalar ∧ v.Regular Number.IsResult := by
  unfold scalar at h
  split at h
  · cases h
    exact ⟨rfl, .scalar rfl (by simp)⟩
  split at h
  · cases h
    exact ⟨rfl, .scalar rfl (by simp)⟩
  split at h
  · cases h
    exact ⟨rfl, .scalar rfl (by simp)⟩
  split at h
  · obtain ⟨n, hn, rfl⟩ := exists_of_numberValue h
    refine ⟨rfl, .scalar rfl ?_⟩
    rintro _ ⟨⟩
    exact hn
  · cases h

/-- A value that is read holds no others, or what it holds is read with less room. -/
theorem takeValue_cases (h : takeValue total limit room s = .ok (v, rest)) :
    (v.isScalar ∧ v.Regular Number.IsResult) ∨
    (∃ room' items, room = room' + 1 ∧ v = .arr items ∧
      ∀ w ∈ items, ∃ s rest, takeValue total limit room' s = .ok (w, rest)) ∨
    ∃ room' fields, room = room' + 1 ∧ v = .obj (Table.ofEntries fields) ∧
      ∀ f ∈ fields, ∃ s rest, takeValue total limit room' s = .ok (f.2, rest) := by
  unfold takeValue at h
  split at h
  · cases h
  · cases room with
    | zero => cases h
    | succ room =>
      obtain ⟨⟨fields, t⟩, hfields, heq⟩ := exists_of_map_ok h
      cases heq
      exact .inr (.inr ⟨room, fields, rfl, rfl, exists_of_takeFields hfields⟩)
  · cases room with
    | zero => cases h
    | succ room =>
      obtain ⟨⟨items, t⟩, hitems, heq⟩ := exists_of_map_ok h
      cases heq
      exact .inr (.inl ⟨room, items, rfl, rfl, exists_of_takeItems hitems⟩)
  · split at h
    · obtain ⟨_, -, heq⟩ := exists_of_map_ok h
      cases heq
      exact .inl ⟨rfl, .scalar rfl (by simp)⟩
    · obtain ⟨w, hw, heq⟩ := exists_of_map_ok h
      cases heq
      exact .inl (regular_of_scalar hw)

/-- **What is read is regular, there is room for it, and its numbers store results.** -/
theorem regular_of_takeValue (h : takeValue total limit room s = .ok (v, rest)) :
    v.depth ≤ room ∧ v.Regular Number.IsResult := by
  induction room generalizing s v rest with
  | zero =>
    obtain ⟨hv, hregular⟩ | ⟨_, _, hroom, -⟩ | ⟨_, _, hroom, -⟩ := takeValue_cases h
    · exact ⟨Nat.le_of_eq (Json.depth_of_isScalar hv), hregular⟩
    · cases hroom
    · cases hroom
  | succ room ih =>
    obtain ⟨hv, hregular⟩ | ⟨_, items, ⟨⟩, rfl, hitems⟩ | ⟨_, fields, ⟨⟩, rfl, hfields⟩ :=
      takeValue_cases h
    · exact ⟨Json.depth_of_isScalar hv ▸ Nat.zero_le _, hregular⟩
    · have hall : ∀ w ∈ items, w.depth ≤ room ∧ w.Regular Number.IsResult := by
        intro w hw
        obtain ⟨s, rest, hread⟩ := hitems w hw
        exact ih hread
      exact ⟨Nat.succ_le_succ (Json.depthItems_le.2 fun w hw => (hall w hw).1),
        .arr fun w hw => (hall w hw).2⟩
    · have hall : ∀ f ∈ fields, f.2.depth ≤ room ∧ f.2.Regular Number.IsResult := by
        intro f hf
        obtain ⟨s, rest, hread⟩ := hfields f hf
        exact ih hread
      exact ⟨Nat.succ_le_succ (Json.depthFields_le.2 fun f hf =>
          (hall f (Table.mem_ofEntries hf)).1),
        .ofEntries fun f hf => (hall f hf).2⟩

theorem exists_of_parse (h : parse limit s = .ok v) :
    ∃ total rest, takeValue total limit limit s = .ok (v, rest) := by
  obtain ⟨⟨w, rest⟩, hread, hw⟩ := exists_of_bind_ok h
  dsimp only at hw
  split at hw
  · cases hw
    exact ⟨_, rest, hread⟩
  · cases hw

theorem regular_of_parse (h : parse limit s = .ok v) :
    v.depth ≤ limit ∧ v.Regular Number.IsResult := by
  obtain ⟨_, _, hread⟩ := exists_of_parse h
  exact regular_of_takeValue hread

/-- What starts with a bracket or a brace is read as an array or an object. -/
theorem isScalar_of_parse (hs : s.head? = some '\x7b' ∨ s.head? = some '[')
    (h : parse limit s = .ok v) : v.isScalar = false := by
  obtain ⟨total, rest, hread⟩ := exists_of_parse h
  cases s with
  | nil => simp at hs
  | cons c s =>
    simp only [List.head?_cons, Option.some.injEq] at hs
    cases limit with
    | zero => rcases hs with rfl | rfl <;> rw [takeValue] at hread <;> cases hread
    | succ limit =>
      rcases hs with rfl | rfl
      · rw [takeValue_brace] at hread
        obtain ⟨_, -, heq⟩ := exists_of_map_ok hread
        cases heq; rfl
      · rw [takeValue_bracket] at hread
        obtain ⟨_, -, heq⟩ := exists_of_map_ok hread
        cases heq; rfl

end Relaxed

end Literal

end StatVars
