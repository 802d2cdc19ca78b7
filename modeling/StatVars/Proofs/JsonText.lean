import StatVars.Proofs.Estimates
import StatVars.Proofs.JsonString
import StatVars.Proofs.Numbers

/-!
# JSON texts that are read back

A value that is written without blanks is read back with its numbers as they are read from their
texts, as long as it is nested no deeper than the reader goes; otherwise it is not read at all. What
a reader accepts is regular and nested no deeper than that; how it takes a value from a text is
`Json.Takes`. Main statements: `Json.Regular.read?_write`, `Json.regular_of_read?`.
-/

namespace StatVars.Json

open Text

variable {float : FloatReader} {v : Json} {s rest : List Char} {d fuel : Nat}

/-! ## What stands behind a value -/

/-- The characters other than those that end a part of an array or an object. -/
def inPart (c : Char) : Bool :=
  c != ',' && c != ']' && c != '\x7d'

theorem inPart_of_continues (c : Char) (h : Numeral.continues c) : inPart c := by
  simp only [Numeral.continues, Bool.or_eq_true, beq_iff_eq] at h
  rcases h with ((h | rfl) | rfl) | rfl
  · simp only [inPart, Bool.and_eq_true, bne_iff_ne]
    refine ⟨⟨?_, ?_⟩, ?_⟩ <;> rintro rfl <;> cases h
  all_goals rfl

theorem isBlank_of_isSpace (c : Char) (h : isSpace c) : isBlank c := by
  simp only [isSpace, Bool.or_eq_true, beq_iff_eq] at h
  rcases h with ((rfl | rfl) | rfl) | rfl <;> rfl

theorem skipSpace_cons {c : Char} (hc : isSpace c = false) (s : List Char) :
    skipSpace (c :: s) = c :: s :=
  List.dropWhile_cons_of_neg (Bool.eq_false_iff.1 hc)

theorem skipSpace_of_stops (h : Stops isBlank s) : skipSpace s = s :=
  dropWhile_run (s := []) nofun (h.mono isBlank_of_isSpace)

/-! ## Written parts -/

/-- The text of a value starts with no blank and no closing bracket. -/
theorem exists_write_cons (v : Json) :
    ∃ c t, v.write = c :: t ∧ isBlank c = false ∧ c ≠ ']' := by
  cases v with
  | null => exact ⟨'n', _, rfl, by decide, by decide⟩
  | bool b => cases b <;> exact ⟨_, _, rfl, by decide, by decide⟩
  | num n =>
    obtain ⟨c, t, htext, hc⟩ := n.exists_toText_cons
    exact ⟨c, t, htext, Numeral.isBlank_first hc⟩
  | str | arr | obj => exact ⟨_, _, rfl, by decide, by decide⟩

theorem writeItems_cons (v w : Json) (items : List Json) :
    writeItems (v :: w :: items) = v.write ++ ',' :: writeItems (w :: items) := rfl

theorem writeFields_cons (k : String) (v : Json) (f : String × Json)
    (fields : List (String × Json)) : writeFields ((k, v) :: f :: fields) =
      writeString k.toList ++ ':' :: v.write ++ ',' :: writeFields (f :: fields) := rfl

theorem exists_writeItems_cons (v : Json) (items : List Json) :
    ∃ c t, writeItems (v :: items) = c :: t ∧ isBlank c = false ∧ c ≠ ']' := by
  obtain ⟨c, t, htext, hc⟩ := v.exists_write_cons
  cases items with
  | nil => exact ⟨c, t, htext, hc⟩
  | cons w items => exact ⟨c, _, by rw [writeItems_cons, htext, List.cons_append], hc⟩

theorem exists_writeFields_cons (f : String × Json) (fields : List (String × Json)) :
    ∃ t, writeFields (f :: fields) = '"' :: t := by
  cases fields <;> exact ⟨_, rfl⟩

/-- There is a comma between any two items. -/
theorem length_le_writeItems (items : List Json) :
    items.length ≤ (writeItems items).length + 1 := by
  induction items with
  | nil => exact Nat.zero_le _
  | cons v items ih =>
    cases items with
    | nil => exact Nat.succ_le_succ (Nat.zero_le _)
    | cons w items =>
      simp only [writeItems_cons, List.length_append, List.length_cons] at ih ⊢
      omega

theorem length_le_writeFields (fields : List (String × Json)) :
    fields.length ≤ (writeFields fields).length + 1 := by
  induction fields with
  | nil => exact Nat.zero_le _
  | cons f fields ih =>
    obtain ⟨k, v⟩ := f
    cases fields with
    | nil => exact Nat.succ_le_succ (Nat.zero_le _)
    | cons g fields =>
      simp only [writeFields_cons, List.length_append, List.length_cons] at ih ⊢
      omega

/-! ## Reading what was written -/

/-- The value with its numbers as they are read from their texts. -/
def reread (v : Json) : Json :=
  v.mapNumbers Number.reread

/-- A reader takes every written value that is nested at most `d` deep, and no other. -/
def ReadsWithin (d : Nat) (value : PartReader Json) : Prop :=
  ∀ (v : Json) (rest : List Char), Stops inPart rest →
    value (v.write ++ rest) = if v.depth ≤ d then some (v.reread, rest) else none

variable {value : PartReader Json}

theorem readItems_writeItems (hvalue : ReadsWithin d value) (v : Json) (items : List Json)
    (rest : List Char) (hfuel : items.length < fuel) :
    readItems value fuel (writeItems (v :: items) ++ ']' :: rest) =
      if depthItems (v :: items) ≤ d then some (mapItems Number.reread (v :: items), rest)
      else none := by
  induction items generalizing v fuel with
  | nil =>
    cases fuel with
    | zero => cases hfuel
    | succ fuel =>
      rw [writeItems, readItems, hvalue v _ (stops_cons rfl), depthItems, depthItems, Nat.max_zero]
      split <;> rfl
  | cons w items ih =>
    cases fuel with
    | zero => cases hfuel
    | succ fuel =>
      have hrest := ih w (Nat.lt_of_succ_lt_succ hfuel)
      rw [writeItems_cons, readItems, List.append_assoc, List.cons_append,
        hvalue v _ (stops_cons rfl)]
      have hdepth : depthItems (v :: w :: items) ≤ d ↔
          v.depth ≤ d ∧ depthItems (w :: items) ≤ d := by
        rw [depthItems, Nat.max_le]
      by_cases hv : v.depth ≤ d
      · simp only [hv, if_true, Option.bind_eq_bind, Option.bind_some, hrest, hdepth, true_and,
          skipSpace_cons (c := ',') rfl]
        split <;> rfl
      · simp only [hv, if_false, hdepth, false_and]
        rfl

theorem readKey_writeString (k : String) (rest : List Char) :
    readKey readString (writeString k.toList ++ ':' :: rest) = some (k, rest) := by
  simp [readKey, writeString, skipSpace_cons (c := '"') rfl, skipSpace_cons (c := ':') rfl,
    readString_escape]

theorem readFields_writeFields (value : String → PartReader Json) (f : String × Json)
    (fields : List (String × Json)) (hvalue : ∀ g ∈ f :: fields, ReadsWithin d (value g.1))
    (rest : List Char) (hfuel : fields.length < fuel) :
    readFields readString value fuel (writeFields (f :: fields) ++ '\x7d' :: rest) =
      if depthFields (f :: fields) ≤ d then some (mapFields Number.reread (f :: fields), rest)
      else none := by
  obtain ⟨k, v⟩ := f
  induction fields generalizing k v fuel with
  | nil =>
    cases fuel with
    | zero => cases hfuel
    | succ fuel =>
      have hread := hvalue (k, v) (.head _) v ('\x7d' :: rest) (stops_cons rfl)
      rw [writeFields, readFields, List.append_assoc, List.cons_append, readKey_writeString]
      simp only [Option.bind_eq_bind, Option.bind_some, hread, depthFields, Nat.max_zero]
      split <;> rfl
  | cons f fields ih =>
    cases fuel with
    | zero => cases hfuel
    | succ fuel =>
      have hrest := ih (Nat.lt_of_succ_lt_succ hfuel) f.1 f.2 fun g hg => hvalue g (.tail _ hg)
      have hread := hvalue (k, v) (.head _) v (',' :: (writeFields (f :: fields) ++ '\x7d' :: rest))
        (stops_cons rfl)
      have hdepth : depthFields ((k, v) :: f :: fields) ≤ d ↔
          v.depth ≤ d ∧ depthFields (f :: fields) ≤ d := by
        rw [depthFields, Nat.max_le]
      rw [writeFields_cons, readFields, List.append_assoc, List.append_assoc, List.cons_append,
        List.cons_append, readKey_writeString]
      simp only [Option.bind_eq_bind, Option.bind_some, hread]
      by_cases hv : v.depth ≤ d
      · simp only [hv, if_true, Option.bind_some, hrest, hdepth, true_and,
          skipSpace_cons (c := ',') rfl]
        split <;> rfl
      · simp only [hv, if_false, hdepth, false_and]
        rfl

theorem readValue_numeral (m : Numeral) (rest : List Char) :
    readValue float d (m.text ++ rest) =
      (readNumber float (m.text ++ rest)).map fun (n, s) => (.num n, s) := by
  obtain ⟨c, u, htext, hc⟩ := m.exists_text_cons
  have hcons : m.text ++ rest = c :: (u ++ rest) := htext ▸ rfl
  have hskip : skipSpace (m.text ++ rest) = m.text ++ rest :=
    skipSpace_of_stops (hcons ▸ stops_cons (Numeral.isBlank_first hc).1)
  rw [readValue, hskip]
  split
  case h_1 heq => cases hcons.symm.trans heq
  case h_8 => rfl
  all_goals
    next heq =>
    cases hcons.symm.trans heq
    exact absurd hc (by decide)

theorem readValue_number (n : Number) (h : Stops inPart rest) :
    readValue Decimal.estimate d (n.toText.toList ++ rest) = some (.num n.reread, rest) := by
  have hread := n.readNumber_toText (h.mono inPart_of_continues)
  obtain ⟨m, hm⟩ := n.exists_toText
  rw [← hm] at hread ⊢
  rw [readValue_numeral, hread]
  rfl

/-- A value that holds no others is read however little depth is left. -/
theorem readValue_scalar (hv : v.isScalar) (h : Stops inPart rest) :
    readValue Decimal.estimate d (v.write ++ rest) = some (v.reread, rest) := by
  cases v with
  | arr | obj => cases hv
  | num n => exact readValue_number n h
  | null => rw [readValue]; rfl
  | bool b => cases b <;> rw [readValue] <;> rfl
  | str s =>
    simp [write, writeScalar, writeString, readValue, skipSpace_cons (c := '"') rfl,
      readString_escape, reread, mapNumbers]

theorem readValue_quote (s : List Char) : readValue float d ('"' :: s) =
    (readString s).map fun (t, s) => (.str (.ofList t), s) := by
  rw [readValue]
  rfl

theorem readValue_bracket (s : List Char) : readValue float (d + 1) ('[' :: s) =
    match skipSpace s with
    | ']' :: s => some (.arr [], s)
    | s => (readItems (readValue float d) s.length s).map fun (vs, s) => (.arr vs, s) := rfl

theorem readValue_brace (s : List Char) : readValue float (d + 1) ('\x7b' :: s) =
    match skipSpace s with
    | '\x7d' :: s => some (.obj [], s)
    | s =>
      (readFields readString (fun _ => readValue float d) s.length s).map fun (fs, s) =>
        (.obj fs, s) := rfl

/-- An array that is not closed at once has items. -/
theorem readValue_items (hhead : (skipSpace s).head? ≠ some ']') :
    readValue float (d + 1) ('[' :: s) =
      (readItems (readValue float d) (skipSpace s).length (skipSpace s)).map fun (vs, s) =>
        (.arr vs, s) := by
  rw [readValue_bracket]
  split
  · next hs => exact absurd (congrArg List.head? hs) hhead
  · rfl

theorem readValue_fields (hhead : (skipSpace s).head? ≠ some '\x7d') :
    readValue float (d + 1) ('\x7b' :: s) =
      (readFields readString (fun _ => readValue float d) (skipSpace s).length
        (skipSpace s)).map fun (fs, s) => (.obj fs, s) := by
  rw [readValue_brace]
  split
  · next hs => exact absurd (congrArg List.head? hs) hhead
  · rfl

theorem readValue_arr (hvalue : ReadsWithin d (readValue Decimal.estimate d)) (items : List Json)
    (rest : List Char) : readValue Decimal.estimate (d + 1) ((arr items).write ++ rest) =
      if (arr items).depth ≤ d + 1 then some ((arr items).reread, rest) else none := by
  rw [write, List.append_assoc, List.cons_append, List.cons_append, List.nil_append,
    readValue_bracket]
  cases items with
  | nil => simp [writeItems, skipSpace, isSpace, depth, depthItems, reread, mapNumbers, mapItems]
  | cons v items =>
    obtain ⟨c, t, htext, hblank, hc⟩ := exists_writeItems_cons v items
    have hfuel : items.length < (writeItems (v :: items) ++ ']' :: rest).length := by
      have hlength := length_le_writeItems (v :: items)
      simp only [List.length_append, List.length_cons] at hlength ⊢
      omega
    have hread := readItems_writeItems hvalue v items rest hfuel
    rw [htext, List.cons_append] at hread ⊢
    rw [skipSpace_of_stops (stops_cons hblank)]
    split
    · next heq =>
      cases heq
      exact absurd rfl hc
    · simp only [hread, depth, Nat.add_le_add_iff_right]
      split <;> rfl

theorem readValue_obj (hvalue : ReadsWithin d (readValue Decimal.estimate d))
    (fields : List (String × Json)) (rest : List Char) : readValue Decimal.estimate (d + 1) ((obj fields).write ++ rest) =
      if (obj fields).depth ≤ d + 1 then some ((obj fields).reread, rest) else none := by
  rw [write, List.append_assoc, List.cons_append, List.cons_append, List.nil_append,
    readValue_brace]
  cases fields with
  | nil =>
    simp [writeFields, skipSpace, isSpace, depth, depthFields, reread, mapNumbers, mapFields]
  | cons f fields =>
    obtain ⟨t, htext⟩ := exists_writeFields_cons f fields
    have hfuel : fields.length < (writeFields (f :: fields) ++ '\x7d' :: rest).length := by
      have hlength := length_le_writeFields (f :: fields)
      simp only [List.length_append, List.length_cons] at hlength ⊢
      omega
    have hread := readFields_writeFields (fun _ => readValue Decimal.estimate d) f fields
      (fun _ _ => hvalue) rest hfuel
    rw [htext, List.cons_append] at hread ⊢
    rw [skipSpace_of_stops (stops_cons rfl)]
    split
    · next heq => cases heq
    · simp only [hread, depth, Nat.add_le_add_iff_right]
      split <;> rfl

/-- **A written value is read back just if it is nested no deeper than the reader goes.** -/
theorem readsWithin_readValue (d : Nat) : ReadsWithin d (readValue Decimal.estimate d) := by
  -- What a container holds is read with one level less, so the induction is on the levels.
  induction d with
  | zero =>
    intro v rest h
    cases v with
    | arr items => simp [write, readValue, skipSpace, isSpace, depth]
    | obj fields => simp [write, readValue, skipSpace, isSpace, depth]
    | _ => exact readValue_scalar rfl h
  | succ d ih =>
    intro v rest h
    cases v with
    | arr items => exact readValue_arr ih items rest
    | obj fields => exact readValue_obj ih fields rest
    | _ => exact readValue_scalar rfl h

theorem Regular.read?_write {P : Number → Prop} (h : v.Regular P) :
    read? v.write = if v.depth ≤ maxDepth then some v.reread else none := by
  have hread := readsWithin_readValue maxDepth v [] stops_nil
  rw [List.append_nil] at hread
  rw [read?, readRaw?, readWith?, hread]
  split
  · exact congrArg some (h.mapNumbers Number.reread).mergeRepeated
  · rfl

/-! ## What is read -/

variable {text : PartReader (List Char)} {items : List Json} {fields : List (String × Json)}

theorem readItems_comma {t t' : List Char} (hv : value s = some (v, t))
    (ht : skipSpace t = ',' :: t') : readItems value (fuel + 1) s =
      (readItems value fuel t').map fun (vs, rest) => (v :: vs, rest) := by
  show value s >>= _ = _
  simp only [hv, Option.bind_eq_bind, Option.bind_some, ht]
  cases readItems value fuel t' <;> rfl

theorem readItems_close {t : List Char} (hv : value s = some (v, t))
    (ht : skipSpace t = ']' :: rest) : readItems value (fuel + 1) s = some ([v], rest) := by
  show value s >>= _ = _
  simp only [hv, Option.bind_eq_bind, Option.bind_some, ht]
  rfl

theorem readItems_none (hv : value s = none) : readItems value (fuel + 1) s = none := by
  show value s >>= _ = _
  rw [hv]
  rfl

/-- Behind an item stands a comma before more of them, or the closing bracket. -/
theorem readItems_eq_some_iff : readItems value (fuel + 1) s = some (items, rest) ↔
    ∃ v t, value s = some (v, t) ∧
      ((∃ t' vs, skipSpace t = ',' :: t' ∧ readItems value fuel t' = some (vs, rest) ∧
          items = v :: vs) ∨
        skipSpace t = ']' :: rest ∧ items = [v]) := by
  constructor
  · intro h
    obtain ⟨⟨v, t⟩, hv, h⟩ := Option.bind_eq_some_iff.1 h
    refine ⟨v, t, hv, ?_⟩
    dsimp only at h
    split at h
    · next t' ht =>
      obtain ⟨⟨vs, _⟩, hvs, h⟩ := Option.bind_eq_some_iff.1 h
      cases h
      exact .inl ⟨t', vs, ht, hvs, rfl⟩
    · next ht =>
      cases h
      exact .inr ⟨ht, rfl⟩
    · cases h
  · rintro ⟨v, t, hv, ⟨t', vs, ht, hvs, rfl⟩ | ⟨ht, rfl⟩⟩
    · rw [readItems_comma hv ht, hvs]
      rfl
    · exact readItems_close hv ht

theorem readKey_eq_some_iff {k : String} : readKey text s = some (k, rest) ↔
    ∃ t key t', skipSpace s = '"' :: t ∧ text t = some (key, t') ∧ skipSpace t' = ':' :: rest ∧
      k = .ofList key := by
  constructor
  · intro h
    unfold readKey at h
    split at h
    · next t ht =>
      obtain ⟨⟨key, t'⟩, hkey, h⟩ := Option.bind_eq_some_iff.1 h
      dsimp only at h
      split at h
      · next hcolon =>
        cases h
        exact ⟨t, key, t', ht, hkey, hcolon, rfl⟩
      · cases h
    · cases h
  · rintro ⟨t, key, t', ht, hkey, hcolon, rfl⟩
    simp only [readKey, ht, Option.bind_eq_bind, hkey, Option.bind_some, hcolon]

theorem readFields_comma {value : String → PartReader Json} {k : String} {t t' t'' : List Char}
    (hk : readKey text s = some (k, t)) (hv : value k t = some (v, t'))
    (ht : skipSpace t' = ',' :: t'') : readFields text value (fuel + 1) s =
      (readFields text value fuel t'').map fun (fs, rest) => ((k, v) :: fs, rest) := by
  show readKey text s >>= _ = _
  simp only [hk, Option.bind_eq_bind, Option.bind_some, hv, ht]
  cases readFields text value fuel t'' <;> rfl

theorem readFields_close {value : String → PartReader Json} {k : String} {t t' : List Char}
    (hk : readKey text s = some (k, t)) (hv : value k t = some (v, t'))
    (ht : skipSpace t' = '\x7d' :: rest) :
    readFields text value (fuel + 1) s = some ([(k, v)], rest) := by
  show readKey text s >>= _ = _
  simp only [hk, Option.bind_eq_bind, Option.bind_some, hv, ht]
  rfl

theorem readFields_none {value : String → PartReader Json} {k : String} {t : List Char}
    (hk : readKey text s = some (k, t)) (hv : value k t = none) :
    readFields text value (fuel + 1) s = none := by
  show readKey text s >>= _ = _
  simp only [hk, Option.bind_eq_bind, Option.bind_some, hv, Option.bind_none]

theorem readFields_eq_some_iff {value : String → PartReader Json} :
    readFields text value (fuel + 1) s = some (fields, rest) ↔
      ∃ k t v t', readKey text s = some (k, t) ∧ value k t = some (v, t') ∧
        ((∃ t'' fs, skipSpace t' = ',' :: t'' ∧
            readFields text value fuel t'' = some (fs, rest) ∧ fields = (k, v) :: fs) ∨
          skipSpace t' = '\x7d' :: rest ∧ fields = [(k, v)]) := by
  constructor
  · intro h
    obtain ⟨⟨k, t⟩, hk, h⟩ := Option.bind_eq_some_iff.1 h
    obtain ⟨⟨v, t'⟩, hv, h⟩ := Option.bind_eq_some_iff.1 h
    refine ⟨k, t, v, t', hk, hv, ?_⟩
    dsimp only at h
    split at h
    · next t'' ht =>
      obtain ⟨⟨fs, _⟩, hfs, h⟩ := Option.bind_eq_some_iff.1 h
      cases h
      exact .inl ⟨t'', fs, ht, hfs, rfl⟩
    · next ht =>
      cases h
      exact .inr ⟨ht, rfl⟩
    · cases h
  · rintro ⟨k, t, v, t', hk, hv, ⟨t'', fs, ht, hfs, rfl⟩ | ⟨ht, rfl⟩⟩
    · rw [readFields_comma hk hv ht, hfs]
      rfl
    · exact readFields_close hk hv ht

/-- Every item of an array comes from the reader of values. -/
theorem exists_of_readItems (h : readItems value fuel s = some (items, rest)) :
    ∀ v ∈ items, ∃ s rest, value s = some (v, rest) := by
  induction fuel generalizing s items with
  | zero => cases h
  | succ fuel ih =>
    obtain ⟨v, t, hv, ⟨t', vs, -, hvs, rfl⟩ | ⟨-, rfl⟩⟩ := readItems_eq_some_iff.1 h
    · exact List.forall_mem_cons.2 ⟨⟨s, t, hv⟩, ih hvs⟩
    · exact List.forall_mem_singleton.2 ⟨s, t, hv⟩

theorem exists_of_readFields
    (h : readFields text (fun _ => value) fuel s = some (fields, rest)) :
    ∀ f ∈ fields, ∃ s rest, value s = some (f.2, rest) := by
  induction fuel generalizing s fields with
  | zero => cases h
  | succ fuel ih =>
    obtain ⟨k, t, v, t', -, hv, ⟨t'', fs, -, hfs, rfl⟩ | ⟨-, rfl⟩⟩ := readFields_eq_some_iff.1 h
    · exact List.forall_mem_cons.2 ⟨⟨t, t', hv⟩, ih hfs⟩
    · exact List.forall_mem_singleton.2 ⟨t, t', hv⟩

theorem eq_append_of_dropPrefix? {word : List Char} (h : dropPrefix? word s = some rest) :
    s = word ++ rest := by
  fun_induction dropPrefix? word s with
  | case1 s => exact Option.some.inj h
  | case2 => cases h
  | case3 a word s ih => rw [ih h, List.cons_append]
  | case4 => cases h

/-- How a value is taken off the front of a text that starts with it, and what is left. -/
inductive Takes (float : FloatReader) : (depth : Nat) → List Char → Json → List Char → Prop
  | null {d : Nat} {rest : List Char} : Takes float d ("null".toList ++ rest) .null rest
  | bool {d : Nat} {rest : List Char} (b : Bool) :
    Takes float d ((Json.bool b).write ++ rest) (.bool b) rest
  | num {d : Nat} {s rest : List Char} {n : Number} (h : readNumber float s = some (n, rest)) :
    Takes float d s (.num n) rest
  | str {d : Nat} {s rest key : List Char} (h : readString s = some (key, rest)) :
    Takes float d ('"' :: s) (.str (.ofList key)) rest
  | noItems {d : Nat} {s rest : List Char} (h : skipSpace s = ']' :: rest) :
    Takes float (d + 1) ('[' :: s) (.arr []) rest
  | items {d : Nat} {s rest : List Char} {items : List Json}
    (hhead : (skipSpace s).head? ≠ some ']')
    (h : readItems (readValue float d) (skipSpace s).length (skipSpace s) = some (items, rest)) :
    Takes float (d + 1) ('[' :: s) (.arr items) rest
  | noFields {d : Nat} {s rest : List Char} (h : skipSpace s = '\x7d' :: rest) :
    Takes float (d + 1) ('\x7b' :: s) (.obj []) rest
  | fields {d : Nat} {s rest : List Char} {fields : List (String × Json)}
    (hhead : (skipSpace s).head? ≠ some '\x7d')
    (h : readFields readString (fun _ => readValue float d) (skipSpace s).length (skipSpace s) =
      some (fields, rest)) : Takes float (d + 1) ('\x7b' :: s) (.obj fields) rest

theorem takes_of_bracket (h : readValue float (d + 1) ('[' :: s) = some (v, rest)) :
    Takes float (d + 1) ('[' :: s) v rest := by
  rw [readValue_bracket] at h
  split at h
  · next hclose =>
    cases h
    exact .noItems hclose
  · next hhead =>
    obtain ⟨⟨items, _⟩, hitems, heq⟩ := Option.map_eq_some_iff.1 h
    cases heq
    refine .items (fun hhead' => ?_) hitems
    obtain ⟨t, ht⟩ := List.head?_eq_some_iff.1 hhead'
    exact hhead t ht

theorem takes_of_brace (h : readValue float (d + 1) ('\x7b' :: s) = some (v, rest)) :
    Takes float (d + 1) ('\x7b' :: s) v rest := by
  rw [readValue_brace] at h
  split at h
  · next hclose =>
    cases h
    exact .noFields hclose
  · next hhead =>
    obtain ⟨⟨fields, _⟩, hfields, heq⟩ := Option.map_eq_some_iff.1 h
    cases heq
    refine .fields (fun hhead' => ?_) hfields
    obtain ⟨t, ht⟩ := List.head?_eq_some_iff.1 hhead'
    exact hhead t ht

theorem takes_of_readValue (h : readValue float d s = some (v, rest)) :
    Takes float d (skipSpace s) v rest := by
  unfold readValue at h
  split at h
  case h_1 => cases h
  case h_2 t hs =>
    obtain ⟨⟨key, _⟩, hkey, heq⟩ := Option.map_eq_some_iff.1 h
    cases heq
    exact hs ▸ .str hkey
  case h_3 t hs =>
    obtain _ | d := d
    · cases h
    · exact hs ▸ takes_of_bracket (readValue_bracket t ▸ h)
  case h_4 t hs =>
    obtain _ | d := d
    · cases h
    · exact hs ▸ takes_of_brace (readValue_brace t ▸ h)
  case h_5 t hs =>
    obtain ⟨t', ht, heq⟩ := Option.map_eq_some_iff.1 h
    cases heq
    rw [hs, eq_append_of_dropPrefix? ht]
    exact .null
  case h_6 t hs =>
    obtain ⟨t', ht, heq⟩ := Option.map_eq_some_iff.1 h
    cases heq
    rw [hs, eq_append_of_dropPrefix? ht]
    exact .bool true
  case h_7 t hs =>
    obtain ⟨t', ht, heq⟩ := Option.map_eq_some_iff.1 h
    cases heq
    rw [hs, eq_append_of_dropPrefix? ht]
    exact .bool false
  case h_8 =>
    obtain ⟨⟨n, _⟩, hn, heq⟩ := Option.map_eq_some_iff.1 h
    cases heq
    exact .num hn

theorem Takes.readValue (h : Takes float d s v rest) : readValue float d s = some (v, rest) := by
  cases h with
  | null => rw [Json.readValue]; rfl
  | bool b => cases b <;> rw [Json.readValue] <;> rfl
  | num hn =>
    obtain ⟨m, rfl⟩ := Numeral.exists_of_readNumber hn
    rw [readValue_numeral, hn]
    rfl
  | str hkey =>
    rw [readValue_quote, hkey]
    rfl
  | noItems hclose =>
    rw [readValue_bracket, hclose]
    rfl
  | items hhead hitems =>
    rw [readValue_items hhead, hitems]
    rfl
  | noFields hclose =>
    rw [readValue_brace, hclose]
    rfl
  | fields hhead hfields =>
    rw [readValue_fields hhead, hfields]
    rfl

/-- A value starts with no blank and no closing bracket. -/
theorem Takes.exists_cons (h : Takes float d s v rest) :
    ∃ c t, s = c :: t ∧ isBlank c = false ∧ c ≠ ']' := by
  cases h with
  | null => exact ⟨'n', _, rfl, by decide, by decide⟩
  | bool b => cases b <;> exact ⟨_, _, rfl, by decide, by decide⟩
  | num hread =>
    obtain ⟨m, rfl⟩ := Numeral.exists_of_readNumber hread
    obtain ⟨c, t, htext, hc⟩ := m.exists_text_cons
    exact ⟨c, t ++ rest, by rw [htext, List.cons_append], Numeral.isBlank_first hc⟩
  | str | noItems | items | noFields | fields => exact ⟨_, _, rfl, by decide, by decide⟩

/-- A value that is read holds no others, or what it holds is read with one level less. -/
theorem readValue_cases (h : Json.readValue float d s = some (v, rest)) : v.isScalar ∨
    (∃ d' items, d = d' + 1 ∧ v = .arr items ∧
      ∀ w ∈ items, ∃ s rest, Json.readValue float d' s = some (w, rest)) ∨
    ∃ d' fields, d = d' + 1 ∧ v = .obj fields ∧
      ∀ f ∈ fields, ∃ s rest, Json.readValue float d' s = some (f.2, rest) := by
  have htakes := takes_of_readValue h
  generalize skipSpace s = t at htakes
  cases htakes with
  | null | bool | num | str => exact .inl rfl
  | noItems => exact .inr (.inl ⟨_, [], rfl, rfl, List.forall_mem_nil _⟩)
  | items _ hitems => exact .inr (.inl ⟨_, _, rfl, rfl, exists_of_readItems hitems⟩)
  | noFields => exact .inr (.inr ⟨_, [], rfl, rfl, List.forall_mem_nil _⟩)
  | fields _ hfields => exact .inr (.inr ⟨_, _, rfl, rfl, exists_of_readFields hfields⟩)

theorem depth_of_isScalar (hv : v.isScalar) : v.depth = 0 := by
  cases v with
  | arr | obj => cases hv
  | _ => rfl

/-- **What is read is nested no deeper than the reader goes.** -/
theorem depth_le_of_readValue (h : readValue float d s = some (v, rest)) : v.depth ≤ d := by
  induction d generalizing s v rest with
  | zero =>
    obtain hv | ⟨d', _, hd, -⟩ | ⟨d', _, hd, -⟩ := readValue_cases h
    · exact Nat.le_of_eq (depth_of_isScalar hv)
    · cases hd
    · cases hd
  | succ d ih =>
    obtain hv | ⟨d', items, hd, rfl, hitems⟩ | ⟨d', fields, hd, rfl, hfields⟩ := readValue_cases h
    · exact depth_of_isScalar hv ▸ Nat.zero_le _
    · cases hd
      refine Nat.succ_le_succ (depthItems_le.2 fun w hw => ?_)
      obtain ⟨s, rest, hread⟩ := hitems w hw
      exact ih hread
    · cases hd
      refine Nat.succ_le_succ (depthFields_le.2 fun f hf => ?_)
      obtain ⟨s, rest, hread⟩ := hfields f hf
      exact ih hread

theorem exists_of_read? (h : read? s = some v) :
    ∃ raw rest, readValue Decimal.estimate maxDepth s = some (raw, rest) ∧
      v = raw.mergeRepeated := by
  obtain ⟨raw, hraw, rfl⟩ := Option.map_eq_some_iff.1 h
  obtain ⟨⟨w, rest⟩, hread, hw⟩ := Option.bind_eq_some_iff.1 hraw
  dsimp only at hw
  split at hw
  · cases hw
    exact ⟨raw, rest, hread, rfl⟩
  · cases hw

theorem depth_le_of_read? (h : read? s = some v) : v.depth ≤ maxDepth := by
  obtain ⟨raw, rest, hread, rfl⟩ := exists_of_read? h
  exact Nat.le_trans (depth_mergeRepeated_le raw) (depth_le_of_readValue hread)

theorem regular_of_read? (h : read? s = some v) : v.Regular fun _ => True := by
  obtain ⟨raw, _, -, rfl⟩ := exists_of_read? h
  exact regular_mergeRepeated raw

theorem isScalar_mergeRepeated (v : Json) : v.mergeRepeated.isScalar = v.isScalar := by
  cases v <;> rfl

/-- What starts with a bracket or a brace is read as an array or an object. -/
theorem isScalar_of_readValue (hs : s.head? = some '\x7b' ∨ s.head? = some '[')
    (h : readValue float d s = some (v, rest)) : v.isScalar = false := by
  cases s with
  | nil => simp at hs
  | cons c s =>
    simp only [List.head?_cons, Option.some.injEq] at hs
    cases d with
    | zero => rcases hs with rfl | rfl <;> rw [readValue] at h <;> cases h
    | succ d =>
      rcases hs with rfl | rfl
      · rw [readValue_brace] at h
        split at h
        · cases h; rfl
        · obtain ⟨_, -, heq⟩ := Option.map_eq_some_iff.1 h
          cases heq; rfl
      · rw [readValue_bracket] at h
        split at h
        · cases h; rfl
        · obtain ⟨_, -, heq⟩ := Option.map_eq_some_iff.1 h
          cases heq; rfl

theorem isScalar_of_read? (hs : s.head? = some '\x7b' ∨ s.head? = some '[')
    (h : read? s = some v) : v.isScalar = false := by
  obtain ⟨raw, rest, hread, rfl⟩ := exists_of_read? h
  rw [isScalar_mergeRepeated, isScalar_of_readValue hs hread]

end StatVars.Json
