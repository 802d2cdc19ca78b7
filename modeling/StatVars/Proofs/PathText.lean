import StatVars.Proofs.PathGrammar

/-!
# Canonical texts of paths

The canonical text of a path is read as that path, and no two paths share one. A step is written in
one of three ways: a place as digits in brackets, a name that can stand bare behind a point, and any
other name in quotes in brackets. How a step is written can be told from its first two characters,
and where it ends from the characters that stand in it, whatever follows. Main statement:
`Path.text_injective_and_parse_text`.
-/

namespace StatVars.Path

open Text

variable {isFirst : Bool} {s s' : Step} {p : Path} {name rest rest' : List Char} {n total : Nat}

/-! ## How steps are written -/

theorem formatStep_bare (h : isBareKey name) :
    formatStep isFirst (.key (.ofList name)) = (if isFirst then [] else ['.']) ++ name := by
  simp [formatStep, h]

theorem formatStep_quoted (h : isBareKey name = false) :
    formatStep isFirst (.key (.ofList name)) =
      '[' :: '"' :: (name.flatMap escape ++ ['"', ']']) := by
  simp [formatStep, h]

/-- The three ways to write a step. -/
theorem formatStep_cases (isFirst : Bool) (s : Step) :
    (∃ n, s = .index n ∧ formatStep isFirst s = '[' :: (Nat.toDigits 10 n ++ [']'])) ∨
      (∃ name, s = .key (.ofList name) ∧ isBareKey name ∧
        formatStep isFirst s = (if isFirst then [] else ['.']) ++ name) ∨
      ∃ name, s = .key (.ofList name) ∧
        formatStep isFirst s = '[' :: '"' :: (name.flatMap escape ++ ['"', ']']) := by
  cases s with
  | index n => exact .inl ⟨n, rfl, rfl⟩
  | key name =>
    obtain ⟨name, rfl⟩ : ∃ l, name = .ofList l := ⟨name.toList, String.ofList_toList.symm⟩
    cases h : isBareKey name with
    | true => exact .inr (.inl ⟨name, rfl, h, formatStep_bare h⟩)
    | false => exact .inr (.inr ⟨name, rfl, formatStep_quoted h⟩)

/-- A name that can stand bare has a first character, and no blank and no mark. -/
theorem isBareKey_iff : isBareKey name ↔
    name ≠ [] ∧ isInteger name = false ∧ ∀ c ∈ name, isBlank c = false ∧ isMark c = false := by
  simp [isBareKey, and_assoc]

theorem inSegment_of_not_isMark {c : Char} (h : isMark c = false) :
    inSegment c = true ∧ isQuote c = false ∧ c ≠ '.' ∧ c ≠ '[' := by
  simp only [isMark, Bool.or_eq_false_iff, beq_eq_false_iff_ne] at h
  simp [inSegment, isQuote, h]

/-- A bare name is a segment of its own and begins with none of the characters that end one. -/
theorem bareKey_chars (h : isBareKey name) : (∀ c ∈ name, inSegment c) ∧
    ∃ c t, name = c :: t ∧ isBlank c = false ∧ isQuote c = false ∧ c ≠ '.' ∧ c ≠ '[' := by
  obtain ⟨hne, -, hchars⟩ := isBareKey_iff.1 h
  refine ⟨fun c hc => (inSegment_of_not_isMark (hchars c hc).2).1, ?_⟩
  obtain ⟨c, t, rfl⟩ := List.exists_cons_of_ne_nil hne
  obtain ⟨hblank, hmark⟩ := hchars c (.head _)
  exact ⟨c, t, rfl, hblank, (inSegment_of_not_isMark hmark).2⟩

theorem startsStep_formatRest (p : Path) : StartsStep (formatRest p) := by
  cases p with
  | nil => exact nofun
  | cons s p =>
    intro c hc
    rw [formatRest, List.flatMap_cons] at hc
    obtain ⟨n, -, hs⟩ | ⟨name, -, -, hs⟩ | ⟨name, -, hs⟩ := formatStep_cases false s <;>
      rw [hs] at hc <;> cases hc
    · exact .inr rfl
    · exact .inl rfl
    · exact .inr rfl

/-- What a name is written as between quotes stands for the name. -/
theorem quotedBody_escape (name : List Char) : QuotedBody '"' (name.flatMap escape) name := by
  induction name with
  | nil => exact .nil
  | cons c name ih =>
    rw [List.flatMap_cons]
    by_cases hc : c = '"' ∨ c = '\\'
    · have hescape : escape c = ['\\', c] := by rcases hc with rfl | rfl <;> rfl
      rw [hescape]
      exact .escaped (by rcases hc with rfl | rfl <;> decide) ih
    · have hescape : escape c = [c] := by simp [escape, not_or.1 hc]
      rw [hescape]
      exact .plain (by simp [not_or.1 hc]) ih

/-! ## Canonical texts are read back -/

theorem inBracket_of_isDigit {c : Char} (h : c.isDigit) : inBracket c := by
  refine inBracket_iff.2 fun hc => ?_
  simp only [List.mem_cons, List.not_mem_nil, or_false] at hc
  rcases hc with rfl | rfl | rfl | rfl <;> cases h

theorem trim_digits (n : Nat) : trim (Nat.toDigits 10 n) = Nat.toDigits 10 n := by
  refine trim_of_ends (fun d hd => ?_) fun d hd => ?_
  · exact isBlank_of_isDigit (isDigit_digits d (List.mem_of_head? hd))
  · exact isBlank_of_isDigit (isDigit_digits d (List.mem_reverse.1 (List.mem_of_head? hd)))

/-- A bare name is a segment. -/
theorem segment_of_isBareKey (h : isBareKey name) : Segment name (.key (.ofList name)) := by
  obtain ⟨hne, hinteger, hchars⟩ := isBareKey_iff.1 h
  have htrim : trim name = name := by
    refine trim_of_ends (fun d hd => ?_) fun d hd => ?_
    · exact (hchars d (List.mem_of_head? hd)).1
    · exact (hchars d (List.mem_reverse.1 (List.mem_of_head? hd))).1
  have hstep : SegmentStep name (.key (.ofList name)) := by
    refine .key fun n _ hn => ?_
    rw [hn, isInteger_digits] at hinteger
    cases hinteger
  refine .bare (fun c hc => inSegment_iff.1 ((bareKey_chars h).1 c hc)) ?_ ?_
  · rwa [htrim]
  · rwa [htrim]

/-- What a step is written as has the form of the step. -/
theorem stepText_formatStep (isFirst : Bool) (hs : ∀ n, s = .index n → n < placeBound) :
    StepText isFirst (formatStep isFirst s) s := by
  obtain ⟨n, rfl, htext⟩ | ⟨name, rfl, hname, htext⟩ | ⟨name, rfl, htext⟩ :=
    formatStep_cases isFirst s <;> rw [htext]
  · refine .bracket (.bare (fun c hc => ?_) ?_ ?_)
    · exact inBracket_iff.1 (inBracket_of_isDigit (isDigit_digits c hc))
    · rw [trim_digits]
      exact digits_ne_nil n
    · rw [trim_digits]
      exact .index rfl (hs n rfl)
  · exact .segment (segment_of_isBareKey hname)
  · have hquoted : QuotedName ('"' :: (name.flatMap escape ++ ['"'])) name :=
      .quoted (by decide) (quotedBody_escape name)
    have hblank : ∀ c ∈ ([] : List Char), isBlank c := nofun
    simpa using StepText.bracket (Bracket.quoted hblank hquoted hblank)

theorem more_formatRest (hp : ∀ n, Step.index n ∈ p → n < placeBound) : More (formatRest p) p := by
  induction p with
  | nil => exact .nil
  | cons s p ih =>
    rw [formatRest, List.flatMap_cons]
    exact .cons (stepText_formatStep false fun n hn => hp n (hn ▸ .head _))
      (ih fun n hn => hp n (.tail _ hn))

/-- The canonical text of a path has the form of the path. -/
theorem derives_format (hp : ∀ n, Step.index n ∈ p → n < placeBound) : Derives p.format p := by
  cases p with
  | nil => exact .root
  | cons s p =>
    exact .steps (stepText_formatStep true fun n hn => hp n (hn ▸ .head _))
      (more_formatRest fun n hn => hp n (.tail _ hn))

theorem parseTrimmed_format (hlength : p.length ≤ maxSteps)
    (hp : ∀ n, Step.index n ∈ p → n < placeBound) : parseTrimmed p.format = .ok p :=
  parseTrimmed_eq_ok_iff.2 ⟨hlength, derives_format hp⟩

/-! ## Canonical texts have no blanks at their ends -/

theorem stops_isBlank_formatStep (isFirst : Bool) (s : Step) :
    Stops isBlank (formatStep isFirst s) ∧ Stops isBlank (formatStep isFirst s).reverse := by
  obtain ⟨n, -, hs⟩ | ⟨name, -, hname, hs⟩ | ⟨name, -, hs⟩ := formatStep_cases isFirst s <;>
    rw [hs]
  · refine ⟨stops_cons rfl, ?_⟩
    rw [List.reverse_cons, List.reverse_append]
    exact stops_cons rfl
  · obtain ⟨-, -, hchars⟩ := isBareKey_iff.1 hname
    obtain ⟨-, c, t, rfl, hc, -⟩ := bareKey_chars hname
    refine ⟨?_, ?_⟩
    · cases isFirst
      · exact stops_cons rfl
      · exact stops_cons hc
    · obtain ⟨d, u, hu⟩ := List.exists_cons_of_ne_nil (l := (c :: t).reverse) (by simp)
      rw [List.reverse_append, hu]
      refine stops_cons (hchars d (List.mem_reverse.1 ?_)).1
      rw [hu]
      exact .head _
  · refine ⟨stops_cons rfl, ?_⟩
    rw [List.reverse_cons, List.reverse_cons, List.reverse_append]
    exact stops_cons rfl

theorem stops_isBlank_formatRest (p : Path) : Stops isBlank (formatRest p).reverse := by
  induction p with
  | nil => exact stops_nil
  | cons s p ih =>
    rw [formatRest, List.flatMap_cons, List.reverse_append]
    exact stops_append ih (stops_isBlank_formatStep false s).2

theorem trim_format (p : Path) : trim p.format = p.format := by
  cases p with
  | nil => rfl
  | cons s p =>
    obtain ⟨hfirst, hlast⟩ := stops_isBlank_formatStep true s
    refine trim_of_ends ?_ ?_
    · refine stops_append hfirst fun c hc => ?_
      rcases startsStep_formatRest p c hc with rfl | rfl <;> rfl
    · rw [format, List.reverse_append]
      exact stops_append (stops_isBlank_formatRest p) hlast

/-! ## Canonical texts differ -/

theorem bareKey_ne_bracket {t : List Char} (h : isBareKey name) :
    (if isFirst then [] else ['.']) ++ name ++ rest ≠ '[' :: t := by
  obtain ⟨-, c, u, rfl, -, -, -, hc⟩ := bareKey_chars h
  cases isFirst
  · exact fun h => absurd (List.cons.inj h).1 (by decide)
  · exact fun h => hc (List.cons.inj h).1

theorem digits_ne_quoted {t u : List Char} : Nat.toDigits 10 n ++ t ≠ '"' :: u := by
  intro h
  obtain ⟨c, v, hdigits⟩ := List.exists_cons_of_ne_nil (digits_ne_nil n)
  have hc : c.isDigit := isDigit_digits c (by rw [hdigits]; exact .head _)
  rw [hdigits] at h
  rw [(List.cons.inj h).1] at hc
  cases hc

/-- A step and what follows it are known from the text. -/
theorem formatStep_append_inj (hrest : StartsStep rest) (hrest' : StartsStep rest')
    (h : formatStep isFirst s ++ rest = formatStep isFirst s' ++ rest') :
    s = s' ∧ rest = rest' := by
  obtain ⟨n, rfl, hs⟩ | ⟨name, rfl, hname, hs⟩ | ⟨name, rfl, hs⟩ := formatStep_cases isFirst s <;>
    obtain ⟨n', rfl, hs'⟩ | ⟨name', rfl, hname', hs'⟩ | ⟨name', rfl, hs'⟩ :=
      formatStep_cases isFirst s' <;>
    rw [hs, hs'] at h
  · -- Two places.
    rw [List.cons_append, List.cons_append, List.append_assoc, List.append_assoc] at h
    obtain ⟨hdigits, hrest⟩ := run_inj isDigit_digits isDigit_digits (stops_cons rfl)
      (stops_cons rfl) (List.cons.inj h).2
    have hn : n = n' := by rw [← digitsValue_digits n, hdigits, digitsValue_digits]
    exact ⟨by rw [hn], (List.cons.inj hrest).2⟩
  · exact absurd h.symm (bareKey_ne_bracket hname')
  · simp only [List.cons_append, List.append_assoc] at h
    exact absurd (List.cons.inj h).2 digits_ne_quoted
  · exact absurd h (bareKey_ne_bracket hname)
  · -- Two bare names.
    rw [List.append_assoc, List.append_assoc, List.append_cancel_left_eq] at h
    obtain ⟨rfl, hrest⟩ := run_inj (bareKey_chars hname).1 (bareKey_chars hname').1
      hrest.stops_inSegment hrest'.stops_inSegment h
    exact ⟨rfl, hrest⟩
  · exact absurd h (bareKey_ne_bracket hname)
  · simp only [List.cons_append, List.append_assoc] at h
    exact absurd (List.cons.inj h).2.symm digits_ne_quoted
  · exact absurd h.symm (bareKey_ne_bracket hname')
  · -- Two quoted names.
    simp only [List.cons_append, List.append_assoc, List.nil_append, List.cons.injEq,
      true_and] at h
    have hread (name rest : List Char) :
        takeQuoted? '"' (name.flatMap escape ++ '"' :: rest) = some (name, rest) :=
      (takeQuoted?_eq_some_iff (by decide)).2 ⟨_, rfl, quotedBody_escape name⟩
    have heq := hread name (']' :: rest)
    rw [h, hread, Option.some.injEq, Prod.mk.injEq] at heq
    obtain ⟨rfl, hrest⟩ := heq
    exact ⟨rfl, (List.cons.inj hrest).2.symm⟩

theorem formatStep_ne_nil (isFirst : Bool) (s : Step) : formatStep isFirst s ≠ [] := by
  obtain ⟨n, -, hs⟩ | ⟨name, -, hname, hs⟩ | ⟨name, -, hs⟩ := formatStep_cases isFirst s <;> rw [hs]
  · exact List.cons_ne_nil _ _
  · exact List.append_ne_nil_of_right_ne_nil _ (isBareKey_iff.1 hname).1
  · exact List.cons_ne_nil _ _

theorem formatRest_injective {p q : Path} (h : formatRest p = formatRest q) : p = q := by
  induction p generalizing q with
  | nil =>
    cases q with
    | nil => rfl
    | cons s q => exact absurd (List.append_eq_nil_iff.1 h.symm).1 (formatStep_ne_nil false s)
  | cons s p ih =>
    cases q with
    | nil => exact absurd (List.append_eq_nil_iff.1 h).1 (formatStep_ne_nil false s)
    | cons s' q =>
      obtain ⟨rfl, hrest⟩ :=
        formatStep_append_inj (startsStep_formatRest p) (startsStep_formatRest q) h
      rw [ih hrest]

theorem format_injective {p q : Path} (h : p.format = q.format) : p = q := by
  cases p with
  | nil =>
    cases q with
    | nil => rfl
    | cons s q => exact absurd (List.append_eq_nil_iff.1 h.symm).1 (formatStep_ne_nil true s)
  | cons s p =>
    cases q with
    | nil => exact absurd (List.append_eq_nil_iff.1 h).1 (formatStep_ne_nil true s)
    | cons s' q =>
      obtain ⟨rfl, hrest⟩ :=
        formatStep_append_inj (startsStep_formatRest p) (startsStep_formatRest q) h
      rw [formatRest_injective hrest]

/-- **The canonical text of a path belongs to it alone and is read as it.** -/
theorem text_injective_and_parse_text :
    Function.Injective text ∧
      ∀ p : Path, p.length ≤ 256 → (∀ n, Step.index n ∈ p → n < UInt64.size) →
        byteLength p.text.toList ≤ 1024 → parse p.text = .ok p := by
  refine ⟨fun p q h => format_injective (String.ofList_inj.1 h), fun p hlength hp hbytes => ?_⟩
  rw [text, String.toList_ofList] at hbytes
  have hshort : ¬ maxBytes < byteLength p.format := Nat.not_lt.2 hbytes
  rw [parse, text, String.toList_ofList, parseChars, if_neg hshort, trim_format]
  exact parseTrimmed_format hlength hp

/-- An empty name, a name of digits, one with a quote, a point and blanks, and the greatest
place. -/
theorem parse_text_quoted_names :
    let p : Path := [.key "", .key "07", .key " a.\"b\\[ ", .index 18446744073709551615, .key "体力"]
    p.text = "[\"\"][\"07\"][\" a.\\\"b\\\\[ \"][18446744073709551615].体力" ∧
      parse p.text = .ok p := by
  intro p
  exact ⟨by decide +kernel, text_injective_and_parse_text.2 p (by decide) (by simp [p])
    (by decide +kernel)⟩

end StatVars.Path
