import StatVars.Fallible
import StatVars.Path.Codec
import StatVars.Proofs.JsonString
import StatVars.Proofs.PathText

/-!
# The length of canonical texts

A canonical text may be longer than the text that the path was read from: a place gains brackets,
and a name quotes and backslashes. It is at most three times as long and three bytes more, so the
canonical texts of short texts are within the limit of the reader. The canonical text of a path that
was read is read as the same path just if it is within this limit. Main statement:
`Path.canonicalize_canonicalize`.
-/

namespace StatVars

open Fallible Text

/-! ## Lengths in bytes -/

namespace Text

variable {s : List Char}

theorem byteLength_dropWhile_le (p : Char → Bool) (s : List Char) :
    byteLength (s.dropWhile p) ≤ byteLength s := by
  have hsplit := byteLength_append (s.takeWhile p) (s.dropWhile p)
  rw [List.takeWhile_append_dropWhile] at hsplit
  omega

theorem byteLength_reverse (s : List Char) : byteLength s.reverse = byteLength s := by
  induction s with
  | nil => rfl
  | cons c s ih => simp [ih, Nat.add_comm]

theorem byteLength_trim_le (s : List Char) : byteLength (trim s) ≤ byteLength s := by
  have hend := byteLength_dropWhile_le isBlank (s.dropWhile isBlank).reverse
  rw [byteLength_reverse] at hend
  rw [trim, trimWhile, dropEndWhile, byteLength_reverse]
  exact Nat.le_trans hend (byteLength_dropWhile_le isBlank s)

theorem utf8Size_of_isDigit {c : Char} (h : c.isDigit) : c.utf8Size = 1 := by
  rw [Char.utf8Size_eq_one_iff]
  simp only [Char.isDigit, ge_iff_le, Bool.and_eq_true, decide_eq_true_eq] at h
  exact UInt32.le_trans h.2 (by decide)

theorem byteLength_of_isDigit (h : ∀ c ∈ s, c.isDigit) : byteLength s = s.length := by
  induction s with
  | nil => rfl
  | cons c s ih =>
    obtain ⟨hc, hs⟩ := List.forall_mem_cons.1 h
    rw [byteLength_cons, ih hs, utf8Size_of_isDigit hc, List.length_cons, Nat.add_comm]

end Text

namespace Path

variable {s name : List Char} {step : Step} {p : Path}

/-! ## How long a step is -/

theorem byteLength_escape_le (c : Char) : byteLength (escape c) ≤ 2 * c.utf8Size := by
  unfold escape
  split
  · next hc =>
    simp only [Bool.or_eq_true, beq_iff_eq] at hc
    rcases hc with rfl | rfl <;> decide
  · simp only [byteLength_cons, byteLength_nil]
    omega

theorem byteLength_flatMap_escape_le (name : List Char) :
    byteLength (name.flatMap escape) ≤ 2 * byteLength name := by
  induction name with
  | nil => exact Nat.le_refl _
  | cons c name ih =>
    have hc := byteLength_escape_le c
    rw [List.flatMap_cons, byteLength_append, byteLength_cons]
    omega

/-- Quotes, brackets and backslashes at most double a name and add four bytes. -/
theorem byteLength_formatStep_key_le (name : List Char) :
    byteLength (formatStep false (.key (.ofList name))) ≤ 2 * byteLength name + 4 := by
  cases hname : isBareKey name with
  | true =>
    have hsize : byteLength (formatStep false (.key (.ofList name))) = byteLength name + 1 := by
      rw [formatStep_bare hname]
      simp [show Char.utf8Size '.' = 1 from rfl, Nat.add_comm]
    omega
  | false =>
    have hescape := byteLength_flatMap_escape_le name
    have hsize : byteLength (formatStep false (.key (.ofList name))) =
        byteLength (name.flatMap escape) + 4 := by
      rw [formatStep_quoted hname]
      simp [show Char.utf8Size '[' = 1 from rfl, show Char.utf8Size ']' = 1 from rfl,
        show Char.utf8Size '"' = 1 from rfl]
      omega
    omega

theorem byteLength_formatStep_index (n : Nat) :
    byteLength (formatStep false (.index n)) = (Nat.toDigits 10 n).length + 2 := by
  have hdigits := byteLength_of_isDigit (s := Nat.toDigits 10 n) isDigit_digits
  simp [formatStep, show Char.utf8Size '[' = 1 from rfl, show Char.utf8Size ']' = 1 from rfl,
    hdigits]
  omega

/-- Without the point before it a step is not longer. -/
theorem byteLength_formatStep_true_le (step : Step) :
    byteLength (formatStep true step) ≤ byteLength (formatStep false step) := by
  cases step with
  | index n => exact Nat.le_refl _
  | key name =>
    simp only [formatStep]
    split
    · simp
    · exact Nat.le_refl _

/-! ## How long the text of a step is that was read -/

/-- A step is a place of at most 64 bits or a name, and its canonical text is not longer than the
bound. -/
structure Bounded (bound : Nat) (step : Step) : Prop where
  place : ∀ n, step = .index n → n < placeBound
  length : byteLength (formatStep false step) ≤ bound

theorem Bounded.mono {bound bound' : Nat} (h : Bounded bound step) (hle : bound ≤ bound') :
    Bounded bound' step :=
  ⟨h.place, Nat.le_trans h.length hle⟩

theorem bounded_key (name : List Char) :
    Bounded (2 * byteLength name + 4) (.key (.ofList name)) :=
  ⟨nofun, byteLength_formatStep_key_le name⟩

theorem bounded_index {n : Nat} (hs : s = Nat.toDigits 10 n) (hn : n < placeBound) :
    Bounded (2 * byteLength s + 4) (.index n) := by
  refine ⟨fun m hm => by cases hm; exact hn, ?_⟩
  rw [byteLength_formatStep_index, hs, byteLength_of_isDigit isDigit_digits]
  omega

theorem SegmentStep.bounded (h : SegmentStep s step) : Bounded (2 * byteLength s + 4) step := by
  cases h with
  | index hs hn => exact bounded_index hs hn
  | key => exact bounded_key s

theorem BracketStep.bounded (h : BracketStep s step) : Bounded (2 * byteLength s + 4) step := by
  cases h with
  | index hs hn => exact bounded_index hs hn
  | key => exact bounded_key s

theorem QuotedBody.byteLength_le {quote : Char} (h : QuotedBody quote s name) :
    byteLength name ≤ byteLength s := by
  have hslash : Char.utf8Size '\\' = 1 := rfl
  induction h with
  | nil => exact Nat.le_refl _
  | escaped _ _ ih | kept _ _ ih | plain _ _ ih =>
    simp only [byteLength_cons, hslash]
    omega

/-- A quoted name takes its two quotes more than its characters. -/
theorem QuotedName.byteLength_le (h : QuotedName s name) : byteLength name + 2 ≤ byteLength s := by
  cases h with
  | @quoted quote s name _ hbody =>
    have hlength := hbody.byteLength_le
    have hquote := Char.utf8Size_pos quote
    simp only [byteLength_cons, byteLength_append, byteLength_nil]
    omega

theorem byteLength_pos_of_trim (h : trim s ≠ []) : 0 < byteLength s := by
  cases s with
  | nil => exact absurd rfl h
  | cons c s => exact Nat.add_pos_left (Char.utf8Size_pos c) _

theorem Segment.bounded (h : Segment s step) : Bounded (3 * byteLength s + 3) step := by
  cases h with
  | @quoted name hname =>
    have hlength := hname.byteLength_le
    exact (bounded_key name).mono (by omega)
  | bare _ hne hstep =>
    have htrim := byteLength_trim_le s
    have hpos := byteLength_pos_of_trim hne
    exact hstep.bounded.mono (by omega)

theorem Bracket.bounded (h : Bracket s step) : Bounded (3 * byteLength s) step := by
  have hopen : Char.utf8Size '[' = 1 := rfl
  have hclose : Char.utf8Size ']' = 1 := rfl
  cases h with
  | @quoted before s after name _ hname =>
    have hlength := hname.byteLength_le
    refine (bounded_key name).mono ?_
    simp only [byteLength_cons, byteLength_append, byteLength_nil, hopen, hclose]
    omega
  | @bare s _ _ _ hstep =>
    have htrim := byteLength_trim_le s
    refine hstep.bounded.mono ?_
    simp only [byteLength_cons, byteLength_append, byteLength_nil, hopen, hclose]
    omega

/-- The first step may be a segment without a point, and its text longer by three bytes. -/
theorem StepText.bounded {isFirst : Bool} (h : StepText isFirst s step) :
    Bounded (3 * byteLength s + if isFirst then 3 else 0) step := by
  have hpoint : Char.utf8Size '.' = 1 := rfl
  cases h with
  | segment h =>
    refine h.bounded.mono ?_
    cases isFirst
    · simp only [Bool.false_eq_true, if_false, byteLength_append, byteLength_cons, byteLength_nil,
        hpoint]
      omega
    · exact Nat.le_refl _
  | bracket h => exact h.bounded.mono (Nat.le_add_right _ _)

theorem More.bounds (h : More s p) :
    (∀ n, Step.index n ∈ p → n < placeBound) ∧ byteLength (formatRest p) ≤ 3 * byteLength s := by
  induction h with
  | nil => exact ⟨nofun, Nat.le_refl _⟩
  | cons hstep _ ih =>
    obtain ⟨hplaces, hrest⟩ := ih
    have hlength := hstep.bounded.length
    refine ⟨fun n hn => ?_, ?_⟩
    · rcases List.mem_cons.1 hn with hn | hn
      · exact hstep.bounded.place n hn.symm
      · exact hplaces n hn
    · rw [formatRest, List.flatMap_cons, ← formatRest, byteLength_append, byteLength_append]
      simp only [Bool.false_eq_true, if_false] at hlength
      omega

theorem Derives.bounds (h : Derives s p) :
    (∀ n, Step.index n ∈ p → n < placeBound) ∧ byteLength p.format ≤ 3 * byteLength s + 3 := by
  cases h with
  | root => exact ⟨nofun, Nat.zero_le _⟩
  | @steps s rest step p hstep hmore =>
    obtain ⟨hplaces, hrest⟩ := hmore.bounds
    have hfirst := byteLength_formatStep_true_le step
    have hlength := hstep.bounded.length
    refine ⟨fun n hn => ?_, ?_⟩
    · rcases List.mem_cons.1 hn with hn | hn
      · exact hstep.bounded.place n hn.symm
      · exact hplaces n hn
    · rw [format, byteLength_append, byteLength_append]
      simp only [if_true] at hlength
      omega

/-- **A path that is read has no more steps and no larger places than a path may have, and its
canonical text is at most three times as long and three bytes more.** -/
theorem parse_bounds {raw : String} (h : parse raw = .ok p) :
    p.length ≤ maxSteps ∧ (∀ n, Step.index n ∈ p → n < placeBound) ∧
      byteLength p.format ≤ 3 * byteLength raw.toList + 3 := by
  unfold parse parseChars at h
  split at h
  · cases h
  obtain ⟨hcount, hderives⟩ := parseTrimmed_eq_ok_iff.1 h
  obtain ⟨hplaces, hlength⟩ := hderives.bounds
  have htrim := byteLength_trim_le raw.toList
  exact ⟨hcount, hplaces, by omega⟩

/-! ## Reading canonical texts -/

/-- A canonical text that is not too long is read as its path, and a longer one is not read. -/
theorem parse_text_of_bounds (hlength : p.length ≤ maxSteps)
    (hp : ∀ n, Step.index n ∈ p → n < placeBound) :
    parse p.text = if byteLength p.text.toList ≤ maxBytes then .ok p else .error .tooLong := by
  rw [parse, text, String.toList_ofList, parseChars, trim_format]
  by_cases hbytes : byteLength p.format ≤ maxBytes
  · rw [if_neg (Nat.not_lt.2 hbytes), if_pos hbytes]
    exact parseTrimmed_format hlength hp
  · rw [if_pos (Nat.lt_of_not_le hbytes), if_neg hbytes]

/-- A path that is written in JSON is read as its canonical text is. -/
theorem read?_toJson (p : Path) : read? p.toJson.write = (parse p.text).toOption := by
  have hstring : Json.read? p.toJson.write = some (.str p.text) := by
    show Json.read? (Json.writeString p.text.toList) = _
    rw [Json.read?_writeString, String.ofList_toList]
  rw [read?, hstring]
  rfl

/-- **The canonical text of a path that was read is its own canonical text just if it is within the
limit of the reader,** which it is if the path was read from at most 340 bytes. The same holds of
the path that is written in JSON. -/
theorem canonicalize_canonicalize {raw canonical : String}
    (h : canonicalize raw = .ok canonical) :
    canonicalize canonical =
        (if byteLength canonical.toList ≤ 1024 then .ok canonical else .error .tooLong) ∧
      (∃ p, parse raw = .ok p ∧ p.text = canonical ∧
        read? p.toJson.write = if byteLength canonical.toList ≤ 1024 then some p else none) ∧
      (byteLength raw.toList ≤ 340 → byteLength canonical.toList ≤ 1024) := by
  obtain ⟨p, hp, rfl⟩ := exists_of_map_ok h
  obtain ⟨hlength, hplaces, hbytes⟩ := parse_bounds hp
  have hread : parse p.text =
      if byteLength p.text.toList ≤ 1024 then .ok p else .error .tooLong :=
    parse_text_of_bounds hlength hplaces
  refine ⟨?_, ⟨p, hp, rfl, ?_⟩, fun hraw => ?_⟩
  · rw [canonicalize, hread, apply_ite (Except.map text)]
    rfl
  · rw [read?_toJson, hread, apply_ite Except.toOption]
    rfl
  · rw [text, String.toList_ofList]
    omega

/-- Of a text of 341 bytes the canonical text may be too long: each of these 171 names is a
backslash, which stands in quotes and behind another one. -/
theorem canonicalize_canonicalize_backslashes :
    let raw : List Char := '\\' :: (List.replicate 170 ['.', '\\']).flatten
    let p : Path := List.replicate 171 (.key "\\")
    byteLength raw = 341 ∧ canonicalize (.ofList raw) = .ok p.text ∧
      byteLength p.text.toList = 1026 ∧ canonicalize p.text = .error .tooLong := by
  intro raw p
  have hraw : canonicalize (.ofList raw) = .ok p.text := by
    have hread : (parseChars raw).toOption = some p := by decide +kernel
    rw [canonicalize, parse, String.toList_ofList]
    cases h : parseChars raw with
    | ok q =>
      rw [h] at hread
      rw [← Option.some.inj hread]
      rfl
    | error e =>
      rw [h] at hread
      cases hread
  have hlength : byteLength p.text.toList = 1026 := by
    rw [text, String.toList_ofList]
    decide +kernel
  refine ⟨by decide +kernel, hraw, hlength, ?_⟩
  rw [(canonicalize_canonicalize hraw).1, if_neg (by rw [hlength]; decide)]

end Path

end StatVars
