import StatVars.Fallible
import StatVars.Path.Parser
import StatVars.Proofs.Digits

/-!
# The grammar of paths

What a path may look like, apart from how it is read. A path is a first segment or bracket and then
any number of brackets and of segments behind points (`Path.Derives`). The reader accepts just the
texts that the grammar derives, with just these steps, if the text and the path are not too long.
That it finds a step where the grammar has one rests on what ends the step: a segment ends before a
point or a bracket, and nothing else can follow it, while quoted names and brackets have an end of
their own. Main statement: `Path.parse_eq_ok_iff`.
-/

namespace StatVars

open Fallible Text

/-! ## Places -/

theorem digitChar_toNat_sub {c : Char} (h : c.isDigit) :
    c.toNat - '0'.toNat < 10 ∧ Nat.digitChar (c.toNat - '0'.toNat) = c := by
  have hbounds : 48 ≤ c.toNat ∧ c.toNat ≤ 57 := by
    simpa [Char.isDigit, Char.le_def, UInt32.le_iff_toNat_le] using h
  have hchar : ∀ n < 58, 48 ≤ n → Nat.digitChar (n - '0'.toNat) = .ofNat n := by decide
  refine ⟨by simp; omega, ?_⟩
  rw [hchar c.toNat (Nat.lt_succ_of_le hbounds.2) hbounds.1, Char.ofNat_toNat]

/-- Digits behind those of a number go on writing it, for the number is not zero. -/
theorem digits_append {s : List Char} (hs : ∀ c ∈ s, c.isDigit) {n : Nat} (hn : 0 < n) :
    Nat.toDigits 10 n ++ s =
      Nat.toDigits 10 (s.foldl (fun n c => 10 * n + (c.toNat - '0'.toNat)) n) := by
  induction s generalizing n with
  | nil => simp
  | cons c s ih =>
    obtain ⟨hc, hs⟩ := List.forall_mem_cons.1 hs
    obtain ⟨hdigit, hchar⟩ := digitChar_toNat_sub hc
    have hfirst := Nat.toDigits_append_toDigits (by decide) hn hdigit
    rw [Nat.toDigits_of_lt_base hdigit, hchar] at hfirst
    rw [List.foldl_cons, ← ih hs (by omega), ← hfirst, List.append_assoc]
    rfl

/-- The text of a place is the digits of the number that it writes. -/
theorem digits_digitsValue {s : List Char} (h : Path.isIndex s) :
    Nat.toDigits 10 (Decimal.digitsValue s) = s := by
  simp only [Path.isIndex, Path.isInteger, Bool.and_eq_true, Bool.not_eq_true',
    List.isEmpty_eq_false_iff, List.all_eq_true, Bool.or_eq_true, bne_iff_ne, beq_iff_eq] at h
  obtain ⟨⟨hne, hdigits⟩, hhead⟩ := h
  obtain ⟨c, s, rfl⟩ := List.exists_cons_of_ne_nil hne
  obtain ⟨hc, hs⟩ := List.forall_mem_cons.1 hdigits
  obtain ⟨hdigit, hchar⟩ := digitChar_toNat_sub hc
  by_cases hzero : c = '0'
  · have hnil : s = [] := by simpa [hzero] using hhead
    subst hzero hnil
    rfl
  · have hpos : 0 < c.toNat - '0'.toNat := by
      refine Nat.pos_of_ne_zero fun h => hzero ?_
      rw [← hchar, h]
      rfl
    rw [Decimal.digitsValue, List.foldl_cons, Nat.mul_zero, Nat.zero_add, ← digits_append hs hpos,
      Nat.toDigits_of_lt_base hdigit, hchar, List.singleton_append]

namespace Path

variable {s t rest name k : List Char} {quote c : Char} {step : Step} {n total room start : Nat}
  {p : Path}

theorem isIndex_iff : isIndex s ↔ ∃ n, s = Nat.toDigits 10 n := by
  constructor
  · exact fun h => ⟨_, (digits_digitsValue h).symm⟩
  · rintro ⟨n, rfl⟩
    exact isIndex_digits n

theorem place?_eq_some_iff : place? s = some n ↔ s = Nat.toDigits 10 n ∧ n < UInt64.size := by
  constructor
  · intro h
    unfold place? at h
    split at h
    · next hs =>
      obtain ⟨hindex, hbound⟩ := Bool.and_eq_true_iff.1 hs
      cases h
      exact ⟨(digits_digitsValue hindex).symm, of_decide_eq_true hbound⟩
    · cases h
  · rintro ⟨rfl, hn⟩
    exact place?_digits hn

/-! ## The grammar -/

/-- What stands between the quotes of a name: a backslash before a backslash or a quote stands for
that character, and any other one for itself. -/
inductive QuotedBody (quote : Char) : List Char → List Char → Prop
  | nil : QuotedBody quote [] []
  | escaped {c : Char} {s name : List Char} (hc : c ∈ ['\\', '"', '\''])
    (h : QuotedBody quote s name) : QuotedBody quote ('\\' :: c :: s) (c :: name)
  | kept {c : Char} {s name : List Char} (hc : c ∉ ['\\', '"', '\''])
    (h : QuotedBody quote s name) : QuotedBody quote ('\\' :: c :: s) ('\\' :: c :: name)
  | plain {c : Char} {s name : List Char} (hc : c ∉ ['\\', quote])
    (h : QuotedBody quote s name) : QuotedBody quote (c :: s) (c :: name)

inductive QuotedName : List Char → List Char → Prop
  | quoted {quote : Char} {s name : List Char} (hquote : quote ∈ ['"', '\''])
    (h : QuotedBody quote s name) : QuotedName (quote :: (s ++ [quote])) name

/-- An unquoted segment is a place if it writes one of at most 64 bits. -/
inductive SegmentStep (s : List Char) : Step → Prop
  | index {n : Nat} (hs : s = Nat.toDigits 10 n) (hn : n < UInt64.size) : SegmentStep s (.index n)
  | key (hs : ∀ n < UInt64.size, s ≠ Nat.toDigits 10 n) : SegmentStep s (.key (.ofList s))

/-- An unquoted text in brackets is a place if it writes one, which then must have at most 64
bits. -/
inductive BracketStep (s : List Char) : Step → Prop
  | index {n : Nat} (hs : s = Nat.toDigits 10 n) (hn : n < UInt64.size) : BracketStep s (.index n)
  | key (hs : ∀ n, s ≠ Nat.toDigits 10 n) : BracketStep s (.key (.ofList s))

inductive Segment : List Char → Step → Prop
  | quoted {s name : List Char} (h : QuotedName s name) : Segment s (.key (.ofList name))
  | bare {s : List Char} {step : Step} (hs : ∀ c ∈ s, c ∉ ['.', '[', ']', '"', '\''])
    (hne : trim s ≠ []) (hstep : SegmentStep (trim s) step) : Segment s step

inductive Bracket : List Char → Step → Prop
  | quoted {before s after name : List Char} (hbefore : ∀ c ∈ before, isBlank c)
    (h : QuotedName s name) (hafter : ∀ c ∈ after, isBlank c) :
    Bracket ('[' :: (before ++ (s ++ (after ++ [']'])))) (.key (.ofList name))
  | bare {s : List Char} {step : Step} (hs : ∀ c ∈ s, c ∉ ['[', ']', '"', '\''])
    (hne : trim s ≠ []) (hstep : BracketStep (trim s) step) : Bracket ('[' :: (s ++ [']'])) step

/-- A segment, which has a point before it unless it comes first, or a bracket. -/
inductive StepText (isFirst : Bool) : List Char → Step → Prop
  | segment {s : List Char} {step : Step} (h : Segment s step) :
    StepText isFirst ((if isFirst then [] else ['.']) ++ s) step
  | bracket {s : List Char} {step : Step} (h : Bracket s step) : StepText isFirst s step

inductive More : List Char → Path → Prop
  | nil : More [] []
  | cons {s rest : List Char} {step : Step} {p : Path} (h : StepText false s step)
    (hrest : More rest p) : More (s ++ rest) (step :: p)

/-- The text has the form of a path with these steps. -/
inductive Derives : List Char → Path → Prop
  | root : Derives [] []
  | steps {s rest : List Char} {step : Step} {p : Path} (h : StepText true s step)
    (hrest : More rest p) : Derives (s ++ rest) (step :: p)

/-! ## Quoted names -/

theorem isQuote_iff : isQuote c ↔ c ∈ ['"', '\''] := by
  simp [isQuote]

theorem isEscapable_iff : (c == '\\' || isQuote c) = true ↔ c ∈ ['\\', '"', '\''] := by
  simp [isQuote]

/-- A quoted name is read just if it is one, up to its closing quote. -/
theorem takeQuoted?_eq_some_iff (hquote : quote ≠ '\\') :
    takeQuoted? quote s = some (name, rest) ↔
      ∃ body, s = body ++ quote :: rest ∧ QuotedBody quote body name := by
  constructor
  · intro h
    fun_induction takeQuoted? quote s generalizing name rest with
    | case1 => cases h
    | case2 => cases h
    | case3 c s ih =>
      obtain ⟨⟨k, t⟩, hread, heq⟩ := Option.map_eq_some_iff.1 h
      obtain ⟨body, rfl, hbody⟩ := ih hread
      cases heq
      refine ⟨'\\' :: c :: body, rfl, ?_⟩
      split
      · next hc => exact .escaped (isEscapable_iff.1 hc) hbody
      · next hc => exact .kept (mt isEscapable_iff.2 hc) hbody
    | case4 s =>
      cases h
      exact ⟨[], rfl, .nil⟩
    | case5 c s hlast hescape hc ih =>
      obtain ⟨⟨k, t⟩, hread, heq⟩ := Option.map_eq_some_iff.1 h
      obtain ⟨body, rfl, hbody⟩ := ih hread
      cases heq
      -- A backslash has a character behind it, so it would have been read as an escape.
      have hslash : c ≠ '\\' := by
        rintro rfl
        cases body with
        | nil => exact hescape quote rest rfl rfl
        | cons d body => exact hescape d _ rfl rfl
      exact ⟨c :: body, rfl, .plain (by simp [hslash, hc]) hbody⟩
  · rintro ⟨body, rfl, h⟩
    induction h with
    | nil => rw [List.nil_append, takeQuoted?, if_pos rfl] <;> simp [hquote]
    | escaped hc _ ih =>
      rw [List.cons_append, List.cons_append, takeQuoted?, ih, Option.map_some]
      exact congrArg (fun k => some (k, rest)) (if_pos (isEscapable_iff.2 hc))
    | kept hc _ ih =>
      rw [List.cons_append, List.cons_append, takeQuoted?, ih, Option.map_some]
      exact congrArg (fun k => some (k, rest)) (if_neg (mt isEscapable_iff.1 hc))
    | plain hc _ ih =>
      obtain ⟨hslash, hc⟩ := by simpa using hc
      rw [List.cons_append, takeQuoted?, if_neg hc, ih, Option.map_some] <;> simp [hslash]

theorem quotedKey_eq_ok_iff (hquote : isQuote quote) {key : String} :
    quotedKey total (quote :: s) quote = .ok (key, rest) ↔
      ∃ t name, quote :: s = t ++ rest ∧ QuotedName t name ∧ key = .ofList name := by
  have hslash : quote ≠ '\\' := by
    rintro rfl
    cases hquote
  constructor
  · intro h
    unfold quotedKey at h
    split at h
    · next name t hread =>
      cases h
      obtain ⟨body, hs, hbody⟩ := (takeQuoted?_eq_some_iff hslash).1 hread
      refine ⟨quote :: (body ++ [quote]), name, ?_, .quoted (isQuote_iff.1 hquote) hbody, rfl⟩
      rw [List.cons_append, List.append_assoc]
      exact congrArg (quote :: ·) hs
    · cases h
  · rintro ⟨t, name, hs, ⟨-, hbody⟩, rfl⟩
    rw [List.cons_append, List.append_assoc] at hs
    obtain ⟨rfl, hs⟩ := List.cons.inj hs
    rw [quotedKey, List.drop_succ_cons, List.drop_zero,
      (takeQuoted?_eq_some_iff hslash).2 ⟨_, hs, hbody⟩]
    rfl

theorem exists_cons_of_quotedName (h : QuotedName s name) :
    ∃ quote t, s = quote :: t ∧ isQuote quote := by
  obtain ⟨hquote, -⟩ := h
  exact ⟨_, _, rfl, isQuote_iff.2 hquote⟩

/-! ## Unquoted names and places -/

theorem segmentStep_iff : SegmentStep s step ↔ bareStep s = step := by
  constructor
  · intro h
    unfold bareStep
    cases h with
    | index hs hn => rw [place?_eq_some_iff.2 ⟨hs, hn⟩]
    | key hs =>
      cases hplace : place? s with
      | none => rfl
      | some n =>
        obtain ⟨hdigits, hn⟩ := place?_eq_some_iff.1 hplace
        exact absurd hdigits (hs n hn)
  · rintro rfl
    unfold bareStep
    split
    · next n hplace =>
      obtain ⟨hdigits, hn⟩ := place?_eq_some_iff.1 hplace
      exact .index hdigits hn
    · next hplace =>
      refine .key fun n hn hdigits => ?_
      rw [place?_eq_some_iff.2 ⟨hdigits, hn⟩] at hplace
      cases hplace

theorem bracketStep_iff : BracketStep s step ↔ bracketStep s = .ok step := by
  constructor
  · intro h
    unfold bracketStep
    cases h with
    | index hs hn => rw [if_pos (isIndex_iff.2 ⟨_, hs⟩), place?_eq_some_iff.2 ⟨hs, hn⟩]
    | key hs =>
      refine if_neg fun hindex => ?_
      obtain ⟨n, hn⟩ := isIndex_iff.1 hindex
      exact hs n hn
  · intro h
    unfold bracketStep at h
    split at h
    · split at h
      · next n hplace =>
        cases h
        obtain ⟨hdigits, hn⟩ := place?_eq_some_iff.1 hplace
        exact .index hdigits hn
      · cases h
    · next hindex =>
      cases h
      exact .key fun n hn => hindex (isIndex_iff.2 ⟨n, hn⟩)

/-! ## Segments and brackets -/

theorem inSegment_iff : inSegment c ↔ c ∉ ['.', '[', ']', '"', '\''] := by
  simp [inSegment, isQuote, and_assoc]

theorem inBracket_iff : inBracket c ↔ c ∉ ['[', ']', '"', '\''] := by
  simp [inBracket, isQuote, and_assoc]

/-- What can follow the text of a step: nothing, a point or a bracket. -/
def StartsStep (rest : List Char) : Prop :=
  ∀ c ∈ rest.head?, c = '.' ∨ c = '['

theorem StartsStep.stops_inSegment (h : StartsStep rest) : Stops inSegment rest := by
  intro c hc
  rcases h c hc with rfl | rfl <;> rfl

/-- A bare segment is read up to the point or the bracket behind it. -/
theorem segment_run (total : Nat) (hs : ∀ c ∈ s, inSegment c) (hne : trim s ≠ [])
    (hrest : StartsStep rest) : segment total (s ++ rest) = .ok (bareStep (trim s), rest) := by
  have hstop := hrest.stops_inSegment
  cases s with
  | nil => exact absurd rfl hne
  | cons c s =>
    have hc : isQuote c = false ∧ c ≠ '.' ∧ c ≠ '[' := by
      have hc := hs c (.head _)
      simp only [inSegment, Bool.and_eq_true, bne_iff_ne, Bool.not_eq_true'] at hc
      exact ⟨hc.2, hc.1.1.1, hc.1.1.2⟩
    rw [List.cons_append, segment, ← List.cons_append]
    simp only [takeWhile_run hs hstop, dropWhile_run hs hstop]
    cases rest with
    | nil => simp [hc, hne]
    | cons d rest =>
      rcases hrest d rfl with rfl | rfl <;>
        simp [hc, hne, show isQuote '.' = false from rfl, show isQuote '[' = false from rfl]

theorem segment_sound (h : segment total s = .ok (step, rest)) :
    ∃ t, s = t ++ rest ∧ Segment t step := by
  cases s with
  | nil => cases h
  | cons c s =>
    simp only [segment] at h
    split at h
    · next hc =>
      obtain ⟨⟨key, t⟩, hread, heq⟩ := exists_of_map_ok h
      obtain ⟨t, name, hs, hname, rfl⟩ := (quotedKey_eq_ok_iff hc).1 hread
      cases heq
      exact ⟨t, hs, .quoted hname⟩
    split at h
    · cases h
    · obtain ⟨t, rest', hs, ht, hstop⟩ := exists_run inSegment (c :: s)
      rw [hs, takeWhile_run ht hstop, dropWhile_run ht hstop] at h
      have hplain : (trim t).isEmpty = false ∧ bareStep (trim t) = step ∧ rest' = rest := by
        split at h
        · split at h
          · cases h
          · next hne => cases h; exact ⟨by simpa using hne, rfl, rfl⟩
        · split at h
          · cases h
          split at h
          · cases h
          split at h
          · cases h
          · next hne => cases h; exact ⟨by simpa using hne, rfl, rfl⟩
      obtain ⟨hne, hstep, rfl⟩ := hplain
      exact ⟨t, hs, .bare (fun d hd => inSegment_iff.1 (ht d hd)) (List.isEmpty_eq_false_iff.1 hne)
        (segmentStep_iff.2 hstep)⟩

theorem segment_complete (total : Nat) (h : Segment t step) (hrest : StartsStep rest) :
    segment total (t ++ rest) = .ok (step, rest) := by
  cases h with
  | quoted hname =>
    obtain ⟨quote, u, rfl, hquote⟩ := exists_cons_of_quotedName hname
    have hread : quotedKey total (quote :: (u ++ rest)) quote = .ok (.ofList _, rest) :=
      (quotedKey_eq_ok_iff hquote).2 ⟨quote :: u, _, rfl, hname, rfl⟩
    rw [List.cons_append, segment, if_pos hquote, hread]
    rfl
  | bare hs hne hstep =>
    rw [segment_run total (fun c hc => inSegment_iff.2 (hs c hc)) hne hrest,
      segmentStep_iff.1 hstep]

theorem closeBracket_eq_ok_iff {key : String} :
    closeBracket total start key s = .ok (step, rest) ↔
      ∃ after, (∀ c ∈ after, isBlank c) ∧ s = after ++ ']' :: rest ∧ step = .key key := by
  constructor
  · intro h
    obtain ⟨after, inner, rfl, hafter, hstop⟩ := exists_run isBlank s
    rw [closeBracket, dropWhile_run hafter hstop] at h
    cases inner with
    | nil => cases h
    | cons c inner =>
      dsimp only at h
      split at h
      · next hc =>
        obtain rfl := beq_iff_eq.1 hc
        cases h
        exact ⟨after, hafter, rfl, rfl⟩
      · cases h
  · rintro ⟨after, hafter, rfl, rfl⟩
    rw [closeBracket, dropWhile_run hafter (stops_cons rfl)]
    rfl

theorem plainBracket_eq_ok_iff :
    plainBracket total start s = .ok (step, rest) ↔
      ∃ t, (∀ c ∈ t, inBracket c) ∧ s = t ++ ']' :: rest ∧ trim t ≠ [] ∧
        bracketStep (trim t) = .ok step := by
  constructor
  · intro h
    obtain ⟨t, inner, rfl, ht, hstop⟩ := exists_run inBracket s
    rw [plainBracket, dropWhile_run ht hstop, takeWhile_run ht hstop] at h
    cases inner with
    | nil => cases h
    | cons c inner =>
      dsimp only at h
      split at h
      · next hc =>
        obtain rfl := beq_iff_eq.1 hc
        split at h
        · cases h
        · next hne =>
          obtain ⟨step', hstep, heq⟩ := exists_of_map_ok h
          cases heq
          exact ⟨t, ht, rfl, by simpa using hne, hstep⟩
      · split at h <;> cases h
  · rintro ⟨t, ht, rfl, hne, hstep⟩
    have hstop : Stops inBracket (']' :: rest) := stops_cons rfl
    simp only [plainBracket, dropWhile_run ht hstop, takeWhile_run ht hstop, hstep]
    simp [hne, Except.map]

theorem trim_append_of_blank (hs : ∀ c ∈ s, isBlank c) (t : List Char) :
    trim (s ++ t) = trim t := by
  rw [trim, trim, trimWhile, trimWhile, List.dropWhile_append_of_pos hs]

theorem inBracket_of_isBlank (h : isBlank c) : inBracket c := by
  refine inBracket_iff.2 fun hc => ?_
  simp only [List.mem_cons, List.not_mem_nil, or_false] at hc
  rcases hc with rfl | rfl | rfl | rfl <;> cases h

theorem isBlank_of_isQuote (h : isQuote c) : isBlank c = false := by
  have hc := isQuote_iff.1 h
  simp only [List.mem_cons, List.not_mem_nil, or_false] at hc
  rcases hc with rfl | rfl <;> rfl

/-- Blanks behind the opening of a bracket are passed over. -/
theorem bracket_blanks {before : List Char} (hbefore : ∀ d ∈ before, isBlank d)
    (hstop : Stops isBlank (c :: s)) :
    bracket total ('[' :: (before ++ c :: s)) =
      if isQuote c then (do
        let (k, rest) ← quotedKey total (c :: s) c
        closeBracket total (position total ('[' :: (before ++ c :: s))) k rest)
      else plainBracket total (position total ('[' :: (before ++ c :: s))) (c :: s) := by
  simp only [bracket, List.drop_succ_cons, List.drop_zero, dropWhile_run hbefore hstop]

theorem bracket_sound (h : bracket total ('[' :: s) = .ok (step, rest)) :
    ∃ t, '[' :: s = t ++ rest ∧ Bracket t step := by
  obtain ⟨before, inner, rfl, hblank, hstop⟩ := exists_run isBlank s
  cases inner with
  | nil =>
    simp only [bracket, List.drop_succ_cons, List.drop_zero, dropWhile_run hblank hstop] at h
    cases h
  | cons c inner =>
    rw [bracket_blanks hblank hstop] at h
    split at h
    · next hc =>
      obtain ⟨⟨key, t⟩, hread, hclose⟩ := exists_of_bind_ok h
      obtain ⟨u, name, hinner, hname, rfl⟩ := (quotedKey_eq_ok_iff hc).1 hread
      obtain ⟨after, hafter, rfl, rfl⟩ := closeBracket_eq_ok_iff.1 hclose
      exact ⟨_, by simp [hinner], .quoted hblank hname hafter⟩
    · obtain ⟨t, ht, hinner, hne, hstep⟩ := plainBracket_eq_ok_iff.1 h
      rw [← trim_append_of_blank hblank] at hne hstep
      refine ⟨'[' :: (before ++ t ++ [']']), by simp [hinner], .bare (fun d hd => ?_) hne
        (bracketStep_iff.2 hstep)⟩
      obtain hd | hd := List.mem_append.1 hd
      · exact inBracket_iff.1 (inBracket_of_isBlank (hblank d hd))
      · exact inBracket_iff.1 (ht d hd)

theorem bracket_complete (total : Nat) (h : Bracket t step) (rest : List Char) :
    bracket total (t ++ rest) = .ok (step, rest) := by
  cases h with
  | @quoted before s after name hbefore hname hafter =>
    obtain ⟨quote, u, rfl, hquote⟩ := exists_cons_of_quotedName hname
    have htext : '[' :: (before ++ (quote :: u ++ (after ++ [']']))) ++ rest =
        '[' :: (before ++ quote :: (u ++ (after ++ ']' :: rest))) := by simp
    have hread : quotedKey total (quote :: (u ++ (after ++ ']' :: rest))) quote =
        .ok (.ofList name, after ++ ']' :: rest) :=
      (quotedKey_eq_ok_iff hquote).2 ⟨quote :: u, name, rfl, hname, rfl⟩
    rw [htext, bracket_blanks hbefore (stops_cons (isBlank_of_isQuote hquote)), if_pos hquote,
      hread]
    exact closeBracket_eq_ok_iff.2 ⟨after, hafter, rfl, rfl⟩
  | @bare s _ hs hne hstep =>
    obtain ⟨before, inner, rfl, hblank, hstop⟩ := exists_run isBlank s
    rw [trim_append_of_blank hblank] at hne hstep
    cases inner with
    | nil => exact absurd rfl hne
    | cons c u =>
      have hinner : ∀ d ∈ c :: u, inBracket d := fun d hd =>
        inBracket_iff.2 (hs d (List.mem_append_right _ hd))
      have hquote : ¬ isQuote c := by
        have hc := hinner c (.head _)
        simp only [inBracket, Bool.and_eq_true, Bool.not_eq_true'] at hc
        simp [hc.2]
      have htext : '[' :: (before ++ c :: u ++ [']']) ++ rest =
          '[' :: (before ++ c :: (u ++ ']' :: rest)) := by simp
      rw [htext, bracket_blanks hblank (stops_cons (hstop c rfl)), if_neg hquote]
      exact plainBracket_eq_ok_iff.2 ⟨c :: u, hinner, rfl, hne, bracketStep_iff.1 hstep⟩

/-! ## Steps and paths -/

theorem exists_cons_of_bracket (h : Bracket s step) : ∃ t, s = '[' :: t := by
  cases h with
  | quoted | bare => exact ⟨_, rfl⟩

theorem exists_cons_of_segment (h : Segment s step) : ∃ c t, s = c :: t ∧ c ≠ '[' := by
  cases h with
  | quoted hname =>
    obtain ⟨quote, t, rfl, hquote⟩ := exists_cons_of_quotedName hname
    refine ⟨quote, t, rfl, ?_⟩
    rintro rfl
    cases hquote
  | bare hs hne =>
    cases s with
    | nil => exact absurd rfl hne
    | cons c t =>
      refine ⟨c, t, rfl, ?_⟩
      rintro rfl
      exact hs '[' (.head _) (by simp)

theorem startsStep_of_stepText (h : StepText false s step) : StartsStep (s ++ rest) := by
  intro c hc
  cases h with
  | segment => exact .inl (Option.some.inj hc).symm
  | bracket h =>
    obtain ⟨t, rfl⟩ := exists_cons_of_bracket h
    exact .inr (Option.some.inj hc).symm

theorem More.startsStep (h : More s p) : StartsStep s := by
  cases h with
  | nil => exact nofun
  | cons h => exact startsStep_of_stepText h

/-- The first step of a path is read just if the text begins with one. -/
theorem firstStep_eq_ok_iff (hrest : StartsStep rest) :
    (if c == '[' then bracket total (c :: s) else segment total (c :: s)) = .ok (step, rest) ↔
      ∃ t, c :: s = t ++ rest ∧ StepText true t step := by
  constructor
  · intro h
    split at h
    · next hc =>
      obtain rfl := beq_iff_eq.1 hc
      obtain ⟨t, hs, ht⟩ := bracket_sound h
      exact ⟨t, hs, .bracket ht⟩
    · obtain ⟨t, hs, ht⟩ := segment_sound h
      exact ⟨t, hs, .segment ht⟩
  · rintro ⟨t, hs, ht⟩
    cases ht with
    | bracket ht =>
      obtain ⟨u, rfl⟩ := exists_cons_of_bracket ht
      obtain ⟨rfl, -⟩ := List.cons.inj hs
      rw [if_pos (by decide), hs, bracket_complete total ht]
    | segment ht =>
      obtain ⟨d, u, rfl, hd⟩ := exists_cons_of_segment ht
      obtain ⟨rfl, -⟩ := List.cons.inj hs
      rw [if_neg (by simpa using hd), hs]
      exact segment_complete total ht hrest

/-- So is any other step, with the point that may stand before it. -/
theorem nextStep_eq_ok_iff (hrest : StartsStep rest) :
    nextStep total c s = .ok (step, rest) ↔ ∃ t, c :: s = t ++ rest ∧ StepText false t step := by
  constructor
  · intro h
    unfold nextStep at h
    split at h
    · next hc =>
      obtain rfl := beq_iff_eq.1 hc
      obtain ⟨t, rfl, ht⟩ := segment_sound h
      exact ⟨'.' :: t, rfl, .segment ht⟩
    split at h
    · next hc =>
      obtain rfl := beq_iff_eq.1 hc
      obtain ⟨t, hs, ht⟩ := bracket_sound h
      exact ⟨t, hs, .bracket ht⟩
    · split at h <;> cases h
  · rintro ⟨t, hs, ht⟩
    cases ht with
    | segment ht =>
      obtain ⟨rfl, rfl⟩ := List.cons.inj hs
      rw [nextStep, if_pos (by decide)]
      exact segment_complete total ht hrest
    | bracket ht =>
      obtain ⟨u, rfl⟩ := exists_cons_of_bracket ht
      obtain ⟨rfl, -⟩ := List.cons.inj hs
      rw [nextStep, if_neg (by decide), if_pos (by decide), hs, bracket_complete total ht]

theorem exists_cons_of_stepText {isFirst : Bool} (h : StepText isFirst s step) :
    ∃ c t, s = c :: t := by
  cases h with
  | segment h =>
    obtain ⟨c, t, rfl, -⟩ := exists_cons_of_segment h
    cases isFirst <;> exact ⟨_, _, rfl⟩
  | bracket h =>
    obtain ⟨t, rfl⟩ := exists_cons_of_bracket h
    exact ⟨_, _, rfl⟩

theorem checkSteps_of_room (room : Nat) : checkSteps (maxSteps - (room + 1) + 1) = .ok () := by
  refine if_neg ?_
  rw [maxSteps]
  omega

/-- Behind each step the number of steps is checked, with this one and those before it. -/
theorem moreSteps_cons {c : Char} (h : nextStep total c s = .ok (step, rest)) :
    moreSteps total room (c :: s) = checkSteps (maxSteps - room + 1) >>= fun _ =>
      (moreSteps total (room - 1) rest).map (step :: ·) := by
  simp only [moreSteps, h]
  cases room with
  | zero => rfl
  | succ room =>
    rw [checkSteps_of_room]
    rfl

/-- **The steps behind the first one** are read just if there is room for them. -/
theorem moreSteps_eq_ok_iff : moreSteps total room s = .ok p ↔ p.length ≤ room ∧ More s p := by
  constructor
  · intro h
    induction room generalizing s p with
    | zero =>
      cases s with
      | nil =>
        cases h
        exact ⟨Nat.le_refl _, .nil⟩
      | cons c s =>
        simp only [moreSteps] at h
        split at h <;> cases h
    | succ room ih =>
      cases s with
      | nil =>
        cases h
        exact ⟨Nat.zero_le _, .nil⟩
      | cons c s =>
        simp only [moreSteps] at h
        split at h
        · cases h
        · next step rest hstep =>
          obtain ⟨q, hq, rfl⟩ := exists_of_map_ok h
          obtain ⟨hroom, hmore⟩ := ih hq
          obtain ⟨t, hs, ht⟩ := (nextStep_eq_ok_iff hmore.startsStep).1 hstep
          exact ⟨Nat.succ_le_succ hroom, hs ▸ .cons ht hmore⟩
  · rintro ⟨hroom, h⟩
    induction h generalizing room with
    | nil => cases room <;> rfl
    | @cons s rest step p hstep hrest ih =>
      cases room with
      | zero => cases hroom
      | succ room =>
        obtain ⟨c, t, rfl⟩ := exists_cons_of_stepText hstep
        have hread : nextStep total c (t ++ rest) = .ok (step, rest) :=
          (nextStep_eq_ok_iff hrest.startsStep).2 ⟨c :: t, rfl, hstep⟩
        rw [List.cons_append, moreSteps_cons hread, checkSteps_of_room, Nat.add_sub_cancel,
          ih (Nat.le_of_succ_le_succ hroom)]
        rfl

theorem parseTrimmed_cons (c : Char) (s : List Char) :
    parseTrimmed (c :: s) =
      (if c == '[' then bracket (byteLength (c :: s)) (c :: s)
        else segment (byteLength (c :: s)) (c :: s)) >>= fun r =>
      (moreSteps (byteLength (c :: s)) (maxSteps - 1) r.2).map (r.1 :: ·) := by
  rw [parseTrimmed]
  split <;> rfl

theorem parseTrimmed_eq_ok_iff : parseTrimmed s = .ok p ↔ p.length ≤ maxSteps ∧ Derives s p := by
  constructor
  · intro h
    cases s with
    | nil =>
      cases h
      exact ⟨Nat.zero_le _, .root⟩
    | cons c s =>
      rw [parseTrimmed_cons] at h
      obtain ⟨⟨step, rest⟩, hstep, h⟩ := exists_of_bind_ok h
      obtain ⟨q, hq, rfl⟩ := exists_of_map_ok h
      obtain ⟨hroom, hmore⟩ := moreSteps_eq_ok_iff.1 hq
      obtain ⟨t, hs, ht⟩ := (firstStep_eq_ok_iff hmore.startsStep).1 hstep
      exact ⟨Nat.succ_le_succ hroom, hs ▸ .steps ht hmore⟩
  · rintro ⟨hroom, h⟩
    cases h with
    | root => rfl
    | @steps s rest step p hstep hrest =>
      obtain ⟨c, t, rfl⟩ := exists_cons_of_stepText hstep
      have hread {total : Nat} :
          (if c == '[' then bracket total (c :: (t ++ rest))
            else segment total (c :: (t ++ rest))) = .ok (step, rest) :=
        (firstStep_eq_ok_iff hrest.startsStep).2 ⟨c :: t, rfl, hstep⟩
      have hmore {total : Nat} : moreSteps total (maxSteps - 1) rest = .ok p :=
        moreSteps_eq_ok_iff.2 ⟨Nat.le_of_succ_le_succ hroom, hrest⟩
      rw [List.cons_append, parseTrimmed_cons, hread]
      exact congrArg (Except.map (step :: ·)) hmore

/-- **The reader accepts just the texts of the grammar**, with the steps that the grammar gives
them, if the text has at most 1024 bytes and there are at most 256 steps. -/
theorem parse_eq_ok_iff {raw : String} :
    parse raw = .ok p ↔
      byteLength raw.toList ≤ 1024 ∧ p.length ≤ 256 ∧ Derives (trim raw.toList) p := by
  rw [parse, parseChars]
  split
  · next hlong => exact ⟨nofun, fun h => absurd h.1 (Nat.not_le_of_lt hlong)⟩
  · next hshort =>
    rw [parseTrimmed_eq_ok_iff]
    exact (and_iff_right (Nat.le_of_not_lt hshort)).symm

end Path

end StatVars
