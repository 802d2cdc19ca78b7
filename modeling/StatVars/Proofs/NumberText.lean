import StatVars.Json.Reader
import StatVars.Proofs.WholeNumbers

/-!
# Texts of numbers

Whatever a number is written as is a numeral in the sense of both readers of numbers: a sign, digits
before and behind a point, and an exponent (`Numeral`). In a JSON text the parts of a numeral are
taken by a reader of numbers in double precision, unless they are an integer. Elsewhere a numeral is
read as the number nearest to its decimal, which for the text of a number is the value of the number
in double precision, and the number itself if it stores the result of a calculation. Main
statements: `Numeral.readNumber_text`, `Number.exists_numeral`, `Number.isResult_iff`.
-/

namespace StatVars

open Text

/-! ## Numerals -/

/-- The parts of an exponent. -/
structure Exponent where
  mark : Char
  sign : List Char
  digits : List Char
  mark_eq : mark = 'e' ∨ mark = 'E'
  sign_eq : sign = [] ∨ sign = ['+'] ∨ sign = ['-']
  digits_ne : digits ≠ []
  isDigit_digits : ∀ c ∈ digits, c.isDigit

/-- The parts of a numeral. Without a fraction there is no point. -/
structure Numeral where
  negative : Bool
  whole : List Char
  fraction : List Char
  exponent : Option Exponent
  whole_ne : whole ≠ []
  whole_digits : ∀ c ∈ whole, c.isDigit
  /-- There is no zero before other digits. -/
  leading : whole = ['0'] ∨ whole.head? ≠ some '0'
  fraction_digits : ∀ c ∈ fraction, c.isDigit

namespace Numeral

def fractionText (fraction : List Char) : List Char :=
  if fraction.isEmpty then [] else '.' :: fraction

def exponentText : Option Exponent → List Char
  | some e => e.mark :: (e.sign ++ e.digits)
  | none => []

def exponentValue (e : Exponent) : Int :=
  if e.sign = ['-'] then -Decimal.digitsValue e.digits else Decimal.digitsValue e.digits

def text (n : Numeral) : List Char :=
  (if n.negative then ['-'] else []) ++
    (n.whole ++ (fractionText n.fraction ++ exponentText n.exponent))

/-- The decimal that is written. -/
def value (n : Numeral) : Decimal :=
  .ofParts n.negative n.whole n.fraction ((n.exponent.map exponentValue).getD 0)

/-- The characters that a numeral could go on with. -/
def continues (c : Char) : Bool :=
  c.isDigit || c == '.' || c == 'e' || c == 'E'

variable {fraction rest : List Char} {exponent : Option Exponent}

theorem stops_continues (h : Stops continues rest) : ∀ c ∈ rest.head?,
    c.isDigit = false ∧ c ≠ '.' ∧ c ≠ 'e' ∧ c ≠ 'E' := by
  intro c hc
  simpa [continues, and_assoc] using h c hc

theorem stops_isDigit (h : Stops continues rest) : Stops Char.isDigit rest :=
  fun c hc => (stops_continues h c hc).1

theorem stops_isDigit_exponent (h : Stops continues rest) (exponent : Option Exponent) :
    Stops Char.isDigit (exponentText exponent ++ rest) := by
  cases exponent with
  | some e => exact stops_cons (by rcases e.mark_eq with he | he <;> rw [he] <;> rfl)
  | none => exact stops_isDigit h

theorem stops_isDigit_fraction (h : Stops continues rest) (fraction : List Char)
    (exponent : Option Exponent) :
    Stops Char.isDigit (fractionText fraction ++ (exponentText exponent ++ rest)) := by
  cases fraction with
  | nil => exact stops_isDigit_exponent h exponent
  | cons c fraction => exact stops_cons rfl

/-- A digit is no sign. -/
theorem takeSign_of_isDigit {c : Char} (hc : c.isDigit) (s : List Char) :
    Decimal.takeSign (c :: s) = (false, c :: s) := by
  unfold Decimal.takeSign
  split
  · next h => cases h; cases hc
  · next h => cases h; cases hc
  · rfl

theorem ne_point (h : Stops continues rest) (exponent : Option Exponent)
    (s : List Char) : exponentText exponent ++ rest ≠ '.' :: s := by
  intro hpoint
  cases exponent with
  | some e =>
    obtain ⟨hmark, -⟩ := List.cons.inj hpoint
    rcases e.mark_eq with he | he <;> rw [he] at hmark <;> cases hmark
  | none =>
    rw [exponentText, List.nil_append] at hpoint
    exact (stops_continues h '.' (by rw [hpoint]; rfl)).2.1 rfl

theorem takeFraction_fractionText (hfraction : ∀ c ∈ fraction, c.isDigit)
    (h : Stops continues rest) (exponent : Option Exponent) :
    Decimal.takeFraction (fractionText fraction ++ (exponentText exponent ++ rest)) =
      (fraction, exponentText exponent ++ rest) := by
  have hstop := stops_isDigit_exponent h exponent
  cases fraction with
  | cons c fraction =>
    show Decimal.takeFraction ('.' :: ((c :: fraction) ++ (exponentText exponent ++ rest))) = _
    rw [Decimal.takeFraction, takeWhile_run hfraction hstop, dropWhile_run hfraction hstop]
  | nil =>
    show Decimal.takeFraction (exponentText exponent ++ rest) = _
    unfold Decimal.takeFraction
    split
    · next hpoint => exact absurd hpoint (ne_point h exponent _)
    · rfl

theorem takeFraction?_fractionText (hfraction : ∀ c ∈ fraction, c.isDigit)
    (h : Stops continues rest) (exponent : Option Exponent) :
    Json.takeFraction? (fractionText fraction ++ (exponentText exponent ++ rest)) =
      some (if fraction.isEmpty then none else some fraction, exponentText exponent ++ rest) := by
  have hstop := stops_isDigit_exponent h exponent
  cases fraction with
  | cons c fraction =>
    show Json.takeFraction? ('.' :: ((c :: fraction) ++ (exponentText exponent ++ rest))) = _
    rw [Json.takeFraction?, takeWhile_run hfraction hstop, dropWhile_run hfraction hstop]
    rfl
  | nil =>
    show Json.takeFraction? (exponentText exponent ++ rest) = _
    unfold Json.takeFraction?
    split
    · next hpoint => exact absurd hpoint (ne_point h exponent _)
    · rfl

theorem takeSign_exponent (e : Exponent) (s : List Char) :
    Decimal.takeSign (e.sign ++ (e.digits ++ s)) = (decide (e.sign = ['-']), e.digits ++ s) := by
  rcases e.sign_eq with he | he | he <;> rw [he]
  · obtain ⟨c, t, hdigits⟩ := List.exists_cons_of_ne_nil e.digits_ne
    have hc := e.isDigit_digits c (hdigits ▸ .head _)
    rw [hdigits]
    exact takeSign_of_isDigit hc _
  · rfl
  · rfl

theorem takeExponent_exponentText (exponent : Option Exponent) (h : Stops continues rest) :
    Decimal.takeExponent (exponentText exponent ++ rest) =
      ((exponent.map exponentValue).getD 0, rest) := by
  have hstop := stops_isDigit h
  cases exponent with
  | some e =>
    have hmark : (e.mark == 'e' || e.mark == 'E') = true := by simpa using e.mark_eq
    simp only [exponentText, List.cons_append, List.append_assoc, Decimal.takeExponent, hmark,
      if_true, takeSign_exponent, takeWhile_run e.isDigit_digits hstop,
      dropWhile_run e.isDigit_digits hstop, List.isEmpty_iff, e.digits_ne, if_false,
      decide_eq_true_eq]
    rfl
  | none =>
    cases rest with
    | nil => rfl
    | cons c rest =>
      obtain ⟨-, -, he, hE⟩ := stops_continues h c rfl
      simp [exponentText, Decimal.takeExponent, he, hE]

theorem takeExponent?_exponentText (exponent : Option Exponent) (h : Stops continues rest) :
    Json.takeExponent? (exponentText exponent ++ rest) =
      some (exponent.map exponentValue, rest) := by
  have hstop := stops_isDigit h
  cases exponent with
  | some e =>
    have hmark : (e.mark == 'e' || e.mark == 'E') = true := by simpa using e.mark_eq
    simp only [exponentText, List.cons_append, List.append_assoc, Json.takeExponent?, hmark,
      if_true, takeSign_exponent, takeWhile_run e.isDigit_digits hstop,
      dropWhile_run e.isDigit_digits hstop, List.isEmpty_iff, e.digits_ne, if_false,
      decide_eq_true_eq]
    rfl
  | none =>
    cases rest with
    | nil => rfl
    | cons c rest =>
      obtain ⟨-, -, he, hE⟩ := stops_continues h c rfl
      simp [exponentText, Json.takeExponent?, he, hE]

/-- The sign, and the first digit behind it. -/
theorem exists_text (n : Numeral) (rest : List Char) : ∃ c t, c.isDigit ∧
    n.whole ++ (fractionText n.fraction ++ (exponentText n.exponent ++ rest)) = c :: t ∧
    n.text ++ rest = (if n.negative then ['-'] else []) ++ c :: t := by
  obtain ⟨c, whole, hwhole⟩ := List.exists_cons_of_ne_nil n.whole_ne
  refine ⟨c, whole ++ (fractionText n.fraction ++ (exponentText n.exponent ++ rest)),
    n.whole_digits c (hwhole ▸ .head _), by rw [hwhole]; rfl, ?_⟩
  rw [text, hwhole]
  simp only [List.append_assoc, List.cons_append]

/-- A numeral starts with a minus sign or a digit. -/
theorem exists_text_cons (n : Numeral) : ∃ c t, n.text = c :: t ∧ (c = '-' ∨ c.isDigit) := by
  obtain ⟨c, t, hc, -, htext⟩ := n.exists_text []
  rw [List.append_nil] at htext
  cases hnegative : n.negative with
  | true => exact ⟨'-', c :: t, by simpa [hnegative] using htext, .inl rfl⟩
  | false => exact ⟨c, t, by simpa [hnegative] using htext, .inr hc⟩

theorem isBlank_first {c : Char} (h : c = '-' ∨ c.isDigit) : isBlank c = false ∧ c ≠ ']' := by
  obtain rfl | h := h
  · exact ⟨rfl, by decide⟩
  · exact ⟨isBlank_of_isDigit h, by rintro rfl; cases h⟩

/-- The characters of numerals. -/
def isPart (c : Char) : Bool :=
  c.isDigit || c == '-' || c == '+' || c == '.' || c == 'e' || c == 'E'

theorem isPart_of_isDigit {c : Char} (h : c.isDigit) : isPart c := by
  simp [isPart, h]

theorem isPart_of_mem_text (n : Numeral) : ∀ c ∈ n.text, isPart c := by
  have hdigits {s : List Char} (h : ∀ c ∈ s, c.isDigit) : ∀ c ∈ s, isPart c :=
    fun c hc => isPart_of_isDigit (h c hc)
  have hsign : ∀ c ∈ (if n.negative then ['-'] else []), isPart c := by
    cases n.negative <;> simp [isPart]
  have hfraction : ∀ c ∈ fractionText n.fraction, isPart c := by
    rw [fractionText]
    split
    · nofun
    · exact List.forall_mem_cons.2 ⟨rfl, hdigits n.fraction_digits⟩
  have hexponent : ∀ c ∈ exponentText n.exponent, isPart c := by
    cases n.exponent with
    | none => nofun
    | some e =>
      have hmark : isPart e.mark := by rcases e.mark_eq with he | he <;> rw [he] <;> rfl
      have hsign : ∀ c ∈ e.sign, isPart c := by
        rcases e.sign_eq with he | he | he <;> rw [he] <;> simp [isPart]
      exact List.forall_mem_cons.2
        ⟨hmark, List.forall_mem_append.2 ⟨hsign, hdigits e.isDigit_digits⟩⟩
  rw [text]
  simp only [List.forall_mem_append]
  exact ⟨hsign, hdigits n.whole_digits, hfraction, hexponent⟩

/-- **A numeral is read as its decimal.** -/
theorem takeNumeral?_text (n : Numeral) (h : Stops continues rest) :
    Decimal.takeNumeral? (n.text ++ rest) = some (n.value, rest) := by
  obtain ⟨c, t, hc, hunsigned, htext⟩ := n.exists_text rest
  have hsign : Decimal.takeSign (n.text ++ rest) = (n.negative, c :: t) := by
    rw [htext]
    cases n.negative with
    | true => rfl
    | false => exact takeSign_of_isDigit hc t
  have hstop := stops_isDigit_fraction h n.fraction n.exponent
  have hread : Decimal.takeUnsigned? n.negative (c :: t) = some (n.value, rest) := by
    rw [← hunsigned]
    simp only [Decimal.takeUnsigned?, takeWhile_run n.whole_digits hstop,
      dropWhile_run n.whole_digits hstop, takeFraction_fractionText n.fraction_digits h,
      takeExponent_exponentText n.exponent h, List.isEmpty_eq_false_iff.2 n.whole_ne,
      Bool.false_and, Bool.false_eq_true, if_false, value]
  simp only [Decimal.takeNumeral?, hsign, List.head?_cons, Option.any_some, hc, if_true, hread]

theorem ofNumeral?_text (n : Numeral) : Decimal.ofNumeral? n.text = some n.value := by
  have hread := n.takeNumeral?_text stops_nil
  rw [List.append_nil] at hread
  rw [Decimal.ofNumeral?, hread]

theorem takeWhole?_whole (n : Numeral) (h : Stops Char.isDigit rest) :
    Json.takeWhole? (n.whole ++ rest) = some (n.whole, rest) := by
  have hdigits := n.whole_digits
  obtain ⟨c, whole, hwhole⟩ := List.exists_cons_of_ne_nil n.whole_ne
  rw [hwhole] at hdigits ⊢
  rcases n.leading with hzero | hhead
  · rw [hwhole] at hzero
    cases hzero
    have hnone : ¬ rest.head?.any Char.isDigit := by
      cases hrest : rest.head? with
      | none => nofun
      | some d => simp [h d hrest]
    rw [List.cons_append, List.nil_append, Json.takeWhole?, if_neg hnone]
  · have hne : c ≠ '0' := by
      rintro rfl
      exact hhead (by rw [hwhole]; rfl)
    unfold Json.takeWhole?
    split
    · next heq =>
      cases heq
      exact absurd rfl hne
    · simp only [takeWhile_run hdigits h, dropWhile_run hdigits h, List.isEmpty_cons,
        Bool.false_eq_true, if_false]

/-- The number that a numeral is in a JSON text. -/
def number? (float : Json.FloatReader) (n : Numeral) : Option Number :=
  Json.numberOf? float n.negative n.whole (if n.fraction.isEmpty then none else some n.fraction)
    (n.exponent.map exponentValue)

/-- **In a JSON text a numeral is read part by part.** -/
theorem readNumber_text (float : Json.FloatReader) (n : Numeral) (h : Stops continues rest) :
    Json.readNumber float (n.text ++ rest) = (n.number? float).map (·, rest) := by
  have hstop := stops_isDigit_fraction h n.fraction n.exponent
  obtain ⟨c, t, hc, hunsigned, htext⟩ := n.exists_text rest
  have hwhole := n.takeWhole?_whole hstop
  rw [hunsigned] at hwhole
  unfold Json.readNumber number?
  rw [htext]
  cases n.negative with
  | true =>
    simp only [if_true, List.cons_append, List.nil_append, hwhole,
      takeFraction?_fractionText n.fraction_digits h,
      takeExponent?_exponentText n.exponent h, Option.bind_eq_bind, Option.bind_some]
    cases Json.numberOf? float true .. <;> rfl
  | false =>
    simp only [Bool.false_eq_true, if_false, List.nil_append]
    split
    · next heq =>
      cases heq
      cases hc
    · simp only [hwhole, takeFraction?_fractionText n.fraction_digits h,
        takeExponent?_exponentText n.exponent h, Option.bind_eq_bind, Option.bind_some]
      cases Json.numberOf? float false .. <;> rfl

/-! ## Numbers in JSON texts -/

variable {s : List Char}

theorem exists_of_takeWhole? {whole : List Char} (h : Json.takeWhole? s = some (whole, rest)) :
    whole ≠ [] ∧ (∀ c ∈ whole, c.isDigit) ∧ (whole = ['0'] ∨ whole.head? ≠ some '0') ∧
      s = whole ++ rest := by
  unfold Json.takeWhole? at h
  split at h
  · split at h
    · cases h
    · cases h
      exact ⟨nofun, by simp, .inl rfl, rfl⟩
  · next hzero =>
    obtain ⟨t, u, rfl, ht, hu⟩ := exists_run Char.isDigit s
    simp only [takeWhile_run ht hu, dropWhile_run ht hu] at h
    split at h
    · cases h
    · next hne =>
      cases h
      refine ⟨by simpa using hne, ht, .inr fun hhead => ?_, rfl⟩
      cases whole with
      | nil => cases hhead
      | cons c whole =>
        cases hhead
        exact hzero _ rfl

theorem exists_of_takeFraction? {f : Option (List Char)}
    (h : Json.takeFraction? s = some (f, rest)) :
    ∃ fraction, (∀ c ∈ fraction, c.isDigit) ∧ s = fractionText fraction ++ rest := by
  unfold Json.takeFraction? at h
  split at h
  · next t =>
    obtain ⟨u, r, rfl, hu, hr⟩ := exists_run Char.isDigit t
    simp only [takeWhile_run hu hr, dropWhile_run hu hr] at h
    split at h
    · cases h
    · next hne =>
      cases h
      exact ⟨u, hu, by rw [fractionText, if_neg hne]; rfl⟩
  · cases h
    exact ⟨[], nofun, rfl⟩

theorem exists_of_takeSign (s : List Char) : ∃ sign t negative,
    Decimal.takeSign s = (negative, t) ∧ s = sign ++ t ∧
      (sign = [] ∨ sign = ['+'] ∨ sign = ['-']) := by
  unfold Decimal.takeSign
  split
  · exact ⟨['-'], _, _, rfl, rfl, .inr (.inr rfl)⟩
  · exact ⟨['+'], _, _, rfl, rfl, .inr (.inl rfl)⟩
  · exact ⟨[], _, _, rfl, rfl, .inl rfl⟩

theorem exists_of_takeExponent? {k : Option Int} (h : Json.takeExponent? s = some (k, rest)) :
    ∃ exponent, s = exponentText exponent ++ rest := by
  cases s with
  | nil =>
    cases h
    exact ⟨none, rfl⟩
  | cons c s =>
    rw [Json.takeExponent?] at h
    split at h
    · next hmark =>
      obtain ⟨sign, t, negative, htake, rfl, hsign⟩ := exists_of_takeSign s
      obtain ⟨digits, r, rfl, hdigits, hr⟩ := exists_run Char.isDigit t
      simp only [htake, takeWhile_run hdigits hr, dropWhile_run hdigits hr] at h
      split at h
      · cases h
      · next hne =>
        cases h
        exact ⟨some ⟨c, sign, digits, by simpa using hmark, hsign, by simpa using hne, hdigits⟩,
          by simp [exponentText]⟩
    · cases h
      exact ⟨none, rfl⟩

/-- **What is read as a number is a numeral.** -/
theorem exists_of_readNumber {float : Json.FloatReader} {n : Number}
    (h : Json.readNumber float s = some (n, rest)) : ∃ m : Numeral, s = m.text ++ rest := by
  have hparts : ∃ (negative : Bool) (t whole t₁ : List Char) (f : Option (List Char))
      (t₂ : List Char) (k : Option Int), s = (if negative then ['-'] else []) ++ t ∧
      Json.takeWhole? t = some (whole, t₁) ∧ Json.takeFraction? t₁ = some (f, t₂) ∧
      Json.takeExponent? t₂ = some (k, rest) := by
    unfold Json.readNumber at h
    split at h
    next negative t hsign =>
    obtain ⟨⟨whole, t₁⟩, hwhole, h⟩ := Option.bind_eq_some_iff.1 h
    obtain ⟨⟨f, t₂⟩, hfraction, h⟩ := Option.bind_eq_some_iff.1 h
    obtain ⟨⟨k, t₃⟩, hexponent, h⟩ := Option.bind_eq_some_iff.1 h
    obtain ⟨m, -, h⟩ := Option.bind_eq_some_iff.1 h
    cases h
    refine ⟨negative, t, whole, t₁, f, t₂, k, ?_, hwhole, hfraction, hexponent⟩
    split at hsign <;> cases hsign <;> rfl
  obtain ⟨negative, t, whole, t₁, f, t₂, k, rfl, hwhole, hfraction, hexponent⟩ := hparts
  obtain ⟨hne, hdigits, hleading, rfl⟩ := exists_of_takeWhole? hwhole
  obtain ⟨fraction, hfraction', rfl⟩ := exists_of_takeFraction? hfraction
  obtain ⟨exponent, rfl⟩ := exists_of_takeExponent? hexponent
  exact ⟨⟨negative, whole, fraction, exponent, hne, hdigits, hleading, hfraction'⟩,
    by simp [text]⟩

end Numeral

/-! ## Texts of decimals -/

namespace Decimal

variable {digits : List Char}

theorem digitsValue_zeros (digits : List Char) (k : Nat) :
    digitsValue (digits ++ List.replicate k '0') = digitsValue digits * Nat.pow 10 k := by
  have happend := Nat.ofDigitChars_append (b := 10) (l := digits) (m := List.replicate k '0') 0
  rw [Nat.ofDigitChars_replicate_zero, Nat.mul_comm] at happend
  exact happend

theorem zeros_digitsValue (digits : List Char) (k : Nat) :
    digitsValue (List.replicate k '0' ++ digits) = digitsValue digits := by
  have happend := Nat.ofDigitChars_append (b := 10) (l := List.replicate k '0') (m := digits) 0
  rw [Nat.ofDigitChars_replicate_zero, Nat.mul_zero] at happend
  exact happend

/-- The number nearest to the decimal with these digits before and behind the point. -/
def nearest : Json.FloatReader :=
  fun negative whole fraction exponent => (ofParts negative whole fraction exponent).toBinary64

/-- The text is a numeral that is no integer, and that is read as the decimal is. -/
def IsWritten (d : Decimal) (s : List Char) : Prop :=
  ∃ n : Numeral, n.text = s ∧ n.value.toBinary64 = d.toBinary64 ∧
    (n.fraction ≠ [] ∨ n.exponent ≠ none)

theorem isDigit_zeros (k : Nat) : ∀ c ∈ List.replicate k '0', c.isDigit := by
  intro c hc
  rw [List.eq_of_mem_replicate hc]
  rfl

/-- Behind a point that no digit stands before there are zeros first. -/
theorem isWritten_positional_negSucc (negative : Bool) (hne : digits ≠ [])
    (hdigits : ∀ c ∈ digits, c.isDigit) (k : Nat) :
    IsWritten ⟨negative, digitsValue digits, Int.negSucc k - digits.length + 1⟩
      ((if negative then ['-'] else []) ++ positional digits (.negSucc k)) := by
  let n : Numeral := {
    negative
    whole := ['0']
    fraction := List.replicate k '0' ++ digits
    exponent := none
    whole_ne := nofun
    whole_digits := isDigit_zeros 1
    leading := .inl rfl
    fraction_digits := List.forall_mem_append.2 ⟨isDigit_zeros k, hdigits⟩ }
  have hvalue : digitsValue (['0'] ++ (List.replicate k '0' ++ digits)) = digitsValue digits :=
    zeros_digitsValue digits (k + 1)
  have hexponent : (0 : Int) - (List.replicate k '0' ++ digits).length =
      Int.negSucc k - digits.length + 1 := by
    rw [List.length_append, List.length_replicate]
    omega
  refine ⟨n, ?_, ?_, .inl ?_⟩
  · simp [n, Numeral.text, Numeral.fractionText, Numeral.exponentText, positional, hne]
  · simp only [n, Numeral.value, ofParts, hvalue, Option.map_none, Option.getD_none, hexponent]
  · simp [n, hne]

/-- Digits that end before the point are followed by zeros up to it and by one behind it. -/
theorem isWritten_positional_of_le (negative : Bool) (hne : digits ≠ [])
    (hdigits : ∀ c ∈ digits, c.isDigit) (hhead : digits.head? ≠ some '0') {k : Nat}
    (hk : digits.length ≤ k + 1) :
    IsWritten ⟨negative, digitsValue digits, Int.ofNat k - digits.length + 1⟩
      ((if negative then ['-'] else []) ++ positional digits (.ofNat k)) := by
  let n : Numeral := {
    negative
    whole := digits ++ List.replicate (k + 1 - digits.length) '0'
    fraction := ['0']
    exponent := none
    whole_ne := by simp [hne]
    whole_digits := List.forall_mem_append.2 ⟨hdigits, isDigit_zeros _⟩
    leading := .inr (by simpa [hne] using hhead)
    fraction_digits := isDigit_zeros 1 }
  have hwhole : digits.take (k + 1) = digits := List.take_of_length_le hk
  have hvalue : digitsValue (digits ++ List.replicate (k + 1 - digits.length) '0' ++ ['0']) =
      digitsValue digits * Nat.pow 10 (k + 1 - digits.length + 1) := by
    rw [List.append_assoc, ← digitsValue_zeros, List.replicate_succ']
  have hexponent : (0 : Int) - ['0'].length + (k + 1 - digits.length + 1 : Nat) =
      Int.ofNat k - digits.length + 1 := by
    rw [List.length_singleton, Int.ofNat_eq_natCast]
    omega
  refine ⟨n, ?_, ?_, .inl nofun⟩
  · simp [n, Numeral.text, Numeral.fractionText, Numeral.exponentText, positional, hwhole,
      List.drop_of_length_le hk]
  · simp only [n, Numeral.value, ofParts, hvalue, Option.map_none, Option.getD_none,
      toBinary64_zeros, hexponent]

/-- The point stands between the digits. -/
theorem isWritten_positional_of_lt (negative : Bool) (hdigits : ∀ c ∈ digits, c.isDigit)
    (hhead : digits.head? ≠ some '0') {k : Nat} (hk : k + 1 < digits.length) :
    IsWritten ⟨negative, digitsValue digits, Int.ofNat k - digits.length + 1⟩
      ((if negative then ['-'] else []) ++ positional digits (.ofNat k)) := by
  have hne : digits ≠ [] := List.ne_nil_of_length_pos (by omega)
  have hlength : (digits.take (k + 1)).length = k + 1 := by
    rw [List.length_take]
    omega
  have hfraction : digits.drop (k + 1) ≠ [] := by
    rw [Ne, List.drop_eq_nil_iff]
    omega
  let n : Numeral := {
    negative
    whole := digits.take (k + 1)
    fraction := digits.drop (k + 1)
    exponent := none
    whole_ne := by simp [hne]
    whole_digits := fun c hc => hdigits c (List.mem_of_mem_take hc)
    leading := .inr (by rw [List.head?_take]; simpa using hhead)
    fraction_digits := fun c hc => hdigits c (List.mem_of_mem_drop hc) }
  have hexponent : (0 : Int) - (digits.drop (k + 1)).length =
      Int.ofNat k - digits.length + 1 := by
    rw [List.length_drop, Int.ofNat_eq_natCast]
    omega
  refine ⟨n, ?_, ?_, .inl hfraction⟩
  · simp [n, Numeral.text, Numeral.fractionText, Numeral.exponentText, positional, hlength,
      hfraction]
  · simp only [n, Numeral.value, ofParts, List.take_append_drop, Option.map_none,
      Option.getD_none, hexponent]

/-- Digits in positional notation are a numeral with a fraction. -/
theorem isWritten_positional (negative : Bool) (hne : digits ≠ [])
    (hdigits : ∀ c ∈ digits, c.isDigit) (hhead : digits.head? ≠ some '0') (exponent : Int) :
    IsWritten ⟨negative, digitsValue digits, exponent - digits.length + 1⟩
      ((if negative then ['-'] else []) ++ positional digits exponent) := by
  cases exponent with
  | negSucc k => exact isWritten_positional_negSucc negative hne hdigits k
  | ofNat k =>
    rcases Nat.lt_or_ge (k + 1) digits.length with hk | hk
    · exact isWritten_positional_of_lt negative hdigits hhead hk
    · exact isWritten_positional_of_le negative hne hdigits hhead hk

/-- Digits in scientific notation are a numeral with an exponent. -/
theorem isWritten_scientific (negative : Bool) (hne : digits ≠ [])
    (hdigits : ∀ c ∈ digits, c.isDigit) (hhead : digits.head? ≠ some '0') (exponent : Int) :
    IsWritten ⟨negative, digitsValue digits, exponent - digits.length + 1⟩
      ((if negative then ['-'] else []) ++ scientific digits exponent) := by
  let e : Exponent := {
    mark := 'e'
    sign := [if exponent < 0 then '-' else '+']
    digits := Nat.toDigits 10 exponent.natAbs
    mark_eq := .inl rfl
    sign_eq := by split <;> simp
    digits_ne := digits_ne_nil _
    isDigit_digits := isDigit_digits }
  let n : Numeral := {
    negative
    whole := digits.take 1
    fraction := digits.drop 1
    exponent := some e
    whole_ne := by simp [hne]
    whole_digits := fun c hc => hdigits c (List.mem_of_mem_take hc)
    leading := .inr (by rw [List.head?_take]; simpa using hhead)
    fraction_digits := fun c hc => hdigits c (List.mem_of_mem_drop hc) }
  have hpos : 0 < digits.length := List.length_pos_iff.2 hne
  have hsign : e.sign = ['-'] ↔ exponent < 0 := by
    show [if exponent < 0 then '-' else '+'] = ['-'] ↔ exponent < 0
    split <;> simp [*]
  have hexponent : Numeral.exponentValue e - (digits.drop 1).length =
      exponent - digits.length + 1 := by
    simp only [Numeral.exponentValue, hsign, e, digitsValue_digits, List.length_drop]
    split <;> omega
  refine ⟨n, ?_, ?_, .inr (Option.some_ne_none _)⟩
  · simp [n, e, Numeral.text, Numeral.fractionText, Numeral.exponentText, scientific]
  · simp only [n, Numeral.value, ofParts, List.take_append_drop, Option.map_some,
      Option.getD_some, hexponent]

theorem exists_replicate_dropWhile (c : Char) (s : List Char) :
    ∃ k, s = List.replicate k c ++ s.dropWhile (· == c) := by
  induction s with
  | nil => exact ⟨0, rfl⟩
  | cons d s ih =>
    by_cases hd : d = c
    · obtain ⟨k, hk⟩ := ih
      subst hd
      have hdrop : (d :: s).dropWhile (· == d) = s.dropWhile (· == d) :=
        List.dropWhile_cons_of_pos (beq_self_eq_true d)
      exact ⟨k + 1, by rw [hdrop, List.replicate_succ, List.cons_append, ← hk]⟩
    · exact ⟨0, by simp [hd]⟩

/-- The digits of a number fall into those that are kept and zeros. -/
theorem exists_leading {d : Decimal} (hd : d.digits ≠ 0) : ∃ digits k,
    Nat.toDigits 10 d.digits = digits ++ List.replicate k '0' ∧ digits ≠ [] ∧
      d.leading = (digits, d.exponent + (digits.length + k : Nat) - 1) := by
  obtain ⟨k, hk⟩ := exists_replicate_dropWhile '0' (Nat.toDigits 10 d.digits).reverse
  generalize hkept : (Nat.toDigits 10 d.digits).reverse.dropWhile (· == '0') = kept at hk
  have hall : Nat.toDigits 10 d.digits = kept.reverse ++ List.replicate k '0' := by
    rw [← List.reverse_reverse (Nat.toDigits 10 d.digits), hk, List.reverse_append,
      List.reverse_replicate]
  refine ⟨kept.reverse, k, hall, fun hnil => ?_, ?_⟩
  · have hhead := head?_digits (Nat.pos_of_ne_zero hd)
    have hne := digits_ne_nil d.digits
    rw [hall, hnil, List.nil_append] at hhead hne
    cases k with
    | zero => exact hne rfl
    | succ k => exact hhead rfl
  · simp only [leading, hkept]
    rw [hall, List.length_append, List.length_replicate]

/-- **The text of a decimal is read as the decimal.** -/
theorem isWritten_toText {d : Decimal} (hd : d.digits ≠ 0) : d.IsWritten d.toText := by
  obtain ⟨digits, k, hall, hne, hleading⟩ := exists_leading hd
  have hdigits : ∀ c ∈ digits, c.isDigit := fun c hc =>
    isDigit_digits c (hall ▸ List.mem_append_left _ hc)
  have hhead : digits.head? ≠ some '0' := by
    have hhead := head?_digits (Nat.pos_of_ne_zero hd)
    rw [hall, List.head?_append, List.head?_eq_some_head hne] at hhead
    rwa [List.head?_eq_some_head hne]
  have hvalue : toBinary64 ⟨d.negative, digitsValue digits,
      d.exponent + (digits.length + k : Nat) - 1 - digits.length + 1⟩ = d.toBinary64 := by
    have hd : d = ⟨d.negative, digitsValue digits * Nat.pow 10 k, d.exponent⟩ := by
      rw [← digitsValue_zeros, ← hall, digitsValue_digits]
    have hexponent : d.exponent + (digits.length + k : Nat) - 1 - digits.length + 1 =
        d.exponent + k := by omega
    rw [hexponent, ← toBinary64_zeros, ← hd]
  rw [IsWritten, ← hvalue, toText, hleading]
  dsimp only
  by_cases hplain : -5 ≤ d.exponent + (digits.length + k : Nat) - 1 ∧
      d.exponent + (digits.length + k : Nat) - 1 < 16
  · rw [if_pos hplain]
    exact isWritten_positional d.negative hne hdigits hhead _
  · rw [if_neg hplain]
    exact isWritten_scientific d.negative hne hdigits hhead _

end Decimal

/-! ## Texts of numbers -/

theorem Finite.eq_zero {x : Finite} (h : x.isZero) : x = .zero x.negative := by
  obtain ⟨negative, mant, shift, hlt, hle, hnormal⟩ := x
  obtain rfl : mant = 0 := beq_iff_eq.1 h
  obtain rfl : shift = 0 := hnormal.resolve_left (by decide)
  rfl

/-- The text of a number is a numeral that is no integer, and it is read as the number. -/
theorem Finite.exists_toText (x : Finite) : ∃ n : Numeral, n.text = x.toText.toList ∧
    n.value.toBinary64 = .finite x ∧ (n.fraction ≠ [] ∨ n.exponent ≠ none) := by
  rw [toText, String.toList_ofList]
  cases hzero : x.isZero with
  | true =>
    let n : Numeral := ⟨x.negative, ['0'], ['0'], none, nofun, Decimal.isDigit_zeros 1, .inl rfl,
      Decimal.isDigit_zeros 1⟩
    refine ⟨n, ?_, ?_, .inl nofun⟩
    · rw [if_pos rfl]
      show (if x.negative then ['-'] else []) ++ "0.0".toList = _
      cases x.negative <;> rfl
    · rw [eq_zero hzero]
      rfl
  | false =>
    have hdigits : x.shortest.digits ≠ 0 := by
      intro h
      have hread := x.toBinary64_shortest
      rw [Decimal.toBinary64, if_pos h, Binary64.finite.injEq] at hread
      rw [← hread] at hzero
      cases hzero
    rw [← toBinary64_shortest x]
    exact Decimal.isWritten_toText hdigits

/-- The text of an integer is a numeral without a point and an exponent. -/
theorem exists_toString (k : Int) : ∃ n : Numeral, n.text = (toString k).toList ∧
    n.negative = decide (k < 0) ∧ n.whole = Nat.toDigits 10 k.natAbs ∧ n.fraction = [] ∧
    n.exponent = none := by
  have hleading : Nat.toDigits 10 k.natAbs = ['0'] ∨
      (Nat.toDigits 10 k.natAbs).head? ≠ some '0' := by
    rcases Nat.eq_zero_or_pos k.natAbs with hzero | hpos
    · exact .inl (by rw [hzero]; rfl)
    · exact .inr (head?_digits hpos)
  let n : Numeral := ⟨decide (k < 0), Nat.toDigits 10 k.natAbs, [], none, digits_ne_nil _,
    isDigit_digits, hleading, nofun⟩
  refine ⟨n, ?_, rfl, rfl, rfl, rfl⟩
  have htext : n.text = (if decide (k < 0) then ['-'] else []) ++ Nat.toDigits 10 k.natAbs := by
    simp only [n, Numeral.text, Numeral.fractionText, Numeral.exponentText, List.isEmpty_nil,
      if_true, List.append_nil]
  rw [htext]
  cases k with
  | ofNat m =>
    have htoString : toString (Int.ofNat m) = toString m := rfl
    rw [htoString, Nat.toString_eq_ofList_toDigits, String.toList_ofList]
    rfl
  | negSucc m =>
    have htoString : toString (Int.negSucc m) = "-" ++ toString (m + 1) := rfl
    rw [htoString, Nat.toString_eq_ofList_toDigits]
    simp only [String.toList_append, String.toList_ofList, Int.negSucc_lt_zero, decide_true,
      if_true, Int.natAbs_negSucc]
    rfl

namespace Number

theorem exists_toText (n : Number) : ∃ m : Numeral, m.text = n.toText.toList := by
  cases n with
  | int k _ => exact (exists_toString k).imp fun _ h => h.1
  | float x => exact x.exists_toText.imp fun _ h => h.1

/-- The text of a number starts with a minus sign or a digit. -/
theorem exists_toText_cons (n : Number) :
    ∃ c t, n.toText.toList = c :: t ∧ (c = '-' ∨ c.isDigit) := by
  obtain ⟨m, hm⟩ := n.exists_toText
  exact hm ▸ m.exists_text_cons

/-- In a JSON text an integer is read back, whatever takes the other numbers. -/
theorem exists_number?_int (k : Int) (hk) : ∃ m : Numeral, m.text = (int k hk).toText.toList ∧
    ∀ float, m.number? float = some (int k hk) := by
  obtain ⟨m, htext, hnegative, hwhole, hfraction, hexponent⟩ := exists_toString k
  have hsigned : (if decide (k < 0) then -(k.natAbs : Int) else k.natAbs) = k := by
    simp only [decide_eq_true_eq]
    split <;> omega
  have hnonzero : (decide (k < 0) && k == 0) = false := by
    simp only [Bool.and_eq_false_imp, decide_eq_true_eq, beq_eq_false_iff_ne]
    omega
  have hint : ofInt? k = some (.int k hk) := dif_pos hk
  refine ⟨m, htext, fun float => ?_⟩
  simp only [Numeral.number?, hnegative, hwhole, hfraction, hexponent, Json.numberOf?,
    digitsValue_digits, hsigned, hint, hnonzero, List.isEmpty_nil, if_true, Option.map_none,
    Bool.false_eq_true, if_false]

/-! ## Numerals of numbers -/

theorem toBinary64_ofInt (k : Int) :
    Decimal.toBinary64 ⟨decide (k < 0), k.natAbs, 0⟩ = Binary64.ofInt k := by
  rw [Decimal.toBinary64_eq_ofRatio, Binary64.ofInt]
  simp

theorem eq_int_of_ofInt? {k : Int} {n : Number} (h : ofInt? k = some n) : ∃ hk, n = .int k hk := by
  unfold ofInt? at h
  split at h
  · next hk =>
    cases h
    exact ⟨hk, rfl⟩
  · cases h

/-- The integer that is written without a point and an exponent has the value of the decimal. The
zero with a minus sign is no integer. -/
theorem toBinary64_signed {negative : Bool} {value : Nat} {n : Number}
    (h : ofInt? (if negative then -(value : Int) else value) = some n) :
    (if negative && (if negative then -(value : Int) else value) == 0 then .float (.zero true)
      else n).toBinary64 = Decimal.toBinary64 ⟨negative, value, 0⟩ := by
  obtain ⟨hk, rfl⟩ := eq_int_of_ofInt? h
  by_cases hzero : negative = true ∧ value = 0
  · obtain ⟨rfl, rfl⟩ := hzero
    rfl
  · have hsigned : (negative && (if negative then -(value : Int) else value) == 0) = false := by
      cases negative <;> simp_all
    have hsign : decide ((if negative then -(value : Int) else value) < 0) = negative := by
      cases negative with
      | true => simp at hzero ⊢; omega
      | false => simp
    have hsize : (if negative then -(value : Int) else value).natAbs = value := by
      cases negative <;> simp
    rw [hsigned, if_neg Bool.false_ne_true, toBinary64, ← toBinary64_ofInt, hsign, hsize]

/-- With a fraction or an exponent a numeral is no integer. -/
theorem number?_of_part (float : Json.FloatReader) {m : Numeral}
    (h : m.fraction ≠ [] ∨ m.exponent ≠ none) :
    m.number? float = (float m.negative m.whole m.fraction
      ((m.exponent.map Numeral.exponentValue).getD 0)).toFinite?.map .float := by
  have hfraction : (if m.fraction.isEmpty then none else some m.fraction).getD [] =
      m.fraction := by
    cases m.fraction <;> rfl
  unfold Numeral.number? Json.numberOf?
  dsimp only
  split
  · next hnil hnone _ =>
    obtain h | h := h
    · exact absurd (by simpa using hnil) h
    · exact absurd (by simpa using hnone) h
  · rw [hfraction]

/-- In a JSON text a numeral is an integer of the value of its decimal, or what is taken for it in
double precision. -/
theorem number?_cases (m : Numeral) :
    (∃ n : Number, n.toBinary64 = m.value.toBinary64 ∧ ∀ float, m.number? float = some n) ∨
    ∀ float, m.number? float = (float m.negative m.whole m.fraction
      ((m.exponent.map Numeral.exponentValue).getD 0)).toFinite?.map .float := by
  by_cases hplain : m.fraction = [] ∧ m.exponent = none
  · obtain ⟨hnil, hnone⟩ := hplain
    have hvalue : m.value = ⟨m.negative, Decimal.digitsValue m.whole, 0⟩ := by
      simp [Numeral.value, Decimal.ofParts, hnil, hnone]
    cases hint : ofInt? (if m.negative then -(Decimal.digitsValue m.whole : Int)
        else Decimal.digitsValue m.whole) with
    | some n =>
      refine .inl ⟨_, hvalue ▸ toBinary64_signed hint, fun float => ?_⟩
      simp only [Numeral.number?, Json.numberOf?, hnil, hnone, List.isEmpty_nil, if_true,
        Option.map_none, hint, apply_ite some]
    | none =>
      refine .inr fun float => ?_
      simp only [Numeral.number?, Json.numberOf?, hnil, hnone, List.isEmpty_nil, if_true,
        Option.map_none, hint, Option.getD_none]
  · exact .inr fun float => number?_of_part float (Classical.not_and_iff_not_or_not.1 hplain)

/-- The number nearest to a decimal has the value of the decimal. What is not stored is not
finite. -/
theorem number?_nearest (m : Numeral) :
    (∃ n, m.number? Decimal.nearest = some n ∧ m.value.toBinary64 = n.toBinary64) ∨
    m.number? Decimal.nearest = none ∧ m.value.toBinary64.toFinite? = none := by
  obtain ⟨n, hvalue, hn⟩ | hfloat := number?_cases m
  · exact .inl ⟨n, hn _, hvalue.symm⟩
  · have hread : m.number? Decimal.nearest = m.value.toBinary64.toFinite?.map .float := hfloat _
    rw [hread]
    cases m.value.toBinary64 with
    | finite x => exact .inl ⟨.float x, rfl, rfl⟩
    | infinite _ | nan => exact .inr ⟨rfl, rfl⟩

/-- **The text of a number is a numeral of its value in double precision.** -/
theorem exists_numeral (n : Number) :
    ∃ m : Numeral, m.text = n.toText.toList ∧ m.value.toBinary64 = n.toBinary64 := by
  cases n with
  | float x =>
    obtain ⟨m, htext, hvalue, -⟩ := x.exists_toText
    exact ⟨m, htext, hvalue⟩
  | int k hk =>
    obtain ⟨m, htext, hnegative, hwhole, hfraction, hexponent⟩ := exists_toString k
    have hvalue : m.value = ⟨decide (k < 0), k.natAbs, 0⟩ := by
      simp [Numeral.value, Decimal.ofParts, hnegative, hwhole, hfraction, hexponent,
        digitsValue_digits]
    exact ⟨m, htext, hvalue ▸ toBinary64_ofInt k⟩

theorem exists_toBinary64_finite (n : Number) : ∃ x, n.toBinary64 = .finite x := by
  cases n with
  | float x => exact ⟨x, rfl⟩
  | int k hk => exact Binary64.exists_ofRatio_whole _ (by omega)

/-! ## Results -/

/-- The number that stores the nearest result of a calculation. -/
def rounded (n : Number) : Number :=
  (ofBinary64? n.toBinary64).getD n

/-- What is finite can be stored. -/
theorem exists_ofBinary64?_finite (x : Finite) : ∃ n, ofBinary64? (.finite x) = some n := by
  simp only [ofBinary64?]
  split
  · split <;> exact ⟨_, rfl⟩
  · exact ⟨_, rfl⟩

theorem ofBinary64?_toBinary64 (n : Number) : ofBinary64? n.toBinary64 = some n.rounded := by
  obtain ⟨x, hx⟩ := n.exists_toBinary64_finite
  obtain ⟨m, hm⟩ := exists_ofBinary64?_finite x
  rw [rounded, hx, hm, Option.getD_some]

/-- The number stores the result of a calculation. -/
def IsResult (n : Number) : Prop :=
  ∃ x, ofBinary64? x = some n

/-- An integer that stores a result has the value of the result. -/
theorem ofInt_of_toInt? {x : Finite} {k : Int} (h : x.toInt? = some k) (hk : k ≠ 0) :
    Binary64.ofInt k = .finite x := by
  have hwhole := Finite.toInt?_eq_some_iff.1 h
  rw [Binary64.ofInt, ← Binary64.ofRatio_magnitude x, hwhole.magnitude, hwhole.negative hk]

theorem ofInt_zero : Binary64.ofInt 0 = .finite (.zero false) := by
  simp [Binary64.ofInt, Binary64.ofRatio_zero]

theorem ofBinary64?_zero : ofBinary64? (.finite (.zero false)) = ofInt? 0 := by
  have htoInt : (Finite.zero false).toInt? = some 0 :=
    Finite.toInt?_eq_some_iff.2 ((Finite.units_zero false).trans (Int.zero_mul _).symm)
  simp [ofBinary64?, htoInt, ofInt?]

/-- A result that is stored in double precision is stored as it is. -/
theorem eq_of_ofBinary64?_float {x y : Finite} (h : ofBinary64? (.finite x) = some (.float y)) :
    x = y := by
  unfold ofBinary64? at h
  dsimp only at h
  split at h
  · split at h
    · cases h
    · cases h; rfl
  · cases h; rfl

/-- A result that is stored as an integer is the integer. -/
theorem toInt?_of_ofBinary64?_int {x : Finite} {k : Int} {hk}
    (h : ofBinary64? (.finite x) = some (.int k hk)) : x.toInt? = some k := by
  unfold ofBinary64? at h
  dsimp only at h
  split at h
  · next hx =>
    split at h
    · cases h; exact hx
    · cases h
  · cases h

/-- **Nothing is rounded in a number just if it stores a result.** -/
theorem isResult_iff {n : Number} : n.IsResult ↔ n.rounded = n := by
  refine ⟨fun ⟨y, hy⟩ => ?_, fun h =>
    ⟨n.toBinary64, n.ofBinary64?_toBinary64.trans (congrArg some h)⟩⟩
  suffices ofBinary64? n.toBinary64 = some n by rw [rounded, this, Option.getD_some]
  cases y with
  | infinite _ | nan => cases hy
  | finite x =>
    cases n with
    | float x' =>
      obtain rfl := eq_of_ofBinary64?_float hy
      exact hy
    | int k hk =>
      by_cases hzero : k = 0
      · subst hzero
        rw [toBinary64, ofInt_zero]
        exact ofBinary64?_zero
      · rw [toBinary64, ofInt_of_toInt? (toInt?_of_ofBinary64?_int hy) hzero]
        exact hy

instance : DecidablePred IsResult :=
  fun _ => decidable_of_iff _ isResult_iff.symm

/-- The number that stores a result has the value of the result, up to the sign of zero. -/
theorem sameValue_rounded (n : Number) : ∃ x y, n.toBinary64 = .finite x ∧
    n.rounded.toBinary64 = .finite y ∧ x.sameValue y := by
  obtain ⟨x, hx⟩ := n.exists_toBinary64_finite
  have hrounded := n.ofBinary64?_toBinary64
  rw [hx] at hrounded
  cases hn : n.rounded with
  | float y =>
    rw [hn] at hrounded
    obtain rfl := eq_of_ofBinary64?_float hrounded
    exact ⟨x, x, hx, rfl, beq_self_eq_true _⟩
  | int k hk =>
    rw [hn] at hrounded
    have hint := toInt?_of_ofBinary64?_int hrounded
    by_cases hzero : k = 0
    · subst hzero
      refine ⟨x, .zero false, hx, ofInt_zero, ?_⟩
      rw [Finite.sameValue, Finite.toInt?_eq_some_iff.1 hint, Int.zero_mul]
      rfl
    · exact ⟨x, x, hx, ofInt_of_toInt? hint hzero, beq_self_eq_true _⟩

end Number

end StatVars
