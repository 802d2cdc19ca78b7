import StatVars.Command.Normalize

/-!
# Strings and their JSON texts

A text that is written as a JSON string is read back as it was, by the reader of JSON texts and, in
the place of a path, by that of commands.
-/

namespace StatVars

open Text

namespace Json

variable {a b c d : Char} {n : Nat}

/-! ## Hexadecimal digits -/

theorem hexDigit?_eq_some (h : hexDigit? c = some n) : n < 16 ∧ c.utf8Size = 1 ∧ c ≠ '+' := by
  have hbounds : n < 16 ∧ 48 ≤ c.toNat ∧ c.toNat ≤ 102 := by
    simp only [hexDigit?, Char.isDigit, Char.le_def, UInt32.le_iff_toNat_le, Bool.and_eq_true,
      decide_eq_true_eq] at h
    split at h
    · next hc =>
      cases h
      have hc : 48 ≤ c.toNat ∧ c.toNat ≤ 57 := hc
      exact ⟨by simp; omega, hc.1, by omega⟩
    split at h
    · next hc =>
      cases h
      have hc : 97 ≤ c.toNat ∧ c.toNat ≤ 102 := hc
      exact ⟨by simp; omega, by omega, hc.2⟩
    split at h
    · next hc =>
      cases h
      have hc : 65 ≤ c.toNat ∧ c.toNat ≤ 70 := hc
      exact ⟨by simp; omega, by omega, by omega⟩
    · cases h
  obtain ⟨hn, hlow, hhigh⟩ := hbounds
  refine ⟨hn, ?_, ?_⟩
  · rw [Char.utf8Size_eq_one_iff]
    exact UInt32.le_iff_toNat_le.2 (Nat.le_trans hhigh (by decide))
  · rintro rfl
    exact absurd hlow (by decide)

theorem hex4?_eq_some (h : hex4? a b c d = some n) :
    n < 65536 ∧ byteLength [a, b, c, d] = 4 ∧ a ≠ '+' := by
  obtain ⟨na, ha, h⟩ := Option.bind_eq_some_iff.1 h
  obtain ⟨nb, hb, h⟩ := Option.bind_eq_some_iff.1 h
  obtain ⟨nc, hc, h⟩ := Option.bind_eq_some_iff.1 h
  obtain ⟨nd, hd, h⟩ := Option.bind_eq_some_iff.1 h
  cases h
  obtain ⟨ha, hasize, hplus⟩ := hexDigit?_eq_some ha
  obtain ⟨hb, hbsize, -⟩ := hexDigit?_eq_some hb
  obtain ⟨hc, hcsize, -⟩ := hexDigit?_eq_some hc
  obtain ⟨hd, hdsize, -⟩ := hexDigit?_eq_some hd
  refine ⟨by omega, ?_, hplus⟩
  simp [hasize, hbsize, hcsize, hdsize]

/-! ## Escaped characters -/

/-- The digits behind `\u` for a character below the blank. -/
def controlDigits (n : Nat) : List Char :=
  ['0', '0', Nat.digitChar (n / 16), Nat.digitChar (n % 16)]

theorem hex4?_controlDigits :
    ∀ n < 32, hex4? '0' '0' (Nat.digitChar (n / 16)) (Nat.digitChar (n % 16)) = some n := by
  decide

theorem ne_of_mem_controlDigits {n : Nat} (hn : n < 32) :
    ∀ x ∈ controlDigits n, x ≠ '\\' ∧ x ≠ '\n' ∧ x ≠ '"' := by
  have hall : ∀ n < 32, (controlDigits n).all fun x => x ≠ '\\' ∧ x ≠ '\n' ∧ x ≠ '"' := by
    decide
  simpa only [List.all_eq_true, decide_eq_true_eq] using hall n hn

/-- A character is written as a letter behind a backslash, by its number, or as it is. -/
theorem escape_cases (c : Char) :
    (∃ e, escape c = ['\\', e] ∧ e ≠ 'u' ∧ letterEscape? e = some c) ∨
      (c.toNat < 32 ∧ escape c = '\\' :: 'u' :: controlDigits c.toNat) ∨
      (escape c = [c] ∧ 32 ≤ c.toNat ∧ c ≠ '"' ∧ c ≠ '\\') := by
  have hchar {n : Nat} (h : c.toNat = n) : c = Char.ofNat n := h ▸ (Char.ofNat_toNat c).symm
  unfold escape
  by_cases h1 : c = '"'
  · exact .inl ⟨'"', by simp [h1], by decide, by subst h1; decide⟩
  by_cases h2 : c = '\\'
  · exact .inl ⟨'\\', by simp [h2], by decide, by subst h2; decide⟩
  by_cases h3 : c = '\n'
  · exact .inl ⟨'n', by simp [h3], by decide, by subst h3; decide⟩
  by_cases h4 : c = '\r'
  · exact .inl ⟨'r', by simp [h4], by decide, by subst h4; decide⟩
  by_cases h5 : c = '\t'
  · exact .inl ⟨'t', by simp [h5], by decide, by subst h5; decide⟩
  by_cases h6 : c.toNat = 0x08
  · exact .inl ⟨'b', by simp [h1, h2, h3, h4, h5, h6], by decide, by rw [hchar h6]; decide⟩
  by_cases h7 : c.toNat = 0x0C
  · exact .inl ⟨'f', by simp [h1, h2, h3, h4, h5, h7], by decide, by rw [hchar h7]; decide⟩
  by_cases h8 : c.toNat < 0x20
  · exact .inr (.inl ⟨h8, by simp [h1, h2, h3, h4, h5, h6, h7, h8, controlDigits]⟩)
  · exact .inr (.inr ⟨by simp [h1, h2, h3, h4, h5, h6, h7, h8],
      Nat.le_of_not_lt h8, h1, h2⟩)

theorem readString_letter {c e : Char} (he : e ≠ 'u') (h : letterEscape? e = some c)
    (s : List Char) : readString ('\\' :: e :: s) = putFirst c (readString s) := by
  rw [readString]
  · simp [h]
  · rintro a b c d s' rfl
    simp at he

theorem readString_plain {c : Char} (h : 32 ≤ c.toNat) (hq : c ≠ '"') (hb : c ≠ '\\')
    (s : List Char) : readString (c :: s) = putFirst c (readString s) := by
  rw [readString]
  · have hlt : ¬ c.toNat < 0x20 := Nat.not_lt.2 h
    simp [hlt, hb]
  all_goals simp [hq, hb]

/-- Whether a code unit is a half of a pair. -/
def isHalf (n : Nat) : Bool :=
  isHighHalf n || isLowHalf n

theorem readString_unicode (h : hex4? a b c d = some n) (hn : isHalf n = false) (s : List Char) :
    readString ('\\' :: 'u' :: a :: b :: c :: d :: s) = putFirst (.ofNat n) (readString s) := by
  obtain ⟨hhigh, hlow⟩ := Bool.or_eq_false_iff.1 hn
  simp only [readString, h, hlow, hhigh, Bool.false_eq_true, if_false]

theorem readString_control {c : Char} (h : c.toNat < 32) (s : List Char) :
    readString ('\\' :: 'u' :: (controlDigits c.toNat ++ s)) = putFirst c (readString s) := by
  have hhalf : isHalf c.toNat = false := by
    simp only [isHalf, isHighHalf, isLowHalf, Bool.or_eq_false_iff, Bool.and_eq_false_iff,
      decide_eq_false_iff_not]
    omega
  have hread := readString_unicode (hex4?_controlDigits _ h) hhalf s
  rwa [Char.ofNat_toNat] at hread

/-- **A written string is read back.** -/
theorem readString_escape (s rest : List Char) :
    readString (s.flatMap escape ++ '"' :: rest) = some (s, rest) := by
  induction s with
  | nil => simp [readString]
  | cons c s ih =>
    rw [List.flatMap_cons, List.append_assoc]
    obtain ⟨e, he, hu, hletter⟩ | ⟨hlt, hc⟩ | ⟨hc, hle, hq, hb⟩ := escape_cases c
    · rw [he, List.cons_append, List.cons_append, List.nil_append, readString_letter hu hletter, ih]
      rfl
    · rw [hc, List.cons_append, List.cons_append, readString_control hlt, ih]
      rfl
    · rw [hc, List.cons_append, List.nil_append, readString_plain hle hq hb, ih]
      rfl

theorem read?_writeString (s : List Char) : read? (writeString s) = some (.str (.ofList s)) := by
  have hread (float : FloatReader) (depth : Nat) :
      readValue float (depth + 1) (writeString s) = some (.str (.ofList s), []) := by
    simp [readValue, writeString, skipSpace, isSpace, readString_escape]
  have hraw : readRaw? (writeString s) = some (.str (.ofList s)) := by
    rw [readRaw?, readWith?, show maxDepth = 126 + 1 from rfl, hread]
    rfl
  rw [read?, hraw]
  rfl

end Json

namespace Text

/-- A text with a character that is no blank at each end is trimmed. -/
theorem trim_eq_self {c d : Char} {s : List Char} (hc : isBlank c = false)
    (hd : isBlank d = false) : trim (c :: s ++ [d]) = c :: s ++ [d] := by
  simp [trim, trimWhile, dropEndWhile, hc, hd]

theorem trim_replicate (n : Nat) (s : List Char) : trim (List.replicate n ' ' ++ s) = trim s := by
  induction n with
  | zero => rfl
  | succ n ih =>
    rw [← ih]
    rfl

end Text

theorem Json.trim_writeString (s : List Char) :
    Text.trim (Json.writeString s) = Json.writeString s :=
  Text.trim_eq_self (by decide) (by decide)

/-- Between quotes a text is a string under all options. -/
theorem Literal.parse_writeString (options : Options) (t : String) :
    parse options (.ofList (Json.writeString t.toList)) = .ok (.value (.str t)) := by
  have hread := Json.read?_writeString t.toList
  rw [parse, String.toList_ofList, Json.trim_writeString]
  simp only [Json.writeString, List.cons_append] at hread ⊢
  simp [parseTrimmed, quotedString?, hread, Decimal.ofNumeral?, Decimal.takeNumeral?,
    Decimal.takeSign]

/-- A path that is written as a string is read as this path. -/
theorem Command.pathText_writeString (path : String) :
    pathText (.ofList (Json.writeString path.toList)) = path := by
  rw [pathText, Literal.parse_writeString]

end StatVars
