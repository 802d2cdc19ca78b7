import StatVars.Path.Basic

/-!
# Runs of characters and digits

A text that begins with a run of characters of one kind falls into the run and what follows it, and
the decimal digits of a number are such a run. They have no zero before them and are read as the
number again.
-/

namespace StatVars

namespace Text

variable {p : Char → Bool} {s rest : List Char}

/-- The text does not go on with a character of the kind. -/
def Stops (p : Char → Bool) (rest : List Char) : Prop :=
  ∀ c ∈ rest.head?, p c = false

theorem stops_nil : Stops p [] := nofun

theorem stops_cons {c : Char} (hc : p c = false) : Stops p (c :: rest) := by
  intro d hd
  cases hd
  exact hc

theorem Stops.mono {q : Char → Bool} (h : Stops p rest) (hpq : ∀ c, q c → p c) :
    Stops q rest := fun c hc =>
  Bool.eq_false_iff.2 fun hq => Bool.eq_false_iff.1 (h c hc) (hpq c hq)

theorem stops_append {t : List Char} (hs : Stops p s) (ht : Stops p t) : Stops p (s ++ t) := by
  cases s with
  | nil => exact ht
  | cons c s => exact hs

theorem takeWhile_run (hs : ∀ c ∈ s, p c) (hrest : Stops p rest) :
    (s ++ rest).takeWhile p = s := by
  rw [List.takeWhile_append_of_pos hs]
  cases rest with
  | nil => simp
  | cons c rest => rw [List.takeWhile_cons_of_neg (by simp [hrest c rfl]), List.append_nil]

theorem dropWhile_run (hs : ∀ c ∈ s, p c) (hrest : Stops p rest) :
    (s ++ rest).dropWhile p = rest := by
  rw [List.dropWhile_append_of_pos hs]
  cases rest with
  | nil => rfl
  | cons c rest => rw [List.dropWhile_cons_of_neg (by simp [hrest c rfl])]

/-- Every text begins with a run of characters of the kind, which may be empty. -/
theorem exists_run (p : Char → Bool) (s : List Char) :
    ∃ t rest, s = t ++ rest ∧ (∀ c ∈ t, p c) ∧ Stops p rest := by
  refine ⟨s.takeWhile p, s.dropWhile p, List.takeWhile_append_dropWhile.symm,
    List.all_eq_true.1 List.all_takeWhile, fun c hc => ?_⟩
  have hhead := List.head?_dropWhile_not p s
  rw [hc] at hhead
  simpa using hhead

/-- A run and what follows it are known from the text. -/
theorem run_inj {s' rest' : List Char} (hs : ∀ c ∈ s, p c) (hs' : ∀ c ∈ s', p c)
    (hrest : Stops p rest) (hrest' : Stops p rest') (h : s ++ rest = s' ++ rest') :
    s = s' ∧ rest = rest' :=
  ⟨by rw [← takeWhile_run hs hrest, h, takeWhile_run hs' hrest'],
    by rw [← dropWhile_run hs hrest, h, dropWhile_run hs' hrest']⟩

/-- A text with no blank at either end is trimmed. -/
theorem trim_of_ends (hfirst : Stops isBlank s) (hlast : Stops isBlank s.reverse) :
    trim s = s := by
  have hdrop {t : List Char} (ht : Stops isBlank t) : t.dropWhile isBlank = t :=
    dropWhile_run (s := []) nofun ht
  rw [trim, trimWhile, dropEndWhile, hdrop hfirst, hdrop hlast, List.reverse_reverse]

theorem isBlank_of_isDigit {c : Char} (h : c.isDigit) : isBlank c = false := by
  have hbounds : 48 ≤ c.toNat ∧ c.toNat ≤ 57 := by
    simpa [Char.isDigit, Char.le_def, UInt32.le_iff_toNat_le] using h
  unfold isBlank
  grind

end Text

/-! ## Digits -/

theorem digits_ne_nil (n : Nat) : Nat.toDigits 10 n ≠ [] :=
  Nat.toDigits_ne_nil

theorem isDigit_digits {n : Nat} : ∀ c ∈ Nat.toDigits 10 n, c.isDigit := fun _ hc =>
  Nat.isDigit_of_mem_toDigits (by decide) (by decide) hc

theorem digitsValue_digits (n : Nat) : Decimal.digitsValue (Nat.toDigits 10 n) = n :=
  Nat.ofDigitChars_ten_toDigits

/-- The digits of a number other than zero do not begin with a zero. -/
theorem head?_digits {n : Nat} (hn : 0 < n) : (Nat.toDigits 10 n).head? ≠ some '0' := by
  induction n using Nat.strongRecOn with
  | ind n ih =>
    by_cases h : n < 10
    · rw [Nat.toDigits_of_lt_base h, List.head?_cons]
      have hall : ∀ m < 10, 0 < m → some (Nat.digitChar m) ≠ some '0' := by decide
      exact hall n h hn
    · have hrest := ih (n / 10) (by omega) (by omega)
      obtain ⟨c, s, hs⟩ := List.exists_cons_of_ne_nil (digits_ne_nil (n / 10))
      rw [hs] at hrest
      rwa [Nat.toDigits_of_base_le (by decide) (by omega), hs]

theorem isInteger_digits (n : Nat) : Path.isInteger (Nat.toDigits 10 n) := by
  rw [Path.isInteger, Bool.and_eq_true, List.all_eq_true]
  exact ⟨by simp, isDigit_digits⟩

/-- The digits of a number are those of a place. -/
theorem isIndex_digits (n : Nat) : Path.isIndex (Nat.toDigits 10 n) := by
  rw [Path.isIndex, isInteger_digits, Bool.true_and, Bool.or_eq_true]
  rcases Nat.eq_zero_or_pos n with rfl | hn
  · exact .inr rfl
  · exact .inl (bne_iff_ne.2 (head?_digits hn))

theorem place?_digits {n : Nat} (hn : n < Path.placeBound) :
    Path.place? (Nat.toDigits 10 n) = some n := by
  rw [Path.place?, isIndex_digits, digitsValue_digits, Bool.true_and, if_pos (decide_eq_true hn)]

end StatVars
