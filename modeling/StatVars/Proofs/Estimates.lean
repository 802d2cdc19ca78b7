import StatVars.Proofs.NumberText

/-!
# Numbers that are calculated when they are read

The reader of JSON texts calculates numbers in double precision and rounds at every step. It reads
the text of every number as some number: a decimal is multiplied by rounding two factors and their
product, and what these may add does not take the text of a number to the infinities, unless it is
one of the two greatest. It reads back the integers, and the numbers whose digits have 53 bits and
whose power of ten is held exactly, since these are rounded once, to the nearest. Main statements:
`Decimal.estimate_eq_nearest`, `Number.readNumber_toText`, `Number.readsBack_int`,
`Number.readsBack_float`.
-/

namespace StatVars

/-! ## How far rounding goes -/

theorem roundDiv_mul_le {den : Nat} (num : Nat) (hden : 0 < den) :
    2 * (roundDiv num den * den) ≤ 2 * num + den := by
  have hdiv := Nat.div_add_mod' num den
  simp only [roundDiv]
  split
  · omega
  · split
    · rw [Nat.add_mul]
      omega
    · split
      · omega
      · rw [Nat.add_mul]
        omega

theorem le_roundDiv_mul {den : Nat} (num : Nat) (hden : 0 < den) :
    2 * num ≤ 2 * (roundDiv num den * den) + den := by
  have hdiv := Nat.div_add_mod' num den
  have hmod := Nat.mod_lt num hden
  simp only [roundDiv]
  split
  · omega
  · split
    · rw [Nat.add_mul]
      omega
    · split
      · omega
      · rw [Nat.add_mul]
        omega

/-- The value of the last bit of the mantissa. -/
def Finite.lastBit (x : Finite) : Nat :=
  1 <<< x.shift

theorem Finite.magnitude_eq_mul (x : Finite) : x.magnitude = x.mant * x.lastBit := by
  rw [magnitude, lastBit, Nat.shiftLeft_eq, Nat.shiftLeft_eq, Nat.one_mul]

namespace Binary64

variable {negative : Bool} {num den : Nat} {x : Finite}

/-- The unit in which a quotient is rounded. -/
def unit (num den : Nat) : Nat :=
  den <<< excess num den

theorem unit_pos (num : Nat) (hden : 0 < den) : 0 < unit num den := by
  rw [unit, Nat.shiftLeft_eq]
  exact Nat.mul_pos hden (Nat.two_pow_pos _)

/-- A quotient that is rounded in a larger unit has 53 bits. -/
theorem unit_mul_le (h : excess num den ≠ 0) : unit num den * 4503599627370496 ≤ num := by
  have hne : num / den ≠ 0 := fun hzero => h (by rw [excess, hzero]; rfl)
  have hsum : excess num den + 52 = (num / den).log2 := by
    unfold excess at h ⊢
    omega
  calc
    unit num den * 2 ^ 52 = den * 2 ^ (num / den).log2 := by
      rw [unit, Nat.shiftLeft_eq, Nat.mul_assoc, ← Nat.pow_add, hsum]
    _ ≤ den * (num / den) := Nat.mul_le_mul_left _ (Nat.log2_self_le hne)
    _ ≤ num := Nat.mul_div_le num den

theorem lt_unit_mul (hden : 0 < den) : num < unit num den * 9007199254740992 := by
  have hlog : (num / den).log2 + 1 ≤ excess num den + 53 := by
    unfold excess
    omega
  calc
    num < den * (num / den + 1) := Nat.lt_mul_div_succ num hden
    _ ≤ den * 2 ^ ((num / den).log2 + 1) := Nat.mul_le_mul_left _ Nat.lt_log2_self
    _ ≤ den * 2 ^ (excess num den + 53) :=
      Nat.mul_le_mul_left _ (Nat.pow_le_pow_right (by decide) hlog)
    _ = unit num den * 2 ^ 53 := by rw [unit, Nat.shiftLeft_eq, Nat.mul_assoc, ← Nat.pow_add]

theorem roundDiv_unit_le (hden : 0 < den) : roundDiv num (unit num den) ≤ 9007199254740992 :=
  Nat.le_trans (roundDiv_le _ _) (Nat.succ_le_of_lt (Nat.div_lt_of_lt_mul (lt_unit_mul hden)))

theorem exists_of_pack {mant shift : Nat} {hge} (hle : mant ≤ 9007199254740992)
    (h : pack negative mant shift hge = .finite x) :
    x.magnitude = mant <<< shift ∧ shift ≤ x.shift := by
  rw [pack] at h
  split at h
  · split at h
    · cases h
      exact ⟨rfl, Nat.le_refl _⟩
    · cases h
  · split at h
    · cases h
      obtain rfl : mant = 9007199254740992 := by omega
      refine ⟨?_, Nat.le_succ _⟩
      show 4503599627370496 <<< (shift + 1) = _
      rw [Nat.shiftLeft_eq, Nat.shiftLeft_eq, Nat.pow_succ', ← Nat.mul_assoc]
    · cases h

/-- The nearest number is the rounded quotient, in the unit of the rounding. -/
theorem magnitude_mul (hden : 0 < den) (h : ofRatio negative num den = .finite x) :
    x.magnitude * den = roundDiv num (unit num den) * unit num den ∧
      unit num den ≤ x.lastBit * den := by
  obtain ⟨hmagnitude, hshift⟩ := exists_of_pack (roundDiv_unit_le hden) h
  constructor
  · rw [hmagnitude, unit, Nat.shiftLeft_eq, Nat.shiftLeft_eq, Nat.mul_assoc, Nat.mul_comm den]
  · rw [unit, Finite.lastBit, Nat.shiftLeft_eq, Nat.shiftLeft_eq, Nat.one_mul, Nat.mul_comm]
    exact Nat.mul_le_mul_right _ (Nat.pow_le_pow_right (by decide) hshift)

/-- A quotient exceeds the nearest number by half the last bit of this number at most. -/
theorem le_of_ofRatio (hden : 0 < den) (h : ofRatio negative num den = .finite x) :
    2 * num ≤ (2 * x.magnitude + x.lastBit) * den := by
  obtain ⟨hmul, hunit⟩ := magnitude_mul hden h
  have hround := le_roundDiv_mul num (unit_pos num hden)
  rw [Nat.add_mul, Nat.mul_assoc, hmul]
  omega

/-- The number nearest to a quotient of 53 bits exceeds it by a unit of the 53rd bit at most. -/
theorem magnitude_le (hden : 0 < den) (hnum : den * 4503599627370496 ≤ num)
    (h : ofRatio negative num den = .finite x) :
    9007199254740992 * (x.magnitude * den) ≤ 9007199254740993 * num := by
  have hunit : unit num den * 4503599627370496 ≤ num := by
    by_cases hzero : excess num den = 0
    · rwa [unit, hzero]
    · exact unit_mul_le hzero
  have hround := roundDiv_mul_le num (unit_pos num hden)
  rw [(magnitude_mul hden h).1]
  omega

/-- Half a unit beyond the greatest number, from where on everything is nearest to an infinity. -/
def bound : Nat := 18014398509481983 <<< 2044

-- The exponent is a variable here and below, so that no tactic writes the power out.
theorem bound_eq : ∃ k, k = 2044 ∧ bound = 18014398509481983 <<< k :=
  ⟨2044, rfl, rfl⟩

/-- **What is below the bound has a nearest number.** -/
theorem exists_ofRatio_of_lt (negative : Bool) (hden : 0 < den) (h : num < bound * den) :
    ∃ x, ofRatio negative num den = .finite x := by
  obtain ⟨k, hk, hbound⟩ := bound_eq
  rw [hbound, Nat.shiftLeft_eq, Nat.mul_assoc] at h
  have hexcess : excess num den ≤ k + 1 := by
    refine Nat.le_of_not_lt fun hlt => ?_
    have hle : 2 ^ (k + 2) * den ≤ unit num den := by
      rw [unit, Nat.shiftLeft_eq, Nat.mul_comm den]
      exact Nat.mul_le_mul_right _ (Nat.pow_le_pow_right (by decide) hlt)
    have hne : excess num den ≠ 0 := by omega
    have hunit := unit_mul_le hne
    rw [Nat.pow_add, Nat.mul_right_comm] at hle
    omega
  have hmant : excess num den = k + 1 → roundDiv num (unit num den) < 9007199254740992 := by
    intro heq
    have hunit : unit num den = 2 * (2 ^ k * den) := by
      rw [unit, Nat.shiftLeft_eq, heq, Nat.pow_succ', Nat.mul_left_comm, Nat.mul_comm den]
    have hround := roundDiv_mul_le num (unit_pos num hden)
    refine Nat.lt_of_not_le fun hle => ?_
    have hle := Nat.mul_le_mul_right (unit num den) hle
    omega
  rw [ofRatio, pack]
  split
  · exact ⟨_, dif_pos (by omega)⟩
  · next hlt =>
    have hne : excess num den ≠ k + 1 := fun heq => hlt (hmant heq)
    exact ⟨_, dif_pos (by omega)⟩

end Binary64

namespace Finite

theorem isZero_of_magnitude_pos {x : Finite} (h : 0 < x.magnitude) : x.isZero = false := by
  cases hzero : x.isZero with
  | false => rfl
  | true =>
    rw [Finite.eq_zero hzero, magnitude, zero, Nat.zero_shiftLeft] at h
    cases h

theorem magnitude_lt_bound (x : Finite) : x.magnitude < Binary64.bound := by
  obtain ⟨k, hk, hbound⟩ := Binary64.bound_eq
  have hmant := x.mant_lt
  have hpow : 2 ^ x.shift ≤ 2 ^ (k + 1) :=
    Nat.pow_le_pow_right (by decide) (by have := x.shift_le; omega)
  calc
    x.magnitude = x.mant * 2 ^ x.shift := Nat.shiftLeft_eq ..
    _ ≤ 9007199254740991 * 2 ^ (k + 1) := Nat.mul_le_mul (by omega) hpow
    _ < Binary64.bound := by
      have := Nat.two_pow_pos k
      rw [hbound, Nat.shiftLeft_eq, Nat.pow_succ]
      omega

/-- A number stays a number when it is divided by one that is not below one. -/
theorem exists_div (x : Finite) {y : Finite} (h : scale ≤ y.magnitude) :
    ∃ z, x.div y = .finite z := by
  have hscale : 0 < scale := Decimal.scale_pos
  have hzero : y.isZero = false := isZero_of_magnitude_pos (Nat.lt_of_lt_of_le hscale h)
  rw [div, if_neg (by simp [hzero])]
  refine Binary64.exists_ofRatio_of_lt _ (by omega) ?_
  exact Nat.lt_of_lt_of_le (Nat.mul_lt_mul_of_pos_right x.magnitude_lt_bound hscale)
    (Nat.mul_le_mul_left _ h)

end Finite

namespace Decimal

variable {n m : Nat} {x : Finite}

/-! ## Powers of ten -/

theorem powerOfTen_eq (n : Nat) :
    powerOfTen n = .ofRatio false (Nat.pow 10 n * Finite.scale) 1 := by
  rw [powerOfTen, toBinary64_eq_ofRatio]
  simp

/-- Below this the product of a whole number and a power of ten is a number. The bound of the
numbers is farther than what the roundings may add. -/
def safeBound : Nat := 18014398509481979 <<< 2044

/-- How the two bounds lie between powers of ten, and how far they are apart. -/
theorem bounds_between : ∃ k, k = 308 ∧ Nat.pow 10 k * Finite.scale < Binary64.bound ∧
    safeBound < Nat.pow 10 (k + 1) * Finite.scale ∧
    9007199254740993 * 9007199254740993 * safeBound <
      9007199254740992 * 9007199254740992 * Binary64.bound ∧
    4503599627370496 ≤ Finite.scale :=
  ⟨308, rfl, by decide +kernel⟩

theorem le_scale : 4503599627370496 ≤ Finite.scale := by
  obtain ⟨_, -, -, -, -, hscale⟩ := bounds_between
  exact hscale

/-- The powers of ten that are multiplied by and divided by are numbers. -/
theorem exists_powerOfTen (hn : n ≤ 308) : ∃ x : Finite, powerOfTen n = .finite x ∧
    9007199254740992 * x.magnitude ≤ 9007199254740993 * (Nat.pow 10 n * Finite.scale) ∧
    (0 < n → Finite.scale ≤ x.magnitude) := by
  have hpow : 0 < Nat.pow 10 n := Nat.pow_pos (by decide)
  obtain ⟨k, hk, hbound, -⟩ := bounds_between
  have hlt : Nat.pow 10 n * Finite.scale < Binary64.bound * 1 := by
    rw [Nat.mul_one]
    refine Nat.lt_of_le_of_lt (Nat.mul_le_mul_right _ ?_) hbound
    exact Nat.pow_le_pow_right (by decide) (hk ▸ hn)
  obtain ⟨x, hx⟩ := Binary64.exists_ofRatio_of_lt false (by decide) hlt
  have hge : Finite.scale ≤ Nat.pow 10 n * Finite.scale := Nat.le_mul_of_pos_left _ hpow
  have hscale := le_scale
  refine ⟨x, (powerOfTen_eq n).trans hx, ?_, fun hpos => ?_⟩
  · have hle := Binary64.magnitude_le (by decide) (by omega) hx
    rwa [Nat.mul_one] at hle
  · have hten : 10 * Finite.scale ≤ Nat.pow 10 n * Finite.scale := by
      refine Nat.mul_le_mul_right _ ?_
      exact Nat.pow_le_pow_right (n := 10) (by decide) hpos
    have hle := Binary64.le_of_ofRatio (by decide) hx
    have hbit : x.lastBit ≤ x.magnitude ∨ x.lastBit = 1 := by
      obtain hnormal | hshift := x.normal
      · left
        rw [x.magnitude_eq_mul]
        exact Nat.le_mul_of_pos_left _ (by omega)
      · right
        rw [Finite.lastBit, hshift]
        rfl
    omega

/-! ## Products and quotients -/

theorem exists_shrink (times : Nat) (x : Finite) : ∃ y, shrink times (.finite x) = .finite y := by
  induction times generalizing x with
  | zero => exact ⟨x, rfl⟩
  | succ times ih =>
    rw [shrink]
    split
    · exact ⟨x, rfl⟩
    · obtain ⟨p, hp, -, hscale⟩ := exists_powerOfTen (Nat.le_refl 308)
      obtain ⟨y, hy⟩ := x.exists_div (hscale (by decide))
      rw [hp, Binary64.div, hy]
      exact ih y

theorem exists_timesPower_of_neg (x : Finite) (n : Nat) :
    ∃ y, timesPower (.finite x) (.negSucc n) = .finite y := by
  obtain ⟨y, hy⟩ := exists_shrink (n / 308) x
  obtain ⟨p, hp, -, hscale⟩ := exists_powerOfTen (n := n % 308 + 1) (by omega)
  rw [timesPower, hy, hp, Binary64.div]
  exact y.exists_div (hscale (by omega))

/-- The two factors and the product may be rounded up. -/
theorem mul_lt_bound {a b s t p : Nat} (ha : 9007199254740992 * a ≤ 9007199254740993 * s)
    (hb : 9007199254740992 * b ≤ 9007199254740993 * t) (h : s * t ≤ safeBound * p) (hp : 0 < p) :
    a * b < Binary64.bound * p := by
  have hmul := Nat.mul_le_mul ha hb
  obtain ⟨_, -, -, -, hfactor, -⟩ := bounds_between
  refine Nat.lt_of_mul_lt_mul_left (a := 9007199254740992 * 9007199254740992) ?_
  calc
    9007199254740992 * 9007199254740992 * (a * b) =
        9007199254740992 * a * (9007199254740992 * b) := by ac_rfl
    _ ≤ 9007199254740993 * s * (9007199254740993 * t) := hmul
    _ = 9007199254740993 * 9007199254740993 * (s * t) := by ac_rfl
    _ ≤ 9007199254740993 * 9007199254740993 * (safeBound * p) := Nat.mul_le_mul_left _ h
    _ = 9007199254740993 * 9007199254740993 * safeBound * p := (Nat.mul_assoc ..).symm
    _ < 9007199254740992 * 9007199254740992 * Binary64.bound * p :=
      Nat.mul_lt_mul_of_pos_right hfactor hp
    _ = 9007199254740992 * 9007199254740992 * (Binary64.bound * p) := Nat.mul_assoc ..

theorem exists_ofInt (hm : m < 18446744073709551616) : ∃ x, Binary64.ofInt m = .finite x ∧
    9007199254740992 * x.magnitude ≤ 9007199254740993 * (m * Finite.scale) ∧
    (m = 0 → x.isZero) := by
  obtain rfl | hpos := Nat.eq_zero_or_pos m
  · exact ⟨.zero false, Number.ofInt_zero, Nat.zero_le _, fun _ => rfl⟩
  · obtain ⟨x, hx⟩ := Binary64.exists_ofRatio_whole (decide ((m : Int) < 0)) hm
    have hscale := le_scale
    have hge : Finite.scale ≤ m * Finite.scale := Nat.le_mul_of_pos_left _ hpos
    have hle := Binary64.magnitude_le (by decide) (by omega) hx
    exact ⟨x, hx, by rwa [Nat.mul_one] at hle, fun hzero => absurd hzero (Nat.ne_of_gt hpos)⟩

theorem exists_timesPower_of_nonneg (hm : m < 18446744073709551616)
    (h : m * Nat.pow 10 n * Finite.scale ≤ safeBound) :
    ∃ x, timesPower (.ofInt m) (.ofNat n) = .finite x := by
  obtain ⟨x, hx, hxle, hzero⟩ := exists_ofInt hm
  rw [timesPower, hx]
  split
  · next hn =>
    obtain ⟨p, hp, hple, -⟩ := exists_powerOfTen hn
    rw [hp, Binary64.mul, Finite.mul]
    refine Binary64.exists_ofRatio_of_lt _ scale_pos (mul_lt_bound hxle hple ?_ scale_pos)
    calc
      m * Finite.scale * (Nat.pow 10 n * Finite.scale) =
          m * Nat.pow 10 n * Finite.scale * Finite.scale := by ac_rfl
      _ ≤ safeBound * Finite.scale := Nat.mul_le_mul_right _ h
  · next hn =>
    obtain ⟨k, hk, -, hbound, -⟩ := bounds_between
    have hm : m = 0 := by
      refine Nat.eq_zero_of_not_pos fun hpos => absurd h (Nat.not_le.2 ?_)
      calc
        safeBound < Nat.pow 10 (k + 1) * Finite.scale := hbound
        _ ≤ m * Nat.pow 10 n * Finite.scale := by
          refine Nat.mul_le_mul_right _ (Nat.le_trans ?_ (Nat.le_mul_of_pos_left _ hpos))
          exact Nat.pow_le_pow_right (by decide) (by omega)
    exact ⟨x, if_pos (hzero hm)⟩

/-! ## Digits -/

theorem appendDigits_lt {s left : List Char} (hn : n < 18446744073709551616)
    (h : appendDigits n s = (m, left)) : m < 18446744073709551616 := by
  fun_induction appendDigits n s with
  | case1 n =>
    cases h
    exact hn
  | case2 n c s k hk ih => exact ih hk h
  | case3 n c s k hk =>
    cases h
    exact hn

/-- The digits of a number behind others. -/
theorem ofDigitChars_eq (n : Nat) (s : List Char) :
    Nat.ofDigitChars 10 s n = Nat.pow 10 s.length * n + digitsValue s :=
  Nat.ofDigitChars_eq_ofDigitChars_zero

theorem appendDigits_le {s left : List Char} (h : appendDigits n s = (m, left)) :
    m * Nat.pow 10 left.length ≤ Nat.ofDigitChars 10 s n := by
  fun_induction appendDigits n s with
  | case1 n =>
    cases h
    exact Nat.le_of_eq (Nat.mul_one _)
  | case2 n c s k hk ih =>
    rw [Nat.ofDigitChars_cons]
    exact ih h
  | case3 n c s k hk =>
    cases h
    rw [ofDigitChars_eq, Nat.mul_comm]
    exact Nat.le_add_right _ _

/-- The first digit that is left would have made the number too large. -/
theorem le_of_appendDigits_cons {c : Char} {s left : List Char}
    (h : appendDigits n s = (m, c :: left)) :
    18446744073709551616 * Nat.pow 10 left.length ≤ Nat.ofDigitChars 10 s n := by
  fun_induction appendDigits n s with
  | case1 n => cases h
  | case2 n c s k hk ih =>
    rw [Nat.ofDigitChars_cons]
    exact ih h
  | case3 n c s k hk =>
    cases h
    rw [Nat.ofDigitChars_cons, ofDigitChars_eq, Nat.mul_comm]
    exact Nat.le_trans (Nat.mul_le_mul_left _ (Nat.le_of_not_lt hk)) (Nat.le_add_right _ _)

theorem appendDigits_cases {s left : List Char} (h : appendDigits n s = (m, left)) :
    (m = n ∧ left = s) ∨ left.length < s.length := by
  fun_induction appendDigits n s with
  | case1 n =>
    cases h
    exact .inl ⟨rfl, rfl⟩
  | case2 n c s k hk ih =>
    right
    obtain ⟨-, rfl⟩ | hlt := ih h
    · exact Nat.lt_succ_self _
    · exact Nat.lt_succ_of_lt hlt
  | case3 n c s k hk =>
    cases h
    exact .inl ⟨rfl, rfl⟩

variable {negative : Bool} {whole fraction rest left : List Char} {exponent : Int}

/-- Leaving digits out makes no decimal larger. -/
theorem significand_le (hn : appendDigits 0 whole = (n, rest))
    (hm : appendDigits n fraction = (m, left)) (hlt : m < 18446744073709551616) :
    m * Nat.pow 10 (rest.length + left.length) ≤ digitsValue (whole ++ fraction) := by
  have hvalue : digitsValue (whole ++ fraction) =
      Nat.pow 10 fraction.length * digitsValue whole + digitsValue fraction := by
    rw [← ofDigitChars_eq]
    exact Nat.ofDigitChars_append 0
  have hwhole : n * Nat.pow 10 rest.length ≤ digitsValue whole := appendDigits_le hn
  rw [hvalue]
  cases rest with
  | nil =>
    -- All digits before the point fit.
    have hle := appendDigits_le hm
    have hmul := Nat.mul_le_mul_left (Nat.pow 10 fraction.length) hwhole
    rw [ofDigitChars_eq] at hle
    have hone : n * Nat.pow 10 ([] : List Char).length = n := Nat.mul_one n
    rw [hone] at hmul
    rw [List.length_nil, Nat.zero_add]
    omega
  | cons c rest =>
    refine Nat.le_trans ?_ (Nat.le_add_right _ _)
    obtain ⟨rfl, rfl⟩ | hleft := appendDigits_cases hm
    · calc
        m * Nat.pow 10 ((c :: rest).length + left.length) =
            Nat.pow 10 left.length * (m * Nat.pow 10 (c :: rest).length) := by
          simp only [Nat.pow_eq, Nat.pow_add]
          ac_rfl
        _ ≤ Nat.pow 10 left.length * digitsValue whole := Nat.mul_le_mul_left _ hwhole
    · -- What fits behind the point is less than what did not fit before it.
      calc
        m * Nat.pow 10 ((c :: rest).length + left.length) ≤
            18446744073709551616 * Nat.pow 10 ((c :: rest).length + left.length) :=
          Nat.mul_le_mul_right _ (Nat.le_of_lt hlt)
        _ = Nat.pow 10 (left.length + 1) * (18446744073709551616 * Nat.pow 10 rest.length) := by
          simp only [List.length_cons, Nat.pow_eq, Nat.pow_add]
          ac_rfl
        _ ≤ Nat.pow 10 (left.length + 1) * digitsValue whole :=
          Nat.mul_le_mul_left _ (le_of_appendDigits_cons hn)
        _ ≤ Nat.pow 10 fraction.length * digitsValue whole :=
          Nat.mul_le_mul_right _ (Nat.pow_le_pow_right (by decide) hleft)

/-! ## Decimals -/

/-- A decimal that is not beyond the bound of products is calculated without overflow. -/
theorem exists_estimate
    (h : digitsValue (whole ++ fraction) * Nat.pow 10 (exponent - fraction.length).toNat *
      Finite.scale ≤ safeBound * Nat.pow 10 (-(exponent - fraction.length)).toNat) :
    ∃ x, estimate negative whole fraction exponent = .finite x := by
  rcases hn : appendDigits 0 whole with ⟨n, rest⟩
  rcases hm : appendDigits n fraction with ⟨m, left⟩
  have hlt : m < 18446744073709551616 := appendDigits_lt (appendDigits_lt (by decide) hn) hm
  have hle := significand_le hn hm hlt
  have hshift : ∃ x, timesPower (.ofInt m)
      (exponent + rest.length + left.length - fraction.length) = .finite x := by
    cases hexponent : exponent + rest.length + left.length - fraction.length with
    | negSucc k =>
      obtain ⟨x, hx, -⟩ := exists_ofInt hlt
      rw [hx]
      exact exists_timesPower_of_neg x k
    | ofNat k =>
      refine exists_timesPower_of_nonneg hlt ?_
      have hsum : k + (-(exponent - fraction.length)).toNat =
          rest.length + left.length + (exponent - fraction.length).toNat := by
        rw [Int.ofNat_eq_natCast] at hexponent
        omega
      have hpow : 0 < Nat.pow 10 (-(exponent - fraction.length)).toNat :=
        Nat.pow_pos (by decide)
      refine Nat.le_of_mul_le_mul_right (Nat.le_trans ?_ h) hpow
      calc
        m * Nat.pow 10 k * Finite.scale * Nat.pow 10 (-(exponent - fraction.length)).toNat =
            m * Nat.pow 10 (k + (-(exponent - fraction.length)).toNat) * Finite.scale := by
          simp only [Nat.pow_eq, Nat.pow_add]
          ac_rfl
        _ = m * Nat.pow 10 (rest.length + left.length) *
            Nat.pow 10 (exponent - fraction.length).toNat * Finite.scale := by
          simp only [hsum, Nat.pow_eq, Nat.pow_add]
          ac_rfl
        _ ≤ _ := Nat.mul_le_mul_right _ (Nat.mul_le_mul_right _ hle)
  obtain ⟨x, hx⟩ := hshift
  rw [estimate, hn]
  dsimp only
  rw [hm]
  dsimp only
  rw [hx]
  cases negative with
  | false => exact ⟨x, rfl⟩
  | true => exact ⟨x.neg, rfl⟩

theorem exists_estimate_of_nearest {x : Finite}
    (h : nearest negative whole fraction exponent = .finite x)
    (hx : 2 * x.magnitude + x.lastBit ≤ 2 * safeBound) :
    ∃ y, estimate negative whole fraction exponent = .finite y := by
  have hpow : 0 < Nat.pow 10 (-(exponent - fraction.length)).toNat := Nat.pow_pos (by decide)
  rw [nearest, toBinary64_eq_ofRatio] at h
  have hle := Nat.le_trans (Binary64.le_of_ofRatio hpow h) (Nat.mul_le_mul_right _ hx)
  rw [Nat.mul_assoc 2] at hle
  exact exists_estimate (Nat.le_of_mul_le_mul_left hle (by decide))

/-! ## Short decimals -/

theorem appendDigits_of_lt {s : List Char}
    (h : Nat.ofDigitChars 10 s n < 18446744073709551616) :
    appendDigits n s = (Nat.ofDigitChars 10 s n, []) := by
  fun_induction appendDigits n s with
  | case1 n => rfl
  | case2 n c s k hk ih =>
    rw [Nat.ofDigitChars_cons] at h ⊢
    exact ih h
  | case3 n c s k hk =>
    rw [Nat.ofDigitChars_cons, ofDigitChars_eq] at h
    have hpow : 0 < Nat.pow 10 s.length := Nat.pow_pos (by decide)
    have hle := Nat.le_trans (Nat.le_of_not_lt hk) (Nat.le_mul_of_pos_left _ hpow)
    exact absurd h (Nat.not_lt.2 (Nat.le_trans hle (Nat.le_add_right _ _)))

/-- Powers of ten up to `1e22` are held exactly. -/
theorem powerOfTen_exact : ∀ n < 23, (powerOfTen n).toFinite?.any fun p =>
    p.magnitude == Nat.pow 10 n * Finite.scale && !p.negative := by
  decide +kernel

theorem exists_powerOfTen_exact (hn : n ≤ 22) : ∃ p : Finite, powerOfTen n = .finite p ∧
    p.magnitude = Nat.pow 10 n * Finite.scale ∧ p.negative = false := by
  have hexact := powerOfTen_exact n (Nat.lt_succ_of_le hn)
  cases hp : powerOfTen n with
  | finite p =>
    rw [hp] at hexact
    simp only [Binary64.toFinite?, Option.any_some, Bool.and_eq_true, beq_iff_eq,
      Bool.not_eq_true'] at hexact
    exact ⟨p, rfl, hexact⟩
  | infinite _ | nan =>
    rw [hp] at hexact
    cases hexact

/-- A whole number of 53 bits is multiplied and divided by a small power of ten with one
rounding. -/
theorem timesPower_eq_ofRatio {k : Int} (hm : m < 9007199254740992) (hlow : -22 ≤ k)
    (hhigh : k ≤ 22) : timesPower (.ofInt m) k =
      .ofRatio false (m * Nat.pow 10 k.toNat * Finite.scale) (Nat.pow 10 (-k).toNat) := by
  have hscale := scale_pos
  obtain ⟨x, hx, hnegative, hmagnitude⟩ :=
    Binary64.ofRatio_whole (decide ((m : Int) < 0)) hm
  replace hx : Binary64.ofInt m = .finite x := hx
  replace hnegative : x.negative = false := by
    rw [hnegative]
    simp
  cases k with
  | ofNat n =>
    have hn : n ≤ 22 := Int.ofNat_le.1 hhigh
    obtain ⟨p, hp, hpmag, hpneg⟩ := exists_powerOfTen_exact hn
    have hden : Nat.pow 10 (-Int.ofNat n).toNat = 1 := by
      rw [show (-Int.ofNat n).toNat = 0 by simp]
    rw [timesPower, if_pos (by omega), hx, hp, Binary64.mul, Finite.mul, hnegative, hpneg,
      hmagnitude, hpmag, hden]
    refine Binary64.ofRatio_congr hscale (by decide) ?_
    show m * Finite.scale * (Nat.pow 10 n * Finite.scale) * 1 =
      m * Nat.pow 10 n * Finite.scale * Finite.scale
    rw [Nat.mul_one]
    ac_rfl
  | negSucc n =>
    have hn : n + 1 ≤ 22 := by omega
    obtain ⟨p, hp, hpmag, hpneg⟩ := exists_powerOfTen_exact hn
    have hpos : 0 < Nat.pow 10 (n + 1) * Finite.scale :=
      Nat.mul_pos (Nat.pow_pos (by decide)) hscale
    have hzero : p.isZero = false := Finite.isZero_of_magnitude_pos (hpmag ▸ hpos)
    have htimes : n / 308 = 0 := by omega
    have hpower : n % 308 + 1 = n + 1 := by omega
    rw [timesPower, htimes, hpower, shrink, hx, hp, Binary64.div, Finite.div,
      if_neg (by simp [hzero]), hnegative, hpneg, hmagnitude, hpmag]
    refine Binary64.ofRatio_congr hpos (Nat.pow_pos (by decide)) ?_
    show m * Finite.scale * Finite.scale * Nat.pow 10 (n + 1) =
      m * 1 * Finite.scale * (Nat.pow 10 (n + 1) * Finite.scale)
    rw [Nat.mul_one]
    ac_rfl

theorem neg_ofRatio (negative : Bool) (num den : Nat) :
    (Binary64.ofRatio negative num den).neg = .ofRatio (!negative) num den := by
  rw [Binary64.ofRatio, Binary64.ofRatio, Binary64.pack, Binary64.pack]
  split <;> split <;> rfl

/-- **Decimals of 53 bits times a small power of ten are calculated as the nearest number.** -/
theorem estimate_eq_nearest (negative : Bool)
    (hdigits : digitsValue (whole ++ fraction) < 9007199254740992)
    (hlow : -22 ≤ exponent - fraction.length) (hhigh : exponent - fraction.length ≤ 22) :
    estimate negative whole fraction exponent = nearest negative whole fraction exponent := by
  have happend : Nat.ofDigitChars 10 fraction (digitsValue whole) =
      digitsValue (whole ++ fraction) := (Nat.ofDigitChars_append 0).symm
  have hwhole : digitsValue whole ≤ digitsValue (whole ++ fraction) := by
    rw [← happend, ofDigitChars_eq]
    have hpow : 0 < Nat.pow 10 fraction.length := Nat.pow_pos (by decide)
    exact Nat.le_trans (Nat.le_mul_of_pos_left _ hpow) (Nat.le_add_right _ _)
  have hn : appendDigits 0 whole = (digitsValue whole, []) :=
    appendDigits_of_lt (Nat.lt_of_le_of_lt hwhole (Nat.lt_trans hdigits (by decide)))
  have hm : appendDigits (digitsValue whole) fraction = (digitsValue (whole ++ fraction), []) := by
    rw [← happend]
    exact appendDigits_of_lt (Nat.lt_trans (happend ▸ hdigits) (by decide))
  have hexponent : exponent + ([] : List Char).length + ([] : List Char).length -
      fraction.length = exponent - fraction.length := by
    simp
  rw [estimate, hn]
  dsimp only
  rw [hm]
  dsimp only
  rw [hexponent, timesPower_eq_ofRatio hdigits hlow hhigh, nearest, toBinary64_eq_ofRatio]
  simp only [ofParts]
  cases negative with
  | false => rw [if_neg Bool.false_ne_true]
  | true => rw [if_pos rfl, neg_ofRatio, Bool.not_false]

end Decimal

/-! ## Texts of numbers -/

/-- Only the two greatest numbers of both signs are near the bound. -/
theorem Finite.le_safeBound_or (x : Finite) :
    2 * x.magnitude + x.lastBit ≤ 2 * Decimal.safeBound ∨
      x.shift = 2045 ∧ (x.mant = 9007199254740990 ∨ x.mant = 9007199254740991) := by
  obtain ⟨k, hk, hsafe⟩ : ∃ k, k = 2044 ∧ Decimal.safeBound = 18014398509481979 <<< k :=
    ⟨2044, rfl, rfl⟩
  have hmant := x.mant_lt
  have hshift := x.shift_le
  have hbit : x.lastBit = 2 ^ x.shift := by rw [lastBit, Nat.shiftLeft_eq, Nat.one_mul]
  rw [hsafe, x.magnitude_eq_mul, hbit, Nat.shiftLeft_eq]
  by_cases hgreat : x.shift = k + 1
  · by_cases hlast : x.mant < 9007199254740990
    · left
      rw [hgreat, Nat.pow_succ']
      have hmul : x.mant * (2 * 2 ^ k) ≤ 9007199254740989 * (2 * 2 ^ k) :=
        Nat.mul_le_mul_right _ (by omega)
      omega
    · exact .inr ⟨by omega, by omega⟩
  · left
    have hpow : 2 ^ x.shift ≤ 2 ^ k := Nat.pow_le_pow_right (by decide) (by omega)
    have hmul : x.mant * 2 ^ x.shift ≤ 9007199254740991 * 2 ^ k :=
      Nat.mul_le_mul (by omega) hpow
    omega

namespace Number

open Text

variable {rest : List Char}

/-- The two greatest numbers of both signs are read from their texts, too. -/
theorem isSome_of_greatest {x : Finite} (hshift : x.shift = 2045)
    (hmant : x.mant = 9007199254740990 ∨ x.mant = 9007199254740991) :
    (Json.readNumber Decimal.estimate x.toText.toList).isSome := by
  obtain ⟨negative, mant, shift, hlt, hle, hnormal⟩ := x
  dsimp only at hshift hmant
  subst hshift
  have hread : ∀ negative,
      (Json.readNumber Decimal.estimate (Finite.toText
        ⟨negative, 9007199254740990, 2045, by decide, by decide, by decide⟩).toList).isSome ∧
      (Json.readNumber Decimal.estimate (Finite.toText
        ⟨negative, 9007199254740991, 2045, by decide, by decide, by decide⟩).toList).isSome := by
    decide +kernel
  obtain rfl | rfl := hmant
  · exact (hread negative).1
  · exact (hread negative).2

theorem exists_number?_float {x : Finite} {m : Numeral} (htext : m.text = x.toText.toList)
    (hvalue : m.value.toBinary64 = .finite x) : ∃ n, m.number? Decimal.estimate = some n := by
  obtain ⟨n, -, hn⟩ | hfloat := number?_cases m
  · exact ⟨n, hn _⟩
  obtain hsafe | ⟨hshift, hmant⟩ := x.le_safeBound_or
  · have hnearest : Decimal.nearest m.negative m.whole m.fraction
        ((m.exponent.map Numeral.exponentValue).getD 0) = .finite x := hvalue
    obtain ⟨y, hy⟩ := Decimal.exists_estimate_of_nearest hnearest hsafe
    exact ⟨.float y, by rw [hfloat, hy]; rfl⟩
  · have hread := isSome_of_greatest hshift hmant
    rw [← htext, ← List.append_nil m.text, m.readNumber_text _ stops_nil,
      Option.isSome_map] at hread
    exact Option.isSome_iff_exists.1 hread

/-- The number that is read from the text of a number. -/
def reread (n : Number) : Number :=
  ((Json.readNumber Decimal.estimate n.toText.toList).map Prod.fst).getD n

theorem exists_number? (n : Number) :
    ∃ (m : Numeral) (k : Number), m.text = n.toText.toList ∧
      m.number? Decimal.estimate = some k := by
  cases n with
  | int k hk =>
    obtain ⟨m, htext, hread⟩ := exists_number?_int k hk
    exact ⟨m, _, htext, hread _⟩
  | float x =>
    obtain ⟨m, htext, hvalue, -⟩ := x.exists_toText
    obtain ⟨k, hk⟩ := exists_number?_float htext hvalue
    exact ⟨m, k, htext, hk⟩

/-- **The text of every number is read in a JSON text.** -/
theorem readNumber_toText (n : Number) (h : Stops Numeral.continues rest) :
    Json.readNumber Decimal.estimate (n.toText.toList ++ rest) = some (n.reread, rest) := by
  obtain ⟨m, k, htext, hk⟩ := n.exists_number?
  have hread {rest : List Char} (h : Stops Numeral.continues rest) :
      Json.readNumber Decimal.estimate (n.toText.toList ++ rest) = some (k, rest) := by
    rw [← htext, m.readNumber_text _ h, hk]
    rfl
  have hself := hread stops_nil
  rw [List.append_nil] at hself
  rw [hread h, reread, hself]
  rfl

/-- The number is read back from its text in a JSON text. -/
def ReadsBack (n : Number) : Prop :=
  Json.readNumber Decimal.estimate n.toText.toList = some (n, [])

instance : DecidablePred ReadsBack :=
  fun _ => inferInstanceAs (Decidable (_ = _))

theorem readsBack_iff {n : Number} : n.ReadsBack ↔ n.reread = n := by
  have hread := n.readNumber_toText stops_nil
  rw [List.append_nil] at hread
  rw [ReadsBack, hread]
  simp

/-- An integer is read back. -/
theorem readsBack_int (k : Int) (hk) : (int k hk).ReadsBack := by
  obtain ⟨m, htext, hread⟩ := exists_number?_int k hk
  have hself := m.readNumber_text Decimal.estimate stops_nil
  rw [List.append_nil, htext, hread] at hself
  exact hself

/-- **A number that is written with few digits is read back.** -/
theorem readsBack_float {x : Finite} {d : Decimal}
    (hd : Decimal.ofNumeral? x.toText.toList = some d) (hdigits : d.digits < 9007199254740992)
    (hlow : -22 ≤ d.exponent) (hhigh : d.exponent ≤ 22) : (float x).ReadsBack := by
  obtain ⟨m, htext, hvalue, hpart⟩ := x.exists_toText
  obtain rfl : m.value = d := by
    rw [← htext, m.ofNumeral?_text] at hd
    exact Option.some.inj hd
  have hread := m.readNumber_text Decimal.estimate stops_nil
  rw [List.append_nil, htext, number?_of_part _ hpart,
    Decimal.estimate_eq_nearest _ hdigits hlow hhigh] at hread
  rw [ReadsBack, toText, hread]
  show (m.value.toBinary64.toFinite?.map float).map _ = _
  rw [hvalue]
  rfl

end Number

end StatVars
