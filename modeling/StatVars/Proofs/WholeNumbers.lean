import StatVars.Proofs.Digits
import StatVars.Proofs.Rounding
import StatVars.Json.Number
import StatVars.Text.Blank

/-!
# Whole numbers in double precision

Whole numbers below `2 ^ 53` in size are held exactly, and so are their sums as long as they are
below that. Such a number keeps its value when it is rounded to significant digits just if the
digits that are cut off are zeros: else it moves to another multiple of a power of ten, and a
multiple so large that it is not held exactly is nearest to a number of `2 ^ 53` at least. Main
statement: `Finite.roundTo_isWhole_iff`.
-/

namespace StatVars

/-! ## Digits of whole numbers -/

/-- The number of decimal digits of an integer without the zeros at its end. -/
def significantDigits (k : Int) : Nat :=
  (Text.dropEndWhile (· == '0') (Nat.toDigits 10 k.natAbs)).length

variable {n d e : Nat} {k : Int}

namespace Finite

theorem digitCount_ten_mul (hn : 0 < n) : digitCount (10 * n) = digitCount n + 1 := by
  rw [digitCount, Nat.toDigits_of_base_le (by decide) (by omega),
    Nat.mul_div_cancel_left n (by decide), List.length_append]
  rfl

theorem digitCount_mul_pow (hn : 0 < n) (e : Nat) :
    digitCount (n * Nat.pow 10 e) = digitCount n + e := by
  induction e with
  | zero => exact congrArg digitCount (Nat.mul_one n)
  | succ e ih =>
    have hpos : 0 < n * Nat.pow 10 e := Nat.mul_pos hn (Nat.pow_pos (by decide))
    have hsucc : n * Nat.pow 10 (e + 1) = 10 * (n * Nat.pow 10 e) := by
      rw [Nat.mul_left_comm, Nat.mul_comm 10]
      rfl
    rw [hsucc, digitCount_ten_mul hpos, ih, Nat.add_assoc]

/-- The first digit is not zero. -/
theorem pow_le_of_lt_digitCount (hn : 0 < n) (he : e < digitCount n) : Nat.pow 10 e ≤ n := by
  refine Nat.le_of_not_lt fun hlt => ?_
  obtain rfl | hpos := Nat.eq_zero_or_pos e
  · exact absurd hlt (Nat.not_lt.2 hn)
  · exact absurd ((Nat.length_toDigits_le_iff (by decide) hpos).2 hlt) (Nat.not_le.2 he)

end Finite

theorem significantDigits_le (k : Int) : significantDigits k ≤ Finite.digitCount k.natAbs := by
  have hle {s : List Char} : (s.reverse.dropWhile (· == '0')).length ≤ s.reverse.length :=
    (List.dropWhile_sublist _).length_le
  rw [significantDigits, Text.dropEndWhile, List.length_reverse]
  exact Nat.le_trans hle (Nat.le_of_eq List.length_reverse)

theorem significantDigits_ten_mul (hn : 0 < n) :
    significantDigits (10 * n : Nat) = significantDigits n := by
  have hdigits : Nat.toDigits 10 (10 * n) = Nat.toDigits 10 n ++ ['0'] := by
    rw [Nat.toDigits_of_base_le (by decide) (by omega), Nat.mul_div_cancel_left n (by decide),
      Nat.mul_mod_right]
    rfl
  rw [significantDigits, significantDigits, Int.natAbs_natCast, Int.natAbs_natCast, hdigits,
    Text.dropEndWhile, List.reverse_concat]
  rfl

theorem significantDigits_of_mod (hn : n % 10 ≠ 0) : significantDigits n = Finite.digitCount n := by
  have hlast : ∃ s, Nat.toDigits 10 n = s ++ [Nat.digitChar (n % 10)] := by
    by_cases hlt : n < 10
    · exact ⟨[], by rw [Nat.toDigits_of_lt_base hlt, Nat.mod_eq_of_lt hlt]; rfl⟩
    · exact ⟨_, Nat.toDigits_of_base_le (by decide) (Nat.le_of_not_lt hlt)⟩
  have hdigit : Nat.digitChar (n % 10) ≠ '0' := by
    have hall : ∀ m < 10, m ≠ 0 → Nat.digitChar m ≠ '0' := by decide
    exact hall _ (Nat.mod_lt n (by decide)) hn
  obtain ⟨s, hs⟩ := hlast
  rw [significantDigits, Int.natAbs_natCast, Finite.digitCount, hs, Text.dropEndWhile,
    List.reverse_concat, List.dropWhile_cons_of_neg (by simpa using hdigit),
    List.length_reverse, List.length_cons, List.length_reverse, List.length_append]
  rfl

/-- **The zeros at the end of a number are the powers of ten that divide it.** -/
theorem pow_dvd_iff (hn : 0 < n) (e : Nat) :
    Nat.pow 10 e ∣ n ↔ significantDigits n + e ≤ Finite.digitCount n := by
  induction e generalizing n with
  | zero => exact iff_of_true (Nat.one_dvd n) (significantDigits_le n)
  | succ e ih =>
    by_cases hten : 10 ∣ n
    · obtain ⟨m, rfl⟩ := hten
      have hm : 0 < m := Nat.pos_of_mul_pos_left hn
      have hpow : Nat.pow 10 (e + 1) = 10 * Nat.pow 10 e := Nat.pow_succ'
      rw [hpow, Nat.mul_dvd_mul_iff_left (by decide), ih hm, significantDigits_ten_mul hm,
        Finite.digitCount_ten_mul hm]
      omega
    · have hmod : n % 10 ≠ 0 := fun h => hten (Nat.dvd_of_mod_eq_zero h)
      refine iff_of_false (fun h => hten ?_) ?_
      · exact Nat.dvd_trans (Nat.pow_dvd_pow 10 (Nat.succ_pos e)) h
      · rw [significantDigits_of_mod hmod]
        omega

/-! ## Exact whole numbers -/

namespace Binary64

variable {negative : Bool} {num : Nat} {x y : Finite}

/-- Whole numbers below `2 ^ 53` are held exactly. -/
theorem exists_magnitude (negative : Bool) (hn : n < 9007199254740992) :
    ∃ x : Finite, x.negative = negative ∧ x.magnitude = n * Finite.scale := by
  obtain ⟨j, hj, hscale⟩ := Decimal.scale_eq
  obtain rfl | hpos := Nat.eq_zero_or_pos n
  · exact ⟨.zero negative, rfl, by rw [Nat.zero_mul]; rfl⟩
  -- The mantissa is moved up to 53 bits, and the shift is what is left of the scale.
  have hne : n ≠ 0 := Nat.ne_of_gt hpos
  have hlog : n.log2 < 53 := (Nat.log2_lt hne).2 hn
  have hsum : n.log2 + (52 - n.log2) = 52 := by omega
  have hsum' : n.log2 + 1 + (52 - n.log2) = 53 := by omega
  have hshift : 52 - n.log2 + (j - (52 - n.log2)) = j := by omega
  have hge : 2 ^ 52 ≤ n * 2 ^ (52 - n.log2) :=
    calc
      2 ^ 52 = 2 ^ n.log2 * 2 ^ (52 - n.log2) := by rw [← Nat.pow_add, hsum]
      _ ≤ n * 2 ^ (52 - n.log2) := Nat.mul_le_mul_right _ (Nat.log2_self_le hne)
  have hlt : n * 2 ^ (52 - n.log2) < 2 ^ 53 :=
    calc
      n * 2 ^ (52 - n.log2) < 2 ^ (n.log2 + 1) * 2 ^ (52 - n.log2) :=
        Nat.mul_lt_mul_of_pos_right Nat.lt_log2_self (Nat.two_pow_pos _)
      _ = 2 ^ 53 := by rw [← Nat.pow_add, hsum']
  refine ⟨⟨negative, n * 2 ^ (52 - n.log2), j - (52 - n.log2), hlt, by omega, .inl hge⟩, rfl, ?_⟩
  rw [Finite.magnitude, Nat.shiftLeft_eq, Nat.mul_assoc, ← Nat.pow_add, hshift, hscale]
  rfl

theorem ofRatio_whole (negative : Bool) (hn : n < 9007199254740992) :
    ∃ x, ofRatio negative (n * Finite.scale) 1 = .finite x ∧ x.negative = negative ∧
      x.magnitude = n * Finite.scale := by
  obtain ⟨x, rfl, hx⟩ := exists_magnitude negative hn
  exact ⟨x, by rw [← hx, ofRatio_magnitude], rfl, hx⟩

/-- Whole numbers of 64 bits are not too large. -/
theorem exists_ofRatio_whole (negative : Bool) (hn : n < 18446744073709551616) :
    ∃ x, ofRatio negative (n * Finite.scale) 1 = .finite x := by
  obtain ⟨j, hj, hscale⟩ := Decimal.scale_eq
  refine exists_ofRatio_finite _ ?_
  by_cases hzero : n * Finite.scale = 0
  · rw [hzero]
    decide
  · have hlt : n * Finite.scale < 2 ^ (64 + j) := by
      rw [hscale, Nat.pow_add]
      exact Nat.mul_lt_mul_of_pos_right (by omega) (Nat.two_pow_pos j)
    have hlog := (Nat.log2_lt hzero).2 hlt
    omega

theorem negative_of_ofRatio {den : Nat} (h : ofRatio negative num den = .finite x) :
    x.negative = negative := by
  unfold ofRatio pack at h
  split at h
  all_goals
    split at h
    · cases h
      rfl
    · cases h

/-- What is not below `2 ^ 53` is nearest to such a number. -/
theorem le_magnitude_of_ofRatio (hnum : 9007199254740992 * Finite.scale ≤ num)
    (h : ofRatio negative num 1 = .finite x) : 9007199254740992 * Finite.scale ≤ x.magnitude := by
  obtain ⟨j, -, hscale⟩ := Decimal.scale_eq
  rw [hscale] at hnum ⊢
  have hpow : 9007199254740992 * Nat.pow 2 j = 2 ^ (53 + j) := (Nat.pow_add 2 53 j).symm
  rw [hpow] at hnum ⊢
  have hlog : 53 + j ≤ num.log2 :=
    (Nat.le_log2 (Nat.ne_of_gt (Nat.lt_of_lt_of_le (Nat.two_pow_pos _) hnum))).2 hnum
  have hexcess : j + 1 ≤ excess num 1 := by
    rw [excess, Nat.div_one]
    omega
  have hsum : 52 + (j + 1) = 53 + j := by omega
  have hle {mant shift : Nat} (hmant : 4503599627370496 ≤ mant) (hshift : j + 1 ≤ shift) :
      2 ^ (53 + j) ≤ mant <<< shift :=
    calc
      2 ^ (53 + j) = 2 ^ 52 * 2 ^ (j + 1) := by rw [← Nat.pow_add, hsum]
      _ ≤ mant * 2 ^ shift := Nat.mul_le_mul hmant (Nat.pow_le_pow_right (by decide) hshift)
      _ = mant <<< shift := (Nat.shiftLeft_eq ..).symm
  unfold ofRatio pack at h
  split at h
  · split at h
    · cases h
      exact hle ((le_roundDiv_excess num 1).resolve_right (by omega)) hexcess
    · cases h
  · split at h
    · cases h
      exact hle (Nat.le_refl _) (Nat.le_succ_of_le hexcess)
    · cases h

/-- **A whole number is nearest to no other one below `2 ^ 53`.** -/
theorem magnitude_ofRatio_iff {m : Nat} (hn : n < 9007199254740992)
    (h : ofRatio negative (m * Finite.scale) 1 = .finite x) :
    x.magnitude = n * Finite.scale ↔ m = n := by
  have hpos := Decimal.scale_pos
  by_cases hm : m < 9007199254740992
  · obtain ⟨y, hy, -, hmagnitude⟩ := ofRatio_whole negative hm
    cases h.symm.trans hy
    rw [hmagnitude, Nat.mul_left_inj (Nat.ne_of_gt hpos)]
  · -- What may not be held exactly is nearest to something as large, so to no smaller number.
    have hm := Nat.le_of_not_lt hm
    have hle := le_magnitude_of_ofRatio (Nat.mul_le_mul_right _ hm) h
    refine iff_of_false (fun heq => ?_) (by omega)
    rw [heq] at hle
    exact absurd (Nat.le_of_mul_le_mul_right hle hpos) (Nat.not_le.2 hn)

end Binary64

/-! ## Sums -/

namespace Finite

variable {x y : Finite}

/-- The number has this whole value. -/
def IsWhole (x : Finite) (k : Int) : Prop :=
  x.units = k * scale

theorem natAbs_units (x : Finite) : x.units.natAbs = x.magnitude := by
  unfold units
  split <;> omega

theorem IsWhole.magnitude (h : x.IsWhole k) : x.magnitude = k.natAbs * scale := by
  rw [← natAbs_units, show x.units = k * scale from h, Int.natAbs_mul, Int.natAbs_natCast]

theorem isWhole_of (hnegative : x.negative = decide (k < 0))
    (hmagnitude : x.magnitude = k.natAbs * scale) : x.IsWhole k := by
  unfold IsWhole units
  rw [hnegative, hmagnitude, Int.natCast_mul]
  split
  · next hk =>
    have hk := of_decide_eq_true hk
    rw [Int.ofNat_natAbs_of_nonpos (Int.le_of_lt hk), Int.neg_mul, Int.neg_neg]
  · next hk =>
    have hk := of_decide_eq_false (Bool.eq_false_iff.2 hk)
    rw [Int.natAbs_of_nonneg (Int.not_lt.1 hk)]

theorem mul_scale_neg_iff : k * scale < 0 ↔ k < 0 := by
  have hscale : (0 : Int) < scale := Int.natCast_pos.2 Decimal.scale_pos
  have hiff : k * scale < 0 * scale ↔ k < 0 :=
    ⟨fun h => Int.lt_of_mul_lt_mul_right h (Int.le_of_lt hscale),
      fun h => Int.mul_lt_mul_of_pos_right h hscale⟩
  rwa [Int.zero_mul] at hiff

theorem mul_scale_eq_zero_iff : k * scale = 0 ↔ k = 0 := by
  have hscale : (scale : Int) ≠ 0 := Int.ne_of_gt (Int.natCast_pos.2 Decimal.scale_pos)
  rw [Int.mul_eq_zero, or_iff_left hscale]

theorem units_zero (negative : Bool) : (zero negative).units = 0 := by
  have hmagnitude : (zero negative).magnitude = 0 := Nat.zero_shiftLeft 0
  rw [units, hmagnitude]
  exact ite_self 0

theorem IsWhole.negative (h : x.IsWhole k) (hk : k ≠ 0) : x.negative = decide (k < 0) := by
  have hunits : x.units = k * scale := h
  have hmagnitude : x.magnitude ≠ 0 := by
    rw [← natAbs_units, hunits]
    exact Int.natAbs_ne_zero.2 (mt mul_scale_eq_zero_iff.1 hk)
  rw [Bool.eq_iff_iff, decide_eq_true_iff, ← mul_scale_neg_iff, ← hunits, units]
  split
  · next hx => exact iff_of_true hx (by omega)
  · next hx => exact iff_of_false hx (by omega)

theorem toInt?_eq_some_iff : x.toInt? = some k ↔ x.IsWhole k := by
  unfold toInt?
  constructor
  · intro h
    split at h
    · next hmod =>
      cases h
      exact (Int.ediv_mul_cancel (Int.dvd_of_emod_eq_zero hmod)).symm
    · cases h
  · intro h
    have hscale : (scale : Int) ≠ 0 := Int.ne_of_gt (Int.natCast_pos.2 Decimal.scale_pos)
    rw [show x.units = k * scale from h, Int.mul_emod_left, if_pos rfl,
      Int.mul_ediv_cancel k hscale]

/-- **A sum of whole numbers is exact if it is below `2 ^ 53` in size.** -/
theorem add_isWhole {a b : Int} (hx : x.IsWhole a) (hy : y.IsWhole b)
    (h : (a + b).natAbs < 9007199254740992) : ∃ z, x.add y = .finite z ∧ z.IsWhole (a + b) := by
  have hsum : x.units + y.units = (a + b) * scale := by
    rw [show x.units = a * scale from hx, show y.units = b * scale from hy, Int.add_mul]
  simp only [add, hsum, mul_scale_eq_zero_iff]
  split
  · next hzero =>
    refine ⟨_, rfl, ?_⟩
    rw [IsWhole, hzero, units_zero, Int.zero_mul]
  · rw [Int.natAbs_mul, Int.natAbs_natCast, decide_eq_decide.2 mul_scale_neg_iff]
    obtain ⟨z, hz, hnegative, hmagnitude⟩ := Binary64.ofRatio_whole (decide (a + b < 0)) h
    exact ⟨z, hz, isWhole_of hnegative hmagnitude⟩

/-! ## Rounding to significant digits -/

theorem decimalOrder_of_whole (hx : x.magnitude = n * scale) (hn : 0 < n) :
    x.decimalOrder = digitCount n := by
  change (digitCount (x.magnitude * Nat.pow 10 330 / scale) : Int) - (330 : Nat) = _
  generalize 330 = j
  rw [hx, Nat.mul_right_comm, Nat.mul_div_cancel _ Decimal.scale_pos, digitCount_mul_pow hn]
  omega

theorem isZero_of_whole (hx : x.magnitude = n * scale) (hn : 0 < n) : x.isZero = false := by
  refine beq_eq_false_iff_ne.2 fun hmant => ?_
  rw [Finite.magnitude, hmant, Nat.zero_shiftLeft] at hx
  exact absurd hx.symm (Nat.ne_of_gt (Nat.mul_pos hn Decimal.scale_pos))

theorem isZero_of_magnitude (hx : x.magnitude = 0) : x.isZero := by
  rw [Finite.magnitude, Nat.shiftLeft_eq, Nat.mul_eq_zero,
    or_iff_left (Nat.ne_of_gt (Nat.two_pow_pos _))] at hx
  exact beq_iff_eq.2 hx

/-- The number rounded to multiples of a power of ten. -/
def roundAt (x : Finite) (exponent : Int) : Binary64 :=
  let (num, den) := x.inPowersOfTen exponent
  Decimal.toBinary64 ⟨x.negative, roundDiv num den, exponent⟩

theorem roundTo_of_whole (hx : x.magnitude = n * scale) (hn : 0 < n) (hd : 0 < d) :
    x.roundTo d = if (digitCount n : Int) - d ≤ -1074 then .finite x
      else x.roundAt (digitCount n - d) := by
  have hd : (d == 0) = false := beq_eq_false_iff_ne.2 (Nat.ne_of_gt hd)
  rw [roundTo, decimalOrder_of_whole hx hn, isZero_of_whole hx hn, hd]
  simp only [Bool.or_false, Bool.false_or, decide_eq_true_eq]
  rfl

theorem roundAt_ofNat (hx : x.magnitude = n * scale) (e : Nat) :
    x.roundAt e = .ofRatio x.negative (roundDiv n (Nat.pow 10 e) * Nat.pow 10 e * scale) 1 := by
  have hround : roundDiv (x.magnitude) (scale * Nat.pow 10 e) = roundDiv n (Nat.pow 10 e) := by
    rw [hx, Nat.mul_comm scale, roundDiv_mul_right Decimal.scale_pos]
  change Decimal.toBinary64 ⟨x.negative, roundDiv (x.magnitude) (scale * Nat.pow 10 e), e⟩ = _
  have hden : (-(e : Int)).toNat = 0 := by omega
  rw [hround, Decimal.toBinary64_eq_ofRatio]
  dsimp only
  rw [hden, Int.toNat_natCast]

theorem roundAt_negSucc (hx : x.magnitude = n * scale) (j : Nat) :
    x.roundAt (.negSucc j) = .finite x := by
  have hround : roundDiv (x.magnitude * Nat.pow 10 (j + 1)) scale = n * Nat.pow 10 (j + 1) := by
    rw [hx, Nat.mul_right_comm]
    exact roundDiv_of_dvd Decimal.scale_pos rfl
  change Decimal.toBinary64 ⟨x.negative, roundDiv (x.magnitude * Nat.pow 10 (j + 1)) scale,
    .negSucc j⟩ = _
  have hexponent : Int.negSucc j + (j + 1 : Nat) = 0 := by omega
  rw [hround, Decimal.toBinary64_zeros, hexponent, Decimal.toBinary64_eq_ofRatio]
  change Binary64.ofRatio x.negative (n * 1 * scale) 1 = _
  rw [Nat.mul_one, ← hx, Binary64.ofRatio_magnitude]

/-- **A whole number is rounded to the nearest multiple of the power of ten that leaves so many
digits.** -/
theorem roundTo_whole (hx : x.magnitude = n * scale) (hn : 0 < n) (hd : 0 < d) :
    x.roundTo d = .ofRatio x.negative
      (roundDiv n (Nat.pow 10 (digitCount n - d)) * Nat.pow 10 (digitCount n - d) * scale) 1 := by
  have hone : roundDiv n 1 = n := roundDiv_of_dvd Nat.one_pos (Nat.mul_one n).symm
  rw [roundTo_of_whole hx hn hd]
  by_cases hle : d ≤ digitCount n
  · have hexponent : (digitCount n : Int) - d = (digitCount n - d : Nat) := by omega
    rw [if_neg (by omega), hexponent, roundAt_ofNat hx]
  · have hexponent : (digitCount n : Int) - d = .negSucc (d - digitCount n - 1) := by omega
    have hnone : digitCount n - d = 0 := by omega
    rw [hnone, Nat.pow, hone, Nat.mul_one, ← hx, Binary64.ofRatio_magnitude, hexponent,
      roundAt_negSucc hx, ite_self]

/-- Rounding to a multiple of `t` keeps the number just if it is one. -/
theorem roundDiv_mul_eq_iff {t : Nat} (ht : 0 < t) : roundDiv n t * t = n ↔ t ∣ n := by
  constructor
  · exact fun h => ⟨roundDiv n t, by rw [Nat.mul_comm, h]⟩
  · rintro ⟨q, rfl⟩
    rw [roundDiv_of_dvd ht (Nat.mul_comm t q), Nat.mul_comm]

/-- Rounding keeps a number below twice its size, if a digit is left. -/
theorem roundDiv_mul_le (hn : 0 < n) (hd : 0 < d) :
    roundDiv n (Nat.pow 10 (digitCount n - d)) * Nat.pow 10 (digitCount n - d) ≤ 2 * n := by
  have hcount : 0 < digitCount n := Nat.length_toDigits_pos
  have hpow : Nat.pow 10 (digitCount n - d) ≤ n := pow_le_of_lt_digitCount hn (by omega)
  generalize Nat.pow 10 (digitCount n - d) = t at hpow
  calc
    roundDiv n t * t ≤ (n / t + 1) * t := Nat.mul_le_mul_right t (roundDiv_le n t)
    _ = n / t * t + t := Nat.succ_mul ..
    _ ≤ n + n := Nat.add_le_add (Nat.div_mul_le_self n t) hpow
    _ = 2 * n := (Nat.two_mul n).symm

/-- **A whole number below `2 ^ 53` in size keeps its value when it is rounded to significant
digits just if it has no more of them.** -/
theorem roundTo_isWhole_iff (hx : x.IsWhole k) (hk : k.natAbs < 9007199254740992) (d : Nat) :
    ∃ y, x.roundTo d = .finite y ∧ (y.IsWhole k ↔ d = 0 ∨ significantDigits k ≤ d) := by
  have hmagnitude := hx.magnitude
  obtain rfl | hd := Nat.eq_zero_or_pos d
  · exact ⟨x, by simp [roundTo], iff_of_true hx (.inl rfl)⟩
  obtain hzero | hn := Nat.eq_zero_or_pos k.natAbs
  · obtain rfl := Int.natAbs_eq_zero.1 hzero
    have hmant : x.isZero := isZero_of_magnitude (hmagnitude.trans (Nat.zero_mul scale))
    exact ⟨x, by simp [roundTo, hmant], iff_of_true hx (.inr (Nat.zero_le d))⟩
  have hne : k ≠ 0 := Int.natAbs_pos.1 hn
  have hle := roundDiv_mul_le hn hd
  obtain ⟨y, hy⟩ := Binary64.exists_ofRatio_whole x.negative (Nat.lt_of_le_of_lt hle (by omega))
  refine ⟨y, (roundTo_whole hmagnitude hn hd).trans hy, ?_⟩
  -- The sign stays, so that the sizes decide.
  have hnegative := (Binary64.negative_of_ofRatio hy).trans (hx.negative hne)
  have hvalue : y.IsWhole k ↔ y.magnitude = k.natAbs * scale :=
    ⟨IsWhole.magnitude, isWhole_of hnegative⟩
  rw [hvalue, Binary64.magnitude_ofRatio_iff hk hy,
    roundDiv_mul_eq_iff (t := Nat.pow 10 _) (Nat.pow_pos (by decide)), pow_dvd_iff hn]
  have hsize : significantDigits k = significantDigits k.natAbs := by
    rw [significantDigits, significantDigits, Int.natAbs_natCast]
  have hcount := significantDigits_le k
  rw [← hsize]
  omega

end Finite

end StatVars
