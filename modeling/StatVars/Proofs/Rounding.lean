import StatVars.Number.Shortest

/-!
# Decimals and the numbers nearest to them

Which number is nearest to a quotient depends on the quotient alone, so a decimal may be written
with zeros behind its digits and a smaller exponent. A number has itself as the nearest one. The
decimal that is chosen for a number is hence read as this number. Main statements:
`Decimal.toBinary64_zeros` and `Finite.toBinary64_shortest`.
-/

namespace StatVars

theorem roundDiv_mul_right {c : Nat} (hc : 0 < c) (num den : Nat) :
    roundDiv (num * c) (den * c) = roundDiv num den := by
  have hbelow : 2 * (num % den * c) < den * c ↔ 2 * (num % den) < den := by
    rw [← Nat.mul_assoc, Nat.mul_lt_mul_right hc]
  have habove : den * c < 2 * (num % den * c) ↔ den < 2 * (num % den) := by
    rw [← Nat.mul_assoc, Nat.mul_lt_mul_right hc]
  simp only [roundDiv, Nat.mul_div_mul_right _ _ hc, Nat.mul_mod_mul_right, hbelow, habove]

theorem roundDiv_of_lt {num den : Nat} (h : 2 * num < den) : roundDiv num den = 0 := by
  have hlt : num < den := by omega
  simp only [roundDiv, Nat.div_eq_of_lt hlt, Nat.mod_eq_of_lt hlt, if_pos h]

theorem roundDiv_zero (den : Nat) : roundDiv 0 den = 0 := by
  simp [roundDiv]

namespace Binary64

variable {negative : Bool} {num den : Nat}

theorem excess_mul_right {c : Nat} (hc : 0 < c) (num den : Nat) :
    excess (num * c) (den * c) = excess num den := by
  rw [excess, excess, Nat.mul_div_mul_right _ _ hc]

theorem ofRatio_mul_right {c : Nat} (hc : 0 < c) (negative : Bool) (num den : Nat) :
    ofRatio negative (num * c) (den * c) = ofRatio negative num den := by
  have hmant : roundDiv (num * c) ((den * c) <<< excess num den) =
      roundDiv num (den <<< excess num den) := by
    rw [Nat.shiftLeft_eq, Nat.shiftLeft_eq, Nat.mul_right_comm, roundDiv_mul_right hc]
  simp only [ofRatio, excess_mul_right hc, hmant]

/-- **Equal quotients have the same nearest number.** -/
theorem ofRatio_congr {num' den' : Nat} (hden : 0 < den) (hden' : 0 < den')
    (h : num * den' = num' * den) : ofRatio negative num den = ofRatio negative num' den' :=
  calc
    ofRatio negative num den = ofRatio negative (num * den') (den * den') :=
      (ofRatio_mul_right hden' ..).symm
    _ = ofRatio negative (num' * den) (den' * den) := by rw [h, Nat.mul_comm den den']
    _ = ofRatio negative num' den' := ofRatio_mul_right hden ..

/-- What is below half of the smallest number is nearest to zero. -/
theorem ofRatio_of_lt (h : 2 * num < den) :
    ofRatio negative num den = .finite (.zero negative) := by
  have hexcess : excess num den = 0 := by
    rw [excess, Nat.div_eq_of_lt (by omega)]
    rfl
  simp only [ofRatio, hexcess, Nat.shiftLeft_zero, roundDiv_of_lt h]
  rfl

theorem ofRatio_zero (negative : Bool) (den : Nat) :
    ofRatio negative 0 den = .finite (.zero negative) := by
  have hexcess : excess 0 den = 0 := by
    rw [excess, Nat.zero_div]
    rfl
  simp only [ofRatio, hexcess, roundDiv_zero]
  rfl

/-- What is beyond the largest number is nearest to an infinity. -/
theorem ofRatio_of_le (h : 2098 ≤ num.log2) : ofRatio negative num 1 = .infinite negative := by
  have hexcess : 2046 ≤ excess num 1 := by
    rw [excess, Nat.div_one]
    omega
  rw [ofRatio, pack]
  split
  · rw [dif_neg (by omega)]
  · rw [dif_neg (by omega)]

theorem log2_of_normal {mant shift : Nat} (hge : 4503599627370496 ≤ mant)
    (hlt : mant < 9007199254740992) : (mant <<< shift).log2 = 52 + shift := by
  have hpos : mant <<< shift ≠ 0 := by
    have := Nat.two_pow_pos shift
    rw [Nat.shiftLeft_eq]
    exact Nat.mul_ne_zero (by omega) (by omega)
  rw [Nat.log2_eq_iff hpos, Nat.shiftLeft_eq, show 52 + shift + 1 = 53 + shift by omega,
    Nat.pow_add, Nat.pow_add]
  exact ⟨Nat.mul_le_mul_right _ hge, Nat.mul_lt_mul_of_pos_right hlt (Nat.two_pow_pos shift)⟩

theorem excess_magnitude (x : Finite) : excess x.magnitude 1 = x.shift := by
  rw [excess, Nat.div_one, Finite.magnitude]
  by_cases hge : 4503599627370496 ≤ x.mant
  · rw [log2_of_normal hge x.mant_lt, Nat.add_sub_cancel_left]
  · have hshift : x.shift = 0 := x.normal.resolve_left hge
    rw [hshift, Nat.shiftLeft_zero]
    by_cases hzero : x.mant = 0
    · rw [hzero]
      rfl
    · have hlog : x.mant.log2 < 52 := (Nat.log2_lt hzero).2 (by omega)
      omega

/-- **A number is the nearest one to itself.** -/
theorem ofRatio_magnitude (x : Finite) : ofRatio x.negative x.magnitude 1 = .finite x := by
  have hmant : roundDiv x.magnitude (1 <<< x.shift) = x.mant := by
    rw [Nat.one_shiftLeft]
    exact roundDiv_of_dvd (Nat.two_pow_pos _) (Nat.shiftLeft_eq ..)
  simp only [ofRatio, excess_magnitude, hmant, pack, dif_pos x.mant_lt, dif_pos x.shift_le]

/-- What has fewer bits than the greatest number becomes no infinity. -/
theorem exists_ofRatio_finite (negative : Bool) (h : num.log2 < 2097) :
    ∃ x, ofRatio negative num 1 = .finite x := by
  have hexcess : excess num 1 < 2045 := by
    rw [excess, Nat.div_one]
    omega
  rw [ofRatio, pack]
  split
  · exact ⟨_, dif_pos (Nat.le_of_lt hexcess)⟩
  · exact ⟨_, dif_pos hexcess⟩

end Binary64

namespace Decimal

theorem scale_eq : ∃ k, k = 1074 ∧ Finite.scale = Nat.pow 2 k := by
  refine ⟨1074, rfl, ?_⟩
  unfold Finite.scale
  generalize 1074 = k
  exact Nat.one_shiftLeft k

theorem scale_pos : 0 < Finite.scale := by
  obtain ⟨k, -, hscale⟩ := scale_eq
  exact hscale ▸ Nat.two_pow_pos k

theorem two_pow_le_ten_pow (j : Nat) : Nat.pow 2 (205 * j) ≤ Nat.pow 10 (62 * j) := by
  show 2 ^ (205 * j) ≤ 10 ^ (62 * j)
  rw [Nat.pow_mul, Nat.pow_mul]
  exact Nat.pow_le_pow_left (by decide) j

/-- Behind the powers of ten that are computed there are only infinities. -/
theorem le_log2_of_lt {digits n : Nat} (hdigits : digits ≠ 0) (hn : 309 < n) :
    2098 ≤ (digits * Nat.pow 10 n * Finite.scale).log2 := by
  obtain ⟨k, hk, hscale⟩ := scale_eq
  obtain ⟨j, hj⟩ : ∃ j, j = 5 := ⟨_, rfl⟩
  have hpow : 2 ^ (205 * j) ≤ digits * 10 ^ n :=
    calc
      2 ^ (205 * j) ≤ 10 ^ (62 * j) := two_pow_le_ten_pow j
      _ ≤ 10 ^ n := Nat.pow_le_pow_right (by decide) (by omega)
      _ ≤ digits * 10 ^ n := Nat.le_mul_of_pos_left _ (by omega)
  have hle : 2 ^ (205 * j + k) ≤ digits * Nat.pow 10 n * Finite.scale := by
    rw [hscale, Nat.pow_add]
    exact Nat.mul_le_mul_right _ hpow
  have hlog := (Nat.le_log2 (Nat.ne_of_gt (Nat.lt_of_lt_of_le (Nat.two_pow_pos _) hle))).2 hle
  omega

/-- Before the powers of ten that are computed there are only zeros. -/
theorem lt_of_log2_lt {digits n : Nat} (hn : digits.log2 + 1080 < 3 * n) :
    2 * (digits * Finite.scale) < Nat.pow 10 n := by
  obtain ⟨k, hk, hscale⟩ := scale_eq
  calc
    2 * (digits * Finite.scale) = 2 ^ (k + 1) * digits := by
      rw [hscale, Nat.pow_eq, Nat.pow_succ, Nat.mul_left_comm, Nat.mul_comm, Nat.mul_comm 2]
    _ < 2 ^ (k + 1) * 2 ^ (digits.log2 + 1) :=
      Nat.mul_lt_mul_of_pos_left Nat.lt_log2_self (Nat.two_pow_pos _)
    _ = 2 ^ (k + 1 + (digits.log2 + 1)) := (Nat.pow_add ..).symm
    _ ≤ 2 ^ (3 * n) := Nat.pow_le_pow_right (by decide) (by omega)
    _ = (2 ^ 3) ^ n := Nat.pow_mul ..
    _ ≤ 10 ^ n := Nat.pow_le_pow_left (by decide) n

/-- The powers of ten that are not computed would make no difference. -/
theorem toBinary64_eq_ofRatio (d : Decimal) :
    d.toBinary64 = .ofRatio d.negative (d.digits * Nat.pow 10 d.exponent.toNat * Finite.scale)
      (Nat.pow 10 (-d.exponent).toNat) := by
  obtain ⟨negative, digits, exponent⟩ := d
  unfold toBinary64
  by_cases hzero : digits = 0
  · simp only [hzero, if_pos, Nat.zero_mul, Binary64.ofRatio_zero]
  rw [if_neg hzero]
  cases exponent with
  | ofNat n =>
    have hden : Nat.pow 10 (-Int.ofNat n).toNat = 1 := by
      rw [show (-Int.ofNat n).toNat = 0 by simp]
    rw [hden, show (Int.ofNat n).toNat = n from rfl]
    dsimp only
    split
    · next hn => rw [Binary64.ofRatio_of_le (le_log2_of_lt hzero hn)]
    · rfl
  | negSucc n =>
    have hnum : Nat.pow 10 (Int.negSucc n).toNat = 1 := rfl
    rw [hnum, Nat.mul_one, show (-Int.negSucc n).toNat = n + 1 from rfl]
    dsimp only
    split
    · next hn => rw [Binary64.ofRatio_of_lt (lt_of_log2_lt hn)]
    · rfl

/-- **Zeros behind the digits make no difference if the exponent makes up for them.** -/
theorem toBinary64_zeros (negative : Bool) (digits k : Nat) (exponent : Int) :
    toBinary64 ⟨negative, digits * Nat.pow 10 k, exponent⟩ =
      toBinary64 ⟨negative, digits, exponent + k⟩ := by
  have hexponents : k + exponent.toNat + (-(exponent + k)).toNat =
      (exponent + k).toNat + (-exponent).toNat := by omega
  rw [toBinary64_eq_ofRatio, toBinary64_eq_ofRatio]
  refine Binary64.ofRatio_congr (Nat.pow_pos (by decide)) (Nat.pow_pos (by decide)) ?_
  have hpow : Nat.pow 10 k * Nat.pow 10 exponent.toNat * Nat.pow 10 (-(exponent + k)).toNat =
      Nat.pow 10 (exponent + k).toNat * Nat.pow 10 (-exponent).toNat := by
    simp only [Nat.pow_eq, ← Nat.pow_add, hexponents]
  dsimp only
  generalize Finite.scale = scale
  calc
    _ = digits * scale *
        (Nat.pow 10 k * Nat.pow 10 exponent.toNat * Nat.pow 10 (-(exponent + k)).toNat) := by
      ac_rfl
    _ = digits * scale *
        (Nat.pow 10 (exponent + k).toNat * Nat.pow 10 (-exponent).toNat) := by rw [hpow]
    _ = _ := by ac_rfl

end Decimal

namespace Finite

/-- All digits of a number are read as the number. -/
theorem toBinary64_exactDecimal (x : Finite) : x.exactDecimal.toBinary64 = .finite x := by
  obtain ⟨k, hk, hscale⟩ := Decimal.scale_eq
  have hexact : x.exactDecimal = ⟨x.negative, x.magnitude * Nat.pow 5 k, -k⟩ := by
    subst hk
    rfl
  have hpow : Nat.pow 5 k * Nat.pow 2 k = Nat.pow 10 k := (Nat.mul_pow 5 2 k).symm
  rw [hexact, Decimal.toBinary64_eq_ofRatio, ← Binary64.ofRatio_magnitude x]
  dsimp only
  rw [show (-(k : Int)).toNat = 0 by omega, show (-(-(k : Int))).toNat = k by omega, hscale]
  refine Binary64.ofRatio_congr (Nat.pow_pos (by decide)) (by decide) ?_
  rw [← hpow]
  simp only [Nat.pow_eq, Nat.pow_zero, Nat.mul_one, Nat.mul_assoc]

theorem toBinary64_of_onGrid? {x : Finite} {exponent : Int} {d : Decimal}
    (h : x.onGrid? exponent = some d) : d.toBinary64 = .finite x := by
  unfold onGrid? at h
  generalize x.inPowersOfTen exponent = size at h
  obtain ⟨num, den⟩ := size
  have hwritten : x.isWrittenBy d := List.find?_some h
  rwa [isWrittenBy, beq_iff_eq] at hwritten

/-- **The decimal that is chosen for a number is read as the number.** -/
theorem toBinary64_shortest (x : Finite) : x.shortest.toBinary64 = .finite x := by
  have hchoice : x.shortest = ((List.range 17).findSome? fun (n : Nat) =>
      x.onGrid? (x.decimalOrder - (n + 1))).getD x.exactDecimal := rfl
  rw [hchoice]
  cases h : (List.range 17).findSome? fun (n : Nat) => x.onGrid? (x.decimalOrder - (n + 1)) with
  | none =>
    rw [Option.getD_none]
    exact toBinary64_exactDecimal x
  | some d =>
    obtain ⟨n, -, hd⟩ := List.exists_of_findSome?_eq_some h
    exact toBinary64_of_onGrid? hd

end Finite

end StatVars
