import DesignLoads.Proofs.Decimal.Packing

/-! The floating-point number that a decimal is read as. Small decimals are a product or a quotient
of two numbers that are held exactly, all others are rounded from their digits; either way it is the
number that covers the value of the decimal, and has no sign. -/

namespace DesignLoads

open Float.Model Float.Model.UnpackedFloat Binary

theorem zpow_mul_pow_toNat {a : ℚ} (ha : a ≠ 0) (k : ℤ) :
    a ^ k * a ^ (-k).toNat = a ^ k.toNat := by
  rw [← zpow_natCast, ← zpow_natCast, ← zpow_add₀ ha]
  congr 1
  omega

/-- A floating-point number is a positive number, held in full precision. -/
def IsExactly (x : Float) (v : ℚ) : Prop :=
  ∃ m e h, x.toModel.unpack = .finite .positive m e h ∧ 2 ^ 52 ≤ m ∧ (m : ℚ) * 2 ^ e = v

theorem isExactly_of_bits {x : Float} {n : ℕ} (h : x.toBits.toNat < 2047 * 2 ^ 52)
    (hm : 2 ^ 52 ≤ (ofFloat x).mantissa)
    (hn : (ofFloat x).mantissa * 2 ^ (ofFloat x).exponent.toNat =
      n * 2 ^ (-(ofFloat x).exponent).toNat) : IsExactly x n := by
  have hpos : 0 < (ofFloat x).mantissa := by omega
  refine ⟨_, _, _, unpack_of_pos h hpos, hm, ?_⟩
  generalize (ofFloat x).mantissa = m at hn
  generalize (ofFloat x).exponent = e at hn
  have hcast : (m : ℚ) * 2 ^ e.toNat = n * 2 ^ (-e).toNat := by exact_mod_cast hn
  have hne : (2 : ℚ) ^ (-e).toNat ≠ 0 := by positivity
  apply mul_right_cancel₀ hne
  rw [mul_assoc, zpow_mul_pow_toNat two_ne_zero, hcast]

theorem isExactly_powerOfTen {e : ℕ} (h : e < 23) :
    IsExactly Float.exactlyRepresentablePowersOfTen[e] (10 ^ e) := by
  have htable : ∀ e : Fin 23,
      let x := Float.exactlyRepresentablePowersOfTen[e]
      x.toBits.toNat < 2047 * 2 ^ 52 ∧ 2 ^ 52 ≤ (ofFloat x).mantissa ∧
        (ofFloat x).mantissa * 2 ^ (ofFloat x).exponent.toNat =
          10 ^ (e : ℕ) * 2 ^ (-(ofFloat x).exponent).toNat := by
    decide +kernel
  obtain ⟨hbits, hm, hn⟩ := htable ⟨e, h⟩
  have hexact := isExactly_of_bits hbits hm hn
  exact_mod_cast hexact

section Whole

variable {n : ℕ}

/-- A whole number with its mantissa shifted up to full precision. -/
def Binary.whole (n : ℕ) : Binary :=
  ⟨n * 2 ^ (52 - n.log2), -(52 - n.log2 : ℕ), if n * 2 ^ (52 - n.log2) = 2 ^ 52 then 1 else 2⟩

theorem mantissa_whole (hpos : 0 < n) (h : n < 2 ^ 53) :
    2 ^ 52 ≤ (whole n).mantissa ∧ (whole n).mantissa < 2 ^ 53 := by
  have hlog : n.log2 ≤ 52 := Nat.lt_succ_iff.mp ((Nat.log2_lt hpos.ne').mpr h)
  have hpow (k : ℕ) : 2 ^ (n.log2 + k) * 2 ^ (52 - n.log2) = 2 ^ (52 + k) := by
    rw [← pow_add]
    congr 1
    omega
  constructor
  · rw [← hpow 0]
    exact Nat.mul_le_mul_right _ (Nat.log2_self_le hpos.ne')
  · rw [← hpow 1]
    exact Nat.mul_lt_mul_of_pos_right Nat.lt_log2_self (by positivity)

theorem normal_whole (hpos : 0 < n) (h : n < 2 ^ 53) : (whole n).Normal := by
  obtain ⟨hge, hlt⟩ := mantissa_whole hpos h
  have hleast : -1074 < (whole n).exponent := by
    change -1074 < (-(52 - n.log2 : ℕ) : ℤ)
    omega
  have hgreatest : (whole n).exponent ≤ 971 := by
    change (-(52 - n.log2 : ℕ) : ℤ) ≤ 971
    omega
  refine ⟨by omega, hlt, hleast.le, hgreatest, .inr hge, ?_⟩
  simp only [hleast, and_true]
  rfl

theorem value_whole (n : ℕ) : ((whole n).mantissa : ℚ) * 2 ^ (whole n).exponent = n := by
  change ((n * 2 ^ (52 - n.log2) : ℕ) : ℚ) * 2 ^ (-(52 - n.log2 : ℕ) : ℤ) = n
  rw [zpow_neg, zpow_natCast]
  push_cast
  field_simp

theorem ofUInt64_eq (hpos : 0 < n) (h : n < 2 ^ 53) :
    UnpackedFloat.ofUInt64 .binary64 n.toUInt64 =
      .finite .positive (whole n).mantissa (whole n).exponent (normal_whole hpos h).pos := by
  have hlog : n.log2 ≤ 52 := Nat.lt_succ_iff.mp ((Nat.log2_lt hpos.ne').mpr h)
  have hn : n.toUInt64.toNat = n := UInt64.toNat_ofNat_of_lt' (h.trans (by decide))
  have hsign : compare (n : ℤ) 0 = .gt := Int.compare_eq_gt.mpr (by omega)
  have htarget : Format.binary64.targetExponent (totalExponent n 0) = -(52 - n.log2 : ℕ) := by
    rw [targetExponent_eq]
    omega
  have hshift : (0 - (-(52 - n.log2 : ℕ) : ℤ)).toNat = 52 - n.log2 := by omega
  rw [UnpackedFloat.ofUInt64, UnpackedFloat.ofNat, UnpackedFloat.ofInt, UnpackedFloat.normalize,
    hn, hsign]
  dsimp only
  rw [UnpackedFloat.round, Int.toNat_natCast, htarget, decreaseExponent, hshift, Nat.shiftLeft_eq,
    zero_sub]
  have hnormal := normal_whole hpos h
  exact hnormal.covers_self.round hnormal (.inl (mantissa_whole hpos h).1) (represents_exact _) _

/-- Whole numbers below `2 ^ 53` are floating-point numbers. -/
theorem isExactly_toFloat (hpos : 0 < n) (h : n < 2 ^ 53) : IsExactly n.toUInt64.toFloat n := by
  have hfloat : n.toUInt64.toFloat = (whole n).toFloat (normal_whole hpos h).pos :=
    congrArg ofUnpacked (ofUInt64_eq hpos h)
  rw [hfloat]
  exact ⟨_, _, _, unpack_toFloat (normal_whole hpos h), (mantissa_whole hpos h).1, value_whole n⟩

end Whole

namespace Decimal

def value (d : Decimal) : ℚ := d.digits * 10 ^ d.exponent

variable {b : Binary} {d : Decimal}

theorem toFloat_eq_of_small (hd : d.digits < 2 ^ 53) (he : d.exponent.natAbs < 23) : d.toFloat =
    if d.exponent < 0 then
      d.digits.toUInt64.toFloat / Float.exactlyRepresentablePowersOfTen[d.exponent.natAbs]
    else d.digits.toUInt64.toFloat * Float.exactlyRepresentablePowersOfTen[d.exponent.natAbs] := by
  rw [toFloat, Float.ofScientific, dif_pos ⟨hd, Nat.le_of_lt_succ he⟩]
  simp only [decide_eq_true_eq]
  rfl

theorem toFloat_eq_of_large (h : ¬ (d.digits < 2 ^ 53 ∧ d.exponent.natAbs < 23)) :
    d.toFloat = ⟨Float.Model.ofScientific d.digits d.exponent⟩ := by
  have hexp : (if decide (d.exponent < 0) = true then Int.negOfNat d.exponent.natAbs
      else Int.ofNat d.exponent.natAbs) = d.exponent := by
    simp only [Int.negOfNat_eq, Int.ofNat_eq_natCast, decide_eq_true_eq]
    split <;> omega
  rw [toFloat, Float.ofScientific, dif_neg fun hsmall => h ⟨hsmall.1, Nat.lt_succ_of_le hsmall.2⟩]
  dsimp only
  rw [hexp]

theorem value_eq_mul (h : ¬ d.exponent < 0) : d.value = d.digits * 10 ^ d.exponent.natAbs := by
  have hexp : (d.exponent.natAbs : ℤ) = d.exponent := by omega
  rw [value, ← zpow_natCast, hexp]

theorem value_eq_div (h : d.exponent < 0) : d.value = d.digits / 10 ^ d.exponent.natAbs := by
  have hexp : (d.exponent.natAbs : ℤ) = -d.exponent := by omega
  rw [value, ← zpow_natCast, hexp, zpow_neg, div_inv_eq_mul]

theorem exponent_lt_of_value_lt (hd : 0 < d.digits) (h : d.value < 2 ^ (1024 : ℤ)) :
    d.exponent < 1024 := by
  have hone : (1 : ℚ) ≤ d.digits := by exact_mod_cast hd
  by_contra hge
  have hpow : (2 : ℚ) ^ (1024 : ℤ) ≤ 10 ^ d.exponent := by
    calc (2 : ℚ) ^ (1024 : ℤ) ≤ 10 ^ (1024 : ℤ) :=
          zpow_le_zpow_left₀ (by norm_num) (by norm_num) (by norm_num)
      _ ≤ 10 ^ d.exponent := zpow_le_zpow_right₀ (by norm_num) (by omega)
  have hvalue : (10 : ℚ) ^ d.exponent ≤ d.value := le_mul_of_one_le_left (by positivity) hone
  linarith

theorem le_exponent_of_le_value (hd : 0 < d.digits) (h : 2 ^ (-1075 : ℤ) ≤ d.value) :
    -(2 ^ 11 + d.digits.log2 : ℤ) ≤ d.exponent := by
  by_contra hlt
  have hdigits : (d.digits : ℚ) < 2 ^ (d.digits.log2 + 1 : ℤ) := by
    exact_mod_cast Nat.lt_log2_self
  have hpow : (10 : ℚ) ^ d.exponent ≤ 2 ^ d.exponent := by
    have hneg : (2 : ℚ) ^ (-d.exponent) ≤ 10 ^ (-d.exponent) :=
      zpow_le_zpow_left₀ (by omega) (by norm_num) (by norm_num)
    rw [zpow_neg, zpow_neg] at hneg
    exact (inv_le_inv₀ (by positivity) (by positivity)).mp hneg
  have hvalue : d.value < 2 ^ (-1075 : ℤ) := by
    calc d.value ≤ d.digits * 2 ^ d.exponent := mul_le_mul_of_nonneg_left hpow (by positivity)
      _ < 2 ^ (d.digits.log2 + 1 : ℤ) * 2 ^ d.exponent :=
          mul_lt_mul_of_pos_right hdigits (by positivity)
      _ = 2 ^ (d.digits.log2 + 1 + d.exponent : ℤ) := (zpow_add₀ two_ne_zero ..).symm
      _ ≤ 2 ^ (-1075 : ℤ) := zpow_le_zpow_right₀ one_le_two (by omega)
  linarith

theorem digits_pos (hb : b.Normal) (h : b.Covers d.value) : 0 < d.digits := by
  have hvalue : 0 < d.value :=
    (by positivity : (0 : ℚ) < 2 ^ (-1075 : ℤ)).trans_le (h.pow_least_le hb)
  apply Nat.pos_of_ne_zero
  intro hzero
  rw [value, hzero, Nat.cast_zero, zero_mul] at hvalue
  exact lt_irrefl 0 hvalue

/-- The conversion of a decimal with many digits or a large exponent. -/
theorem ofScientific_of_covers (hb : b.Normal) (h : b.Covers d.value) :
    UnpackedFloat.ofScientific .binary64 d.digits d.exponent =
      .finite .positive b.mantissa b.exponent hb.pos := by
  have hdigits := digits_pos hb h
  -- neither guard applies: the number neither overflows nor vanishes
  have hupper := exponent_lt_of_value_lt hdigits (h.lt_greatest hb)
  have hgreatest : ¬ d.exponent > 2 ^ Format.binary64.exponentBits := by
    change ¬ 2 ^ 11 < d.exponent
    omega
  have hleast : ¬ d.exponent < -(2 ^ Format.binary64.exponentBits + (d.digits.log2 : ℤ)) :=
    not_lt.mpr (le_exponent_of_le_value hdigits (h.pow_least_le hb))
  rw [UnpackedFloat.ofScientific, dif_neg hdigits.ne', if_neg hgreatest, if_neg hleast]
  split
  · rename_i hexp
    have habs : d.exponent.toNat = d.exponent.natAbs := by omega
    apply Covers.mul hb
    · rw [Nat.shiftLeft_eq]
      change 2 ^ 52 ≤ d.digits * 2 ^ 53 * 10 ^ d.exponent.toNat
      have hpow : 0 < 10 ^ d.exponent.toNat := by positivity
      have hle := Nat.le_mul_of_pos_right (d.digits * 2 ^ 53) hpow
      omega
    · have hvalue : ((d.digits <<< 53 : ℕ) : ℚ) * 2 ^ (-53 : ℤ) *
          ((10 ^ d.exponent.toNat : ℕ) * 2 ^ (0 : ℤ)) = d.value := by
        rw [value_eq_mul (by omega), habs, Nat.shiftLeft_eq, zpow_neg]
        push_cast
        field_simp
      rw [← hvalue] at h
      exact h
  · rename_i hexp
    have habs : (-d.exponent).toNat = d.exponent.natAbs := by omega
    apply Covers.div hb
    rw [habs, Nat.cast_pow, zpow_zero, mul_one, mul_one]
    rw [value_eq_div (by omega)] at h
    exact_mod_cast h

/-- A decimal is read as the number that covers it. -/
theorem toFloat_of_covers (hb : b.Normal) (h : b.Covers d.value) :
    d.toFloat = b.toFloat hb.pos := by
  have hdigits := digits_pos hb h
  by_cases hsmall : d.digits < 2 ^ 53 ∧ d.exponent.natAbs < 23
  · obtain ⟨m₁, e₁, h₁, hunpack₁, hm₁, hvalue₁⟩ := isExactly_toFloat hdigits hsmall.1
    obtain ⟨m₂, e₂, h₂, hunpack₂, hm₂, hvalue₂⟩ := isExactly_powerOfTen hsmall.2
    rw [toFloat_eq_of_small hsmall.1 hsmall.2]
    split
    · rename_i hneg
      rw [value_eq_div hneg, ← hvalue₁, ← hvalue₂] at h
      have hdiv := h.div hb h₁ h₂
      rw [← hunpack₁, ← hunpack₂] at hdiv
      exact congrArg ofUnpacked hdiv
    · rename_i hneg
      rw [value_eq_mul hneg, ← hvalue₁, ← hvalue₂] at h
      have hmul := h.mul hb h₁ h₂ (hm₁.trans (Nat.le_mul_of_pos_right _ h₂))
      rw [← hunpack₁, ← hunpack₂] at hmul
      exact congrArg ofUnpacked hmul
  · rw [toFloat_eq_of_large hsmall]
    exact congrArg ofUnpacked (ofScientific_of_covers hb h)

section Signs

def Unsigned : UnpackedFloat → Prop
  | .notANumber => True
  | .infinity s | .zero s | .finite s _ _ _ => s = .positive

variable {u v : UnpackedFloat} {x : Float}

/-- The bits of a number without a sign come before those of a NaN. -/
theorem toNat_pack_le (h : Unsigned u) (hnum : u ≠ .notANumber) :
    (UnpackedFloat.pack .binary64 u).toNat ≤ 2047 * 2 ^ 52 := by
  have hsmall (n : ℕ) (hn : n < 2047) (m : BitVec 52) :
      (packComponents .binary64 .positive (BitVec.ofNat 11 n) m).toNat ≤ 2047 * 2 ^ 52 := by
    have hm := m.isLt
    rw [toNat_packComponents, BitVec.toNat_ofNat]
    change 0 * 2 ^ 63 + n % 2 ^ 11 * 2 ^ 52 + _ ≤ _
    omega
  have hinfinity : (packedInfinity .binary64 .positive).toNat ≤ 2047 * 2 ^ 52 := by decide
  cases u with
  | notANumber => exact absurd rfl hnum
  | infinity s =>
    cases h
    exact hinfinity
  | zero s =>
    cases h
    exact hsmall 0 (by decide) 0
  | finite s m e =>
    cases h
    rw [UnpackedFloat.pack]
    dsimp only
    split
    · exact hinfinity
    · rename_i hlt
      change ¬ 2 ^ 11 ≤ _ at hlt
      split
      · exact hsmall _ (by omega) _
      · exact hsmall 0 (by decide) _

theorem unsigned_unpack (h : x.toBits.toNat ≤ 2047 * 2 ^ 52) :
    Unsigned x.toModel.unpack ∧ x.toModel.unpack ≠ .notANumber := by
  have hexponent := toNat_unpackExponent (b := x.toBits.toBitVec)
  have hmantissa := toNat_unpackMantissa (b := x.toBits.toBitVec)
  change _ = x.toBits.toNat / 2 ^ 52 % 2 ^ 11 at hexponent
  change _ = x.toBits.toNat % 2 ^ 52 at hmantissa
  change Unsigned (UnpackedFloat.unpack .binary64 x.toBits.toBitVec) ∧
    UnpackedFloat.unpack .binary64 x.toBits.toBitVec ≠ .notANumber
  rw [UnpackedFloat.unpack]
  dsimp only
  rw [unpackSign_of_lt (by omega)]
  split
  · rename_i hall
    rw [hall] at hexponent
    change 2047 = _ at hexponent
    -- of the numbers with the greatest exponent only the infinity is left
    have hzero : @unpackMantissa .binary64 x.toBits.toBitVec = 0#52 := by
      apply BitVec.eq_of_toNat_eq
      rw [hmantissa]
      change _ = 0
      omega
    rw [if_pos hzero]
    exact ⟨rfl, nofun⟩
  · split
    · split <;> exact ⟨rfl, nofun⟩
    · exact ⟨rfl, nofun⟩

theorem unsigned_roundWithAccuracy {m : ℕ} {e : ℤ} {acc : Accuracy} :
    Unsigned (roundWithAccuracy .binary64 .positive m e acc) ∧
      roundWithAccuracy .binary64 .positive m e acc ≠ .notANumber := by
  rw [roundWithAccuracy]
  dsimp only
  split
  all_goals
    refine ⟨rfl, fun h => ?_⟩
    cases h

theorem unsigned_ofScientific {n : ℕ} {e : ℤ} :
    Unsigned (UnpackedFloat.ofScientific .binary64 n e) ∧
      UnpackedFloat.ofScientific .binary64 n e ≠ .notANumber := by
  rw [UnpackedFloat.ofScientific]
  split
  · exact ⟨rfl, nofun⟩
  split
  · exact ⟨rfl, nofun⟩
  split
  · exact ⟨rfl, nofun⟩
  split <;> exact unsigned_roundWithAccuracy

/-- A decimal is read as a number without a sign. -/
theorem exists_unsigned_toFloat (d : Decimal) :
    ∃ u, d.toFloat = ofUnpacked u ∧ Unsigned u ∧ u ≠ .notANumber := by
  by_cases hsmall : d.digits < 2 ^ 53 ∧ d.exponent.natAbs < 23
  · obtain ⟨m, e, h, hpower, -, -⟩ := isExactly_powerOfTen hsmall.2
    have hdigits : d.digits.toUInt64.toFloat.toModel.unpack = .zero .positive ∨
        ∃ m e h, d.digits.toUInt64.toFloat.toModel.unpack = .finite .positive m e h := by
      obtain hzero | hpos := Nat.eq_zero_or_pos d.digits
      · rw [hzero]
        exact .inl rfl
      · obtain ⟨m, e, h, hunpack, -, -⟩ := isExactly_toFloat hpos hsmall.1
        exact .inr ⟨m, e, h, hunpack⟩
    rw [toFloat_eq_of_small hsmall.1 hsmall.2]
    -- the power is no zero, so that its quotients are numbers as well
    split
    · refine ⟨_, rfl, ?_⟩
      rw [hpower]
      obtain hdigits | ⟨_, _, _, hdigits⟩ := hdigits
      · rw [hdigits]
        exact ⟨rfl, nofun⟩
      · rw [hdigits]
        exact unsigned_roundWithAccuracy
    · refine ⟨_, rfl, ?_⟩
      rw [hpower]
      obtain hdigits | ⟨_, _, _, hdigits⟩ := hdigits
      · rw [hdigits]
        exact ⟨rfl, nofun⟩
      · rw [hdigits]
        exact unsigned_roundWithAccuracy
  · rw [toFloat_eq_of_large hsmall]
    exact ⟨_, rfl, unsigned_ofScientific⟩

theorem toBits_toFloat_le (d : Decimal) : d.toFloat.toBits.toNat ≤ 2047 * 2 ^ 52 := by
  obtain ⟨u, hu, hsign, hnum⟩ := d.exists_unsigned_toFloat
  rw [hu]
  exact toNat_pack_le hsign hnum

/-- No decimal is read as a number with a sign. -/
theorem toBits_toFloat_lt (d : Decimal) : d.toFloat.toBits.toNat < 2 ^ 63 :=
  d.toBits_toFloat_le.trans_lt (by decide)

end Signs

end Decimal

end DesignLoads
