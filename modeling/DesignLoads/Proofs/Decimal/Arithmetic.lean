import DesignLoads.Alternative
import DesignLoads.Proofs.Decimal.Packing

/-! Sums and products that are exact. Zero adds nothing, one and minus one change no digit, two
equal numbers that are not zero are the same number, and terms and factors can change places. -/

namespace DesignLoads

open Float.Model Float.Model.UnpackedFloat

variable {x y : Float}

theorem eq_of_beq_of_ne_zero (h : (x == y) = true) (hx : (x == 0) = false) : x = y := by
  have hzero : ((-0 : Float) == 0) = true := by decide
  obtain ⟨_, _, h | ⟨rfl, _⟩ | ⟨rfl, _⟩⟩ := Float.beq_iff_ne_nan_and_eq.mp h
  · exact h
  · cases hx
  · rw [hzero] at hx
    cases hx

/-- A number that is not zero is not unpacked to a zero. -/
theorem unpack_ne_zero (hx : (x == 0) = false) (s : Sign) : x.toModel.unpack ≠ .zero s := by
  intro hs
  have heq : x = ofUnpacked (.zero s) := by rw [← hs, ofUnpacked_unpack]
  rw [heq] at hx
  cases s
  · exact absurd hx (by decide)
  · exact absurd hx (by decide)

theorem zero_add_float (hx : (x == 0) = false) : 0 + x = x := by
  have hne := unpack_ne_zero hx
  change ofUnpacked (UnpackedFloat.add .binary64 (.zero .positive) x.toModel.unpack) = x
  have hadd : UnpackedFloat.add .binary64 (.zero .positive) x.toModel.unpack =
      x.toModel.unpack := by
    cases hu : x.toModel.unpack with
    | zero s => exact absurd hu (hne s)
    | _ => rfl
  rw [hadd, ofUnpacked_unpack]

/-- The order of two terms makes no difference, to a NaN neither. -/
theorem add_comm_float (x y : Float) : x + y = y + x := by
  have hadd (u w : UnpackedFloat) :
      UnpackedFloat.add .binary64 u w = UnpackedFloat.add .binary64 w u := by
    cases u with
    | notANumber => cases w <;> rfl
    | infinity s =>
      cases w with
      | infinity t => cases s <;> cases t <;> rfl
      | _ => rfl
    | zero s =>
      cases w with
      | zero t => cases s <;> cases t <;> rfl
      | _ => rfl
    | finite s m e hm =>
      cases w with
      | finite t n f hn =>
        -- both mantissas are brought to the smaller exponent and added as integers
        simp only [UnpackedFloat.add]
        rw [Int.min_comm, Int.add_comm]
      | _ => rfl
  exact congrArg ofUnpacked (hadd x.toModel.unpack y.toModel.unpack)

theorem add_zero_float (hx : (x == 0) = false) : x + 0 = x := by
  rw [add_comm_float, zero_add_float hx]

namespace Binary

/-- The mantissa and the exponent of a number, whatever its sign, are those of a normal one. -/
theorem normal_of_unpack {s : Sign} {m : ℕ} {e : ℤ} {hm : 0 < m}
    (hu : x.toModel.unpack = .finite s m e hm) :
    Normal ⟨m, e, if m = 2 ^ 52 ∧ -1074 < e then 1 else 2⟩ := by
  have hmantissa := (@unpackMantissa .binary64 x.toBits.toBitVec).isLt
  have hexponent := (@unpackExponent .binary64 x.toBits.toBitVec).isLt
  change _ < 2 ^ 52 at hmantissa
  change _ < 2 ^ 11 at hexponent
  change UnpackedFloat.unpack .binary64 x.toBits.toBitVec = _ at hu
  rw [UnpackedFloat.unpack] at hu
  dsimp only at hu
  split at hu
  · split at hu <;> cases hu
  rename_i hgreatest
  have hlt : (@unpackExponent .binary64 x.toBits.toBitVec).toNat ≠ 2047 := by
    intro hall
    exact hgreatest (BitVec.eq_of_toNat_eq hall)
  split at hu
  · -- a small number
    rename_i hzero
    split at hu
    · cases hu
    simp only [finite.injEq, hzero] at hu
    obtain ⟨-, hfraction, hexp⟩ := hu
    change ((0 : ℕ) : ℤ) - (1023 + 52) + 1 = e at hexp
    refine ⟨hm, ?_, ?_, ?_, ?_, rfl⟩ <;> dsimp only <;> omega
  · rename_i hzero
    have hpos : (@unpackExponent .binary64 x.toBits.toBitVec).toNat ≠ 0 := by
      intro hnone
      exact hzero (BitVec.eq_of_toNat_eq hnone)
    simp only [finite.injEq] at hu
    obtain ⟨-, hfraction, hexp⟩ := hu
    change _ - (1023 + 52 : ℤ) = e at hexp
    rw [BitVec.toNat_append, ← Nat.shiftLeft_add_eq_or_of_lt hmantissa] at hfraction
    change 2 ^ 52 + _ = m at hfraction
    refine ⟨hm, ?_, ?_, ?_, ?_, rfl⟩ <;> dsimp only <;> omega

end Binary

/-- The sign, the mantissa and the exponent of a finite number that is not zero. -/
theorem exists_normal (hfin : x.isFinite) (hx : (x == 0) = false) :
    ∃ (s : Sign) (b : Binary) (hb : b.Normal),
      x.toModel.unpack = .finite s b.mantissa b.exponent hb.pos := by
  change x.toModel.unpack.isFinite = true at hfin
  cases hu : x.toModel.unpack with
  | zero s => exact absurd hu (unpack_ne_zero hx s)
  | finite s m e hm => exact ⟨s, _, Binary.normal_of_unpack hu, rfl⟩
  | infinity s =>
    rw [hu] at hfin
    cases hfin
  | notANumber =>
    rw [hu] at hfin
    cases hfin

/-- To multiply by one or minus one rounds nothing. -/
theorem Binary.Normal.round_unit {b : Binary} (hb : b.Normal) {m : ℕ} {e : ℤ}
    (hm : m = b.mantissa * 2 ^ 52) (he : e = b.exponent - 52) (s : Sign) :
    roundWithAccuracy .binary64 s m e .exact = .finite s b.mantissa b.exponent hb.pos := by
  have hvalue : ((m : ℕ) : ℚ) * 2 ^ e = b.mantissa * 2 ^ b.exponent := by
    rw [hm, he, zpow_sub₀ two_ne_zero]
    push_cast
    field_simp
  have hprecise : Binary.Precise m e := by
    left
    rw [hm]
    exact Nat.le_mul_of_pos_left _ hb.pos
  apply Binary.Covers.round hb hprecise (represents_exact m)
  rw [hvalue]
  exact hb.covers_self

theorem one_mul_float (hfin : x.isFinite) (hx : (x == 0) = false) : 1 * x = x := by
  obtain ⟨s, b, hb, hu⟩ := exists_normal hfin hx
  have hmul : UnpackedFloat.mul .binary64 (.finite .positive (2 ^ 52) (-52) (by decide))
      (.finite s b.mantissa b.exponent hb.pos) = .finite s b.mantissa b.exponent hb.pos := by
    have hsign : Sign.positive * s = s := by cases s <;> rfl
    change roundWithAccuracy .binary64 (Sign.positive * s) (2 ^ 52 * b.mantissa)
      (-52 + b.exponent) .exact = _
    rw [hsign]
    exact hb.round_unit (Nat.mul_comm _ _) (by omega) s
  change ofUnpacked (UnpackedFloat.mul .binary64 (1 : Float).toModel.unpack x.toModel.unpack) = x
  rw [hu]
  calc ofUnpacked _ = ofUnpacked (.finite s b.mantissa b.exponent hb.pos) :=
        congrArg ofUnpacked hmul
    _ = x := by rw [← hu, ofUnpacked_unpack]

theorem mul_neg_one_float (hfin : x.isFinite) (hx : (x == 0) = false) : x * (-1) = -x := by
  obtain ⟨s, b, hb, hu⟩ := exists_normal hfin hx
  have hmul : UnpackedFloat.mul .binary64 (.finite s b.mantissa b.exponent hb.pos)
      (.finite .negative (2 ^ 52) (-52) (by decide)) =
        .finite (-s) b.mantissa b.exponent hb.pos := by
    have hsign : s * Sign.negative = -s := by cases s <;> rfl
    change roundWithAccuracy .binary64 (s * Sign.negative) (b.mantissa * 2 ^ 52)
      (b.exponent + -52) .exact = _
    rw [hsign]
    exact hb.round_unit rfl rfl (-s)
  change ofUnpacked (UnpackedFloat.mul .binary64 x.toModel.unpack (-1 : Float).toModel.unpack) =
    ofUnpacked x.toModel.unpack.neg
  rw [hu]
  exact congrArg ofUnpacked hmul

/-- Zero times a finite number is zero. -/
theorem zero_mul_float (hfin : x.isFinite) : ((0 * x) == 0) = true := by
  change x.toModel.unpack.isFinite = true at hfin
  have hzero (s : Sign) : (ofUnpacked (.zero s) == 0) = true := by cases s <;> decide
  change (ofUnpacked (UnpackedFloat.mul .binary64 (.zero .positive) x.toModel.unpack) == 0) = true
  cases hu : x.toModel.unpack with
  | zero s => exact hzero _
  | finite s m e hm => exact hzero _
  | infinity s =>
    rw [hu] at hfin
    cases hfin
  | notANumber =>
    rw [hu] at hfin
    cases hfin

/-- The order of two factors makes no difference, to a NaN neither. -/
theorem mul_comm_float (x y : Float) : x * y = y * x := by
  have hsign (s t : Sign) : s * t = t * s := by cases s <;> cases t <;> rfl
  have hmul (u w : UnpackedFloat) :
      UnpackedFloat.mul .binary64 u w = UnpackedFloat.mul .binary64 w u := by
    cases u with
    | notANumber => cases w <;> rfl
    | infinity s =>
      cases w with
      | infinity t => exact congrArg infinity (hsign s t)
      | finite t n f hn => exact congrArg infinity (hsign s t)
      | _ => rfl
    | zero s =>
      cases w with
      | zero t => exact congrArg zero (hsign s t)
      | finite t n f hn => exact congrArg zero (hsign s t)
      | _ => rfl
    | finite s m e hm =>
      cases w with
      | notANumber => rfl
      | infinity t => exact congrArg infinity (hsign s t)
      | zero t => exact congrArg zero (hsign s t)
      | finite t n f hn =>
        change roundWithAccuracy _ (s * t) (m * n) (e + f) .exact =
          roundWithAccuracy _ (t * s) (n * m) (f + e) .exact
        rw [hsign, Nat.mul_comm, Int.add_comm]
  exact congrArg ofUnpacked (hmul x.toModel.unpack y.toModel.unpack)

theorem eq_zero_cases (hx : (x == 0) = true) : x = 0 ∨ x = -0 := by
  obtain ⟨_, _, h | ⟨h, _⟩ | ⟨h, _⟩⟩ := Float.beq_iff_ne_nan_and_eq.mp hx
  · exact .inl h
  · exact .inl h
  · exact .inr h

/-- The sign of a zero is lost in a product, or left in the sign of another zero. -/
theorem mul_unsignedZero_cases (x y : Float) : x * unsignedZero y = x * y ∨
    (x * unsignedZero y == 0) = true ∧ (x * y == 0) = true := by
  unfold unsignedZero
  split
  · rename_i hy
    obtain rfl | rfl := eq_zero_cases hy
    · exact .inl rfl
    · have hzero (s : Sign) : (ofUnpacked (.zero s) == 0) = true := by cases s <;> decide
      change ofUnpacked (UnpackedFloat.mul .binary64 x.toModel.unpack (.zero .positive)) =
          ofUnpacked (UnpackedFloat.mul .binary64 x.toModel.unpack (.zero .negative)) ∨
        (ofUnpacked (UnpackedFloat.mul .binary64 x.toModel.unpack (.zero .positive)) == 0) = true ∧
          (ofUnpacked (UnpackedFloat.mul .binary64 x.toModel.unpack (.zero .negative)) == 0) = true
      -- a finite number gives zeros of two signs, and any other the same NaN
      cases x.toModel.unpack with
      | zero s => exact .inr ⟨hzero _, hzero _⟩
      | finite s m e hm => exact .inr ⟨hzero _, hzero _⟩
      | infinity s => exact .inl rfl
      | notANumber => exact .inl rfl
  · exact .inl rfl

theorem unsignedZero_mul_unsignedZero (x y : Float) :
    unsignedZero (x * unsignedZero y) = unsignedZero (x * y) := by
  obtain h | ⟨hl, hr⟩ := mul_unsignedZero_cases x y
  · rw [h]
  · rw [unsignedZero, if_pos hl, unsignedZero, if_pos hr]

theorem lt_zero_iff :
    x < 0 ↔ UnpackedFloat.lt x.toModel.unpack (.zero .positive) = true := by
  change decide (_ < _) = true ↔ _
  rw [decide_eq_true_iff]
  exact Iff.rfl

/-- A number without its sign, and with it again. -/
theorem abs_cases (hfin : x.isFinite) (hx : (x == 0) = false) :
    x.abs.isFinite ∧ (x.abs == 0) = false ∧ x.abs.toBits.toNat < 2 ^ 63 ∧
      (if x < 0 then -x.abs else x.abs) = x := by
  obtain ⟨s, b, hb, hu⟩ := exists_normal hfin hx
  have habs : x.abs = b.toFloat hb.pos := by
    change ofUnpacked x.toModel.unpack.abs = _
    rw [hu]
    rfl
  have hunpack := Binary.unpack_toFloat hb
  have hlt := Binary.toBits_toFloat_lt hb
  rw [habs]
  refine ⟨?_, ?_, by omega, ?_⟩
  · change (b.toFloat hb.pos).toModel.unpack.isFinite = true
    rw [hunpack]
    rfl
  · change ((b.toFloat hb.pos).toModel.unpack.compare _ == some .eq) = false
    rw [hunpack]
    rfl
  · have hself : ofUnpacked (.finite s b.mantissa b.exponent hb.pos) = x := by
      rw [← hu, ofUnpacked_unpack]
    cases s with
    | positive =>
      have hneg : ¬ x < 0 := by
        rw [lt_zero_iff, hu]
        exact Bool.false_ne_true
      rw [if_neg hneg]
      exact hself
    | negative =>
      have hneg : x < 0 := by
        rw [lt_zero_iff, hu]
        rfl
      rw [if_pos hneg]
      change ofUnpacked (b.toFloat hb.pos).toModel.unpack.neg = x
      rw [hunpack]
      exact hself

end DesignLoads
