import DesignLoads.Proofs.Decimal.Arithmetic

/-! Magnitudes. A number that is no greater than a power of two is rounded to one that is not. So the
exponents of two factors are added for a bound of their product, and a sum has one more than its
terms; as long as these bounds stay below the greatest exponent, nothing overflows. -/

namespace DesignLoads

open Float.Model Float.Model.UnpackedFloat

namespace Binary

section Rounding

variable {m : ℕ} {e : ℤ} {acc : Accuracy} {w : ℚ} {k : ℕ}

/-- Shifted so, a mantissa has as many digits as the format, unless the number is small. -/
theorem Precise.shift_filled (hm : Precise m e) (hw : Represents (.ofMantissaAndAccuracy m acc) w) :
    ∃ em t, shiftToTargetExponent .binary64 m e acc = (em, t) ∧ Represents em (w * 2 ^ e / 2 ^ t) ∧
      -1074 ≤ t ∧ em.mantissa < 2 ^ 53 ∧ (t = -1074 ∨ 2 ^ 52 ≤ em.mantissa) := by
  obtain ⟨em, hshift, hem⟩ := hm.shift hw
  rw [targetExponent_eq] at hshift hem
  set t : ℤ := max (m.log2 + 1 + e - 53) (-1074) with ht
  have hscale : (0 : ℚ) < 2 ^ t := by positivity
  obtain ⟨hlower, hupper⟩ := hem.floor
  refine ⟨em, t, hshift, hem, le_max_right _ _, ?_, ?_⟩
  · have hlt : (em.mantissa : ℚ) * 2 ^ t < 2 ^ (53 + t : ℤ) := by
      calc (em.mantissa : ℚ) * 2 ^ t ≤ w * 2 ^ e := (le_div_iff₀ hscale).mp hlower
        _ < 2 ^ (m.log2 + 1 + e : ℤ) := lt_totalExponent hw
        _ ≤ 2 ^ (53 + t : ℤ) := zpow_le_zpow_right₀ one_le_two (by omega)
    rw [zpow_add₀ two_ne_zero] at hlt
    exact_mod_cast lt_of_mul_lt_mul_right hlt hscale.le
  · by_cases hleast : t = -1074
    · exact .inl hleast
    right
    have hne : m ≠ 0 := by
      rintro rfl
      have he : e ≤ -1074 := hm.resolve_left (by decide)
      have hlog : Nat.log2 0 = 0 := rfl
      omega
    have hle : (2 : ℚ) ^ (52 + t : ℤ) ≤ w * 2 ^ e := by
      calc (2 : ℚ) ^ (52 + t : ℤ) ≤ 2 ^ (m.log2 + e : ℤ) :=
            zpow_le_zpow_right₀ one_le_two (by omega)
        _ ≤ w * 2 ^ e := totalExponent_le hne hw
    rw [zpow_add₀ two_ne_zero, ← le_div_iff₀ hscale] at hle
    have hlt : (2 : ℚ) ^ 52 < em.mantissa + 1 := by exact_mod_cast hle.trans_lt hupper
    have hnat : 2 ^ 52 < em.mantissa + 1 := by exact_mod_cast hlt
    omega

/-- What a filled mantissa stands for tells its exponent. -/
theorem exponent_le_of_filled {n : ℕ} {t : ℤ} (hn : 2 ^ 52 ≤ n) (h : (n : ℚ) * 2 ^ t ≤ 2 ^ k) :
    52 + t ≤ k := by
  have hpow : (2 : ℚ) ^ (52 + t : ℤ) ≤ 2 ^ (k : ℤ) := by
    rw [zpow_add₀ two_ne_zero, zpow_natCast]
    have hcast : (2 : ℚ) ^ (52 : ℤ) ≤ n := by exact_mod_cast hn
    exact (mul_le_mul_of_nonneg_right hcast (by positivity)).trans h
  exact (zpow_le_zpow_iff_right₀ one_lt_two).mp hpow

/-- Rounding does not go past a power of two that is a whole multiple of what the last digit is
worth. -/
theorem nearest_mul_le {v : ℚ} {n : ℕ} {t : ℤ} (hn : Nearest v n) (ht : t ≤ k)
    (h : v ≤ 2 ^ k / 2 ^ t) : (n : ℚ) * 2 ^ t ≤ 2 ^ k := by
  have hscale : (0 : ℚ) < 2 ^ t := by positivity
  obtain ⟨d, hd⟩ := Int.eq_ofNat_of_zero_le (Int.sub_nonneg_of_le ht)
  have hpow : (2 : ℚ) ^ k = (2 ^ d : ℕ) * 2 ^ t := by
    have hsum : (k : ℤ) = d + t := by omega
    rw [← zpow_natCast, hsum, zpow_add₀ two_ne_zero]
    push_cast
    rfl
  rw [hpow, mul_div_cancel_right₀ _ hscale.ne'] at h
  rw [hpow]
  exact mul_le_mul_of_nonneg_right (by exact_mod_cast hn.le_of_le h) hscale.le

/-- A number no greater than a power of two is rounded to zero, or to a normal number no greater
than it. -/
theorem round_le (hk : k ≤ 1023) (hm : Precise m e)
    (hw : Represents (.ofMantissaAndAccuracy m acc) w) (h : w * 2 ^ e ≤ 2 ^ k) (s : Sign) :
    roundWithAccuracy .binary64 s m e acc = .zero s ∨
      ∃ (b : Binary) (hb : b.Normal), (b.mantissa : ℚ) * 2 ^ b.exponent ≤ 2 ^ k ∧
        roundWithAccuracy .binary64 s m e acc = .finite s b.mantissa b.exponent hb.pos := by
  obtain ⟨em, t, hfirst, hem, hleast, -, hfilled⟩ := hm.shift_filled hw
  have hscale : (0 : ℚ) < 2 ^ t := by positivity
  have hnearest := hem.rounded
  have hfilled' : t = -1074 ∨ 2 ^ 52 ≤ em.roundedMantissa :=
    hfilled.imp_right fun hge => hge.trans (hnearest.le_of_ge hem.floor.1)
  have hle : t ≤ k := by
    obtain hsmall | hge := hfilled
    · omega
    · have hfloor := (le_div_iff₀ hscale).mp hem.floor.1
      have hexp := exponent_le_of_filled hge (hfloor.trans h)
      omega
  have hrounded := nearest_mul_le hnearest hle (div_le_div_of_nonneg_right h hscale.le)
  obtain ⟨em', t', hsecond, hem', hleast', hlt', hfilled''⟩ :=
    Precise.shift_filled (hfilled'.symm.imp_right le_of_eq) (represents_exact em.roundedMantissa)
  have hvalue : (em'.mantissa : ℚ) * 2 ^ t' ≤ 2 ^ k :=
    ((le_div_iff₀ (by positivity)).mp hem'.floor.1).trans hrounded
  rw [roundWithAccuracy, hfirst]
  dsimp only
  rw [hsecond]
  dsimp only
  by_cases hzero : em'.mantissa = 0
  · rw [dif_pos hzero]
    exact .inl rfl
  · rw [dif_neg hzero]
    refine .inr ⟨⟨em'.mantissa, t', if em'.mantissa = 2 ^ 52 ∧ -1074 < t' then 1 else 2⟩,
      ⟨Nat.pos_of_ne_zero hzero, hlt', hleast', ?_, hfilled'', rfl⟩, hvalue, rfl⟩
    obtain hsmall | hge := hfilled''
    · exact hsmall.le.trans (by decide)
    · have hexp := exponent_le_of_filled hge hvalue
      change t' ≤ 971
      omega

end Rounding

theorem precise_mul {b c : Binary} (hb : b.Normal) (hc : c.Normal) :
    Precise (b.mantissa * c.mantissa) (b.exponent + c.exponent) := by
  obtain hsmall | hge := hb.filled
  · obtain hsmall' | hge' := hc.filled
    · exact .inr (by omega)
    · exact .inl (hge'.trans (Nat.le_mul_of_pos_left _ hb.pos))
  · exact .inl (hge.trans (Nat.le_mul_of_pos_right _ hc.pos))

/-- To decrease an exponent brings in digits, and changes no value. -/
theorem decreaseExponent_value (m : ℕ) (e t : ℤ) :
    ((decreaseExponent m e t).1 : ℚ) * 2 ^ (decreaseExponent m e t).2 = m * 2 ^ e := by
  have hsum : e = (e - t).toNat + (e - (e - t).toNat) := by omega
  change ((m <<< (e - t).toNat : ℕ) : ℚ) * 2 ^ (e - (e - t).toNat) = _
  conv_rhs => rw [hsum, zpow_add₀ two_ne_zero, zpow_natCast]
  rw [Nat.shiftLeft_eq]
  push_cast
  ring

theorem precise_decreaseExponent {m : ℕ} (hm : m ≠ 0) (e : ℤ) :
    let d := decreaseExponent m e (Format.binary64.targetExponent (totalExponent m e))
    Precise d.1 d.2 := by
  rw [targetExponent_eq]
  change Precise (m <<< _) (e - _)
  set t : ℤ := max (m.log2 + 1 + e - 53) (-1074) with ht
  by_cases hleast : e - (e - t).toNat ≤ -1074
  · exact .inr hleast
  left
  rw [Nat.shiftLeft_eq]
  calc 2 ^ 52 ≤ 2 ^ (m.log2 + (e - t).toNat) := Nat.pow_le_pow_right two_pos (by omega)
    _ = 2 ^ m.log2 * 2 ^ (e - t).toNat := pow_add ..
    _ ≤ m * 2 ^ (e - t).toNat := Nat.mul_le_mul_right _ (Nat.log2_self_le hm)

end Binary

/-- The magnitude of an unpacked number is finite, and no greater than a power of two. -/
def UnpackedWithin (k : ℕ) : UnpackedFloat → Prop
  | .zero _ => True
  | .finite _ m e _ => (m : ℚ) * 2 ^ e ≤ 2 ^ k
  | _ => False

/-- A finite number that is no greater than a power of two, whatever its sign. -/
def Within (k : ℕ) (x : Float) : Prop := UnpackedWithin k x.toModel.unpack

section Within

variable {x y : Float} {k l : ℕ}

theorem Within.isFinite (h : Within k x) : x.isFinite := by
  change x.toModel.unpack.isFinite = true
  unfold Within at h
  cases hx : x.toModel.unpack with
  | zero s => rfl
  | finite s m e hm => rfl
  | infinity s =>
    rw [hx] at h
    exact h.elim
  | notANumber =>
    rw [hx] at h
    exact h.elim

theorem Within.mono (h : Within k x) (hkl : k ≤ l) : Within l x := by
  unfold Within at h ⊢
  cases hx : x.toModel.unpack with
  | zero s => trivial
  | finite s m e hm =>
    rw [hx] at h
    exact h.trans (pow_le_pow_right₀ one_le_two hkl)
  | infinity s => rwa [hx] at h
  | notANumber => rwa [hx] at h

theorem within_zero (s : Sign) : Within k (ofUnpacked (.zero s)) := by
  cases s <;> exact trivial

/-- Rounding does not go past a power of two. -/
theorem within_round {m : ℕ} {e : ℤ} {w : ℚ} {acc : Accuracy} (hk : k ≤ 1023)
    (hm : Binary.Precise m e) (hw : Represents (.ofMantissaAndAccuracy m acc) w)
    (h : w * 2 ^ e ≤ 2 ^ k) (s : Sign) :
    Within k (ofUnpacked (roundWithAccuracy .binary64 s m e acc)) := by
  obtain hzero | ⟨b, hb, hle, hround⟩ := Binary.round_le hk hm hw h s
  · rw [hzero]
    exact within_zero s
  · rw [hround, Within, Binary.unpack_ofUnpacked hb]
    exact hle

/-- What a number within a bound is unpacked to. -/
theorem Within.cases (h : Within k x) : (∃ s, x.toModel.unpack = .zero s) ∨
    ∃ (s : Sign) (b : Binary) (hb : b.Normal), (b.mantissa : ℚ) * 2 ^ b.exponent ≤ 2 ^ k ∧
      x.toModel.unpack = .finite s b.mantissa b.exponent hb.pos := by
  unfold Within at h
  cases hx : x.toModel.unpack with
  | zero s => exact .inl ⟨s, rfl⟩
  | finite s m e hm =>
    rw [hx] at h
    exact .inr ⟨s, _, Binary.normal_of_unpack hx, h, rfl⟩
  | infinity s =>
    rw [hx] at h
    exact h.elim
  | notANumber =>
    rw [hx] at h
    exact h.elim

theorem Within.mul (hx : Within k x) (hy : Within l y) (hkl : k + l ≤ 1023) :
    Within (k + l) (x * y) := by
  change Within (k + l)
    (ofUnpacked (UnpackedFloat.mul .binary64 x.toModel.unpack y.toModel.unpack))
  obtain ⟨s, hx⟩ | ⟨s, b, hb, hle, hx⟩ := hx.cases <;>
    obtain ⟨t, hy⟩ | ⟨t, c, hc, hle', hy⟩ := hy.cases <;> rw [hx, hy]
  · exact within_zero _
  · exact within_zero _
  · exact within_zero _
  · apply within_round hkl (Binary.precise_mul hb hc) (represents_exact _)
    calc ((b.mantissa * c.mantissa : ℕ) : ℚ) * 2 ^ (b.exponent + c.exponent)
        = b.mantissa * 2 ^ b.exponent * (c.mantissa * 2 ^ c.exponent) := by
          rw [zpow_add₀ two_ne_zero]
          push_cast
          ring
      _ ≤ 2 ^ k * 2 ^ l := mul_le_mul hle hle' (by positivity) (by positivity)
      _ = 2 ^ (k + l) := (pow_add ..).symm

theorem within_round_exact {m : ℕ} {e : ℤ} (hk : k ≤ 1023) (hm : m ≠ 0)
    (h : (m : ℚ) * 2 ^ e ≤ 2 ^ k) (s : Sign) :
    Within k (ofUnpacked (UnpackedFloat.round .binary64 s m e)) := by
  apply within_round hk (Binary.precise_decreaseExponent hm e) (represents_exact _)
  rw [Binary.decreaseExponent_value]
  exact h

theorem within_normalize {m : ℤ} {e : ℤ} (hk : k ≤ 1023) (h : |(m : ℚ)| * 2 ^ e ≤ 2 ^ k)
    (s : Sign) : Within k (ofUnpacked (normalize .binary64 m e s)) := by
  unfold UnpackedFloat.normalize
  split
  · rename_i hcmp
    have hneg : m < 0 := Int.compare_eq_lt.mp hcmp
    apply within_round_exact hk (by omega)
    have habs : (((-m).toNat : ℕ) : ℚ) = |(m : ℚ)| := by
      rw [← Int.cast_abs, abs_of_neg hneg]
      exact_mod_cast Int.toNat_of_nonneg (by omega)
    rwa [habs]
  · exact within_zero s
  · rename_i hcmp
    have hpos : 0 < m := Int.compare_eq_gt.mp hcmp
    apply within_round_exact hk (by omega)
    have habs : ((m.toNat : ℕ) : ℚ) = |(m : ℚ)| := by
      rw [← Int.cast_abs, abs_of_pos hpos]
      exact_mod_cast Int.toNat_of_nonneg hpos.le
    rwa [habs]

/-- The magnitude of what is brought to a smaller exponent. -/
theorem abs_apply_decreaseExponent (s : Sign) (m : ℕ) {e t : ℤ} (h : t ≤ e) :
    |(s.apply (decreaseExponent m e t).1 : ℚ)| * 2 ^ t = m * 2 ^ e := by
  have hexp : (decreaseExponent m e t).2 = t := by
    change e - (e - t).toNat = t
    omega
  have hvalue := Binary.decreaseExponent_value m e t
  rw [hexp] at hvalue
  rw [← hvalue]
  cases s with
  | positive => simp [Sign.apply]
  | negative => simp [Sign.apply]

theorem Within.add (hx : Within k x) (hy : Within k y) (hk : k + 1 ≤ 1023) :
    Within (k + 1) (x + y) := by
  have hself {z : Float} (hz : Within k z) : Within (k + 1) (ofUnpacked z.toModel.unpack) := by
    rw [ofUnpacked_unpack]
    exact hz.mono (Nat.le_succ k)
  change Within (k + 1)
    (ofUnpacked (UnpackedFloat.add .binary64 x.toModel.unpack y.toModel.unpack))
  obtain ⟨s, hu⟩ | ⟨s, b, hb, hle, hu⟩ := hx.cases <;>
    obtain ⟨t, hw⟩ | ⟨t, c, hc, hle', hw⟩ := hy.cases
  · rw [hu, hw]
    cases s <;> cases t <;> exact within_zero _
  · have hadd : UnpackedFloat.add .binary64 x.toModel.unpack y.toModel.unpack =
        y.toModel.unpack := by rw [hu, hw]; rfl
    rw [hadd]
    exact hself hy
  · have hadd : UnpackedFloat.add .binary64 x.toModel.unpack y.toModel.unpack =
        x.toModel.unpack := by rw [hu, hw]; rfl
    rw [hadd]
    exact hself hx
  · rw [hu, hw]
    apply within_normalize hk
    have hleft := abs_apply_decreaseExponent s b.mantissa (min_le_left b.exponent c.exponent)
    have hright := abs_apply_decreaseExponent t c.mantissa (min_le_right b.exponent c.exponent)
    set e := min b.exponent c.exponent
    push_cast
    calc |(s.apply (decreaseExponent b.mantissa b.exponent e).1 : ℚ) +
          (t.apply (decreaseExponent c.mantissa c.exponent e).1 : ℚ)| * 2 ^ e
        ≤ (|(s.apply (decreaseExponent b.mantissa b.exponent e).1 : ℚ)| +
          |(t.apply (decreaseExponent c.mantissa c.exponent e).1 : ℚ)|) * 2 ^ e :=
          mul_le_mul_of_nonneg_right (abs_add_le _ _) (by positivity)
      _ = b.mantissa * 2 ^ b.exponent + c.mantissa * 2 ^ c.exponent := by
          rw [add_mul, hleft, hright]
      _ ≤ 2 ^ (k + 1) := by
          rw [pow_succ]
          linarith

theorem Within.unsignedZero (h : Within k x) : Within k (unsignedZero x) := by
  unfold DesignLoads.unsignedZero
  split
  · exact within_zero .positive
  · exact h

end Within

/-- An exponent of two that a finite number does not go beyond. -/
def exponent (x : Float) : ℕ :=
  match x.toModel.unpack with
  | .finite _ m e _ => ((m - 1).log2 + 1 + e).toNat
  | _ => 0

theorem within_exponent {x : Float} (h : x.isFinite) : Within (exponent x) x := by
  change x.toModel.unpack.isFinite = true at h
  unfold Within exponent
  cases hx : x.toModel.unpack with
  | zero s => trivial
  | infinity s =>
    rw [hx] at h
    cases h
  | notANumber =>
    rw [hx] at h
    cases h
  | finite s m e hm =>
    dsimp only
    have hlog : m ≤ 2 ^ ((m - 1).log2 + 1) := by
      have hlt := Nat.lt_log2_self (n := m - 1)
      omega
    have hcast : (m : ℚ) ≤ 2 ^ (((m - 1).log2 + 1 : ℕ) : ℤ) := by exact_mod_cast hlog
    calc (m : ℚ) * 2 ^ e ≤ 2 ^ (((m - 1).log2 + 1 : ℕ) : ℤ) * 2 ^ e :=
          mul_le_mul_of_nonneg_right hcast (by positivity)
      _ = 2 ^ (((m - 1).log2 + 1 : ℕ) + e : ℤ) := (zpow_add₀ two_ne_zero _ _).symm
      _ ≤ 2 ^ (((m - 1).log2 + 1 + e).toNat : ℤ) :=
          zpow_le_zpow_right₀ one_le_two (by omega)

end DesignLoads
