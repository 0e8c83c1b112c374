import Mathlib
import DesignLoads.Proofs.Decimal.Rounding

/-! The bits of a floating-point number. A finite number that is not zero is determined by its sign,
its mantissa and its exponent, which its bits hold and are unpacked to. -/

namespace DesignLoads

open Float.Model Float.Model.UnpackedFloat

theorem toNat_packComponents {s : Sign} {e : BitVec 11} {m : BitVec 52} :
    (packComponents .binary64 s e m).toNat =
      s.toBitVec.toNat * 2 ^ 63 + e.toNat * 2 ^ 52 + m.toNat := by
  rw [packComponents, BitVec.toNat_append, BitVec.toNat_append]
  rw [← Nat.shiftLeft_add_eq_or_of_lt e.isLt, ← Nat.shiftLeft_add_eq_or_of_lt m.isLt,
    Nat.shiftLeft_eq, Nat.shiftLeft_eq]
  omega

theorem toNat_unpackExponent {b : BitVec 64} :
    (@unpackExponent .binary64 b).toNat = b.toNat / 2 ^ 52 % 2 ^ 11 := by
  rw [unpackExponent, BitVec.toNat_cast, BitVec.extractLsb_toNat, Nat.shiftRight_eq_div_pow]
  rfl

theorem toNat_unpackMantissa {b : BitVec 64} :
    (@unpackMantissa .binary64 b).toNat = b.toNat % 2 ^ 52 := by
  rw [unpackMantissa, BitVec.toNat_cast, BitVec.extractLsb_toNat]
  rfl

theorem toNat_unpackSign {b : BitVec 64} :
    (@unpackSign .binary64 b).toNat = b.toNat / 2 ^ 63 := by
  have hb := b.isLt
  rw [unpackSign, BitVec.toNat_cast, BitVec.extractLsb_toNat, Nat.shiftRight_eq_div_pow]
  change b.toNat / 2 ^ 63 % 2 = _
  omega

theorem unpackSign_of_lt {x : Float} (h : x.toBits.toNat < 2 ^ 63) :
    @unpackSign .binary64 x.toBits.toBitVec = 0#1 := by
  apply BitVec.eq_of_toNat_eq
  rw [toNat_unpackSign]
  exact Nat.div_eq_of_lt h

section Components

variable {s : Sign} {e : BitVec 11} {m : BitVec 52}

theorem sign_packComponents :
    Sign.ofBitVec (@unpackSign .binary64 (packComponents .binary64 s e m)) = s := by
  have he := e.isLt
  have hm := m.isLt
  have hbit : @unpackSign .binary64 (packComponents .binary64 s e m) = s.toBitVec := by
    apply BitVec.eq_of_toNat_eq
    rw [toNat_unpackSign, toNat_packComponents]
    omega
  rw [hbit]
  cases s <;> rfl

theorem unpack_packComponents_small (hm : 0 < m.toNat) :
    UnpackedFloat.unpack .binary64 (packComponents .binary64 s 0#11 m) =
      .finite s m.toNat (-1074) hm := by
  have hne : m ≠ 0#52 := by
    rintro rfl
    exact absurd hm (by decide)
  rw [UnpackedFloat.unpack]
  dsimp only
  rw [unpackExponent_packComponents, if_neg (by decide), if_pos rfl]
  have hmantissa : @unpackMantissa .binary64 (packComponents .binary64 s 0#11 m) = m :=
    unpackMantissa_packComponents
  rw [dif_neg (by rw [hmantissa]; exact hne)]
  simp only [finite.injEq]
  exact ⟨sign_packComponents, congrArg BitVec.toNat hmantissa, rfl⟩

theorem unpack_packComponents (hzero : e ≠ 0#11) (hall : e ≠ -1#11) :
    UnpackedFloat.unpack .binary64 (packComponents .binary64 s e m) =
      .finite s (2 ^ 52 + m.toNat) (e.toNat - 1075) (by omega) := by
  have hm := m.isLt
  rw [UnpackedFloat.unpack]
  dsimp only
  rw [unpackExponent_packComponents, if_neg hall, if_neg hzero]
  have hmantissa : @unpackMantissa .binary64 (packComponents .binary64 s e m) = m :=
    unpackMantissa_packComponents
  simp only [finite.injEq]
  refine ⟨sign_packComponents, ?_, rfl⟩
  rw [BitVec.toNat_append, ← Nat.shiftLeft_add_eq_or_of_lt (BitVec.isLt _), hmantissa]
  rfl

end Components

/-- A number packed into its bits. -/
def ofUnpacked (u : UnpackedFloat) : Float := ⟨Float.Model.pack u⟩

theorem ofUnpacked_unpack (x : Float) : ofUnpacked x.toModel.unpack = x := x.ofBits_toBits

namespace Binary

def toFloat (b : Binary) (h : 0 < b.mantissa) : Float :=
  ofUnpacked (.finite .positive b.mantissa b.exponent h)

variable {b : Binary} {x : Float}

theorem toNat_toBits_toFloat (hb : b.Normal) : (b.toFloat hb.pos).toBits.toNat =
    if b.mantissa < 2 ^ 52 then b.mantissa
    else (b.exponent + 1075).toNat * 2 ^ 52 + (b.mantissa - 2 ^ 52) := by
  change (UnpackedFloat.pack .binary64 (.finite .positive b.mantissa b.exponent hb.pos)).toNat = _
  have hleast := hb.least
  have hgreatest := hb.greatest
  have hlt := hb.lt
  have hpos := hb.pos
  have hbiased : (b.exponent + (Format.binary64.exponentBias : ℕ) +
      (Format.binary64.mantissaBitsWithoutImplicit : ℕ)).toNat = (b.exponent + 1075).toNat := by
    change (b.exponent + 1023 + 52).toNat = _
    omega
  rw [UnpackedFloat.pack]
  dsimp only
  rw [hbiased, if_neg (by omega)]
  by_cases hsmall : b.mantissa < 2 ^ 52
  · have hlog : b.mantissa.log2 < 52 := (Nat.log2_lt hpos.ne').mpr hsmall
    rw [if_pos hsmall, if_neg (by change ¬ _ = 53; omega), toNat_packComponents]
    change 0 * 2 ^ 63 + 0 * 2 ^ 52 + b.mantissa % 2 ^ 52 = _
    omega
  · have hlog : b.mantissa.log2 = 52 := by
      have hge : 52 ≤ b.mantissa.log2 := (Nat.le_log2 hpos.ne').mpr (by omega)
      have hle : b.mantissa.log2 < 53 := (Nat.log2_lt hpos.ne').mpr hlt
      omega
    rw [if_neg hsmall, if_pos (by rw [hlog]; rfl), toNat_packComponents]
    change 0 * 2 ^ 63 + (b.exponent + 1075).toNat % 2 ^ 11 * 2 ^ 52 + b.mantissa % 2 ^ 52 = _
    omega

theorem ofFloat_eq : ofFloat x =
    if x.toBits.toNat / 2 ^ 52 % 2 ^ 11 = 0 then ⟨x.toBits.toNat % 2 ^ 52, -1074, 2⟩
    else ⟨x.toBits.toNat % 2 ^ 52 + 2 ^ 52, (x.toBits.toNat / 2 ^ 52 % 2 ^ 11 : ℕ) - 1075,
      if x.toBits.toNat % 2 ^ 52 = 0 ∧ 1 < x.toBits.toNat / 2 ^ 52 % 2 ^ 11 then 1 else 2⟩ := rfl

theorem normal_ofFloat (h : x.toBits.toNat < 2047 * 2 ^ 52) (hm : 0 < (ofFloat x).mantissa) :
    (ofFloat x).Normal := by
  rw [ofFloat_eq] at hm ⊢
  generalize x.toBits.toNat = n at h hm
  split at hm
  · rename_i he
    rw [if_pos he]
    have hlt : n % 2 ^ 52 < 2 ^ 53 := (Nat.mod_lt _ (by decide)).trans (by decide)
    have hle : (-1074 : ℤ) ≤ 971 := by decide
    exact ⟨hm, hlt, le_rfl, hle, .inl rfl, (if_neg (by simp)).symm⟩
  · rename_i he
    rw [if_neg he]
    refine ⟨hm, ?_, ?_, ?_, ?_, ?_⟩ <;> dsimp only
    · omega
    · omega
    · omega
    · omega
    · congr 1
      apply propext
      omega

theorem toBits_toFloat_lt (hb : b.Normal) : (b.toFloat hb.pos).toBits.toNat < 2047 * 2 ^ 52 := by
  have hlt := hb.lt
  have hgreatest := hb.greatest
  rw [toNat_toBits_toFloat hb]
  split <;> omega

/-- What the bits of a number are read as. -/
theorem unpack_of_pos (h : x.toBits.toNat < 2047 * 2 ^ 52) (hm : 0 < (ofFloat x).mantissa) :
    x.toModel.unpack = .finite .positive (ofFloat x).mantissa (ofFloat x).exponent hm := by
  have hexponent := toNat_unpackExponent (b := x.toBits.toBitVec)
  have hmantissa := toNat_unpackMantissa (b := x.toBits.toBitVec)
  have hsign := unpackSign_of_lt (x := x) (by omega)
  change _ = x.toBits.toNat / 2 ^ 52 % 2 ^ 11 at hexponent
  change _ = x.toBits.toNat % 2 ^ 52 at hmantissa
  change UnpackedFloat.unpack .binary64 x.toBits.toBitVec = _
  have hfinite : @unpackExponent .binary64 x.toBits.toBitVec ≠ -1#11 := by
    intro hall
    rw [hall] at hexponent
    change 2047 = _ at hexponent
    omega
  rw [UnpackedFloat.unpack]
  dsimp only
  rw [hsign, if_neg hfinite]
  by_cases he : @unpackExponent .binary64 x.toBits.toBitVec = 0#11
  · -- a small number has all bits of its mantissa written out
    rw [he] at hexponent
    have hzero : x.toBits.toNat / 2 ^ 52 % 2 ^ 11 = 0 := hexponent.symm
    have hof : ofFloat x = ⟨x.toBits.toNat % 2 ^ 52, -1074, 2⟩ := by
      rw [ofFloat_eq, if_pos hzero]
    rw [hof] at hm
    have hne : @unpackMantissa .binary64 x.toBits.toBitVec ≠ 0#52 := by
      intro hzero
      rw [hzero] at hmantissa
      exact hm.ne hmantissa
    rw [if_pos he, dif_neg hne]
    simp only [finite.injEq, hof, he]
    exact ⟨rfl, hmantissa, rfl⟩
  · -- of any other number the leading bit is left out
    have hpos : 0 < (@unpackExponent .binary64 x.toBits.toBitVec).toNat := by
      apply Nat.pos_of_ne_zero
      intro hzero
      exact he (BitVec.eq_of_toNat_eq hzero)
    have hof := ofFloat_eq (x := x)
    rw [← hexponent, if_neg hpos.ne'] at hof
    rw [if_neg he]
    simp only [finite.injEq, hof]
    refine ⟨rfl, ?_, ?_⟩
    · have hlt := (@unpackMantissa .binary64 x.toBits.toBitVec).isLt
      rw [BitVec.toNat_append, ← Nat.shiftLeft_add_eq_or_of_lt hlt, hmantissa, Nat.add_comm]
      rfl
    · change _ - (1023 + 52 : ℤ) = _
      omega

/-- A positive finite number is made of its mantissa and its exponent. -/
theorem toFloat_ofFloat (h : x.toBits.toNat < 2047 * 2 ^ 52) (hm : 0 < (ofFloat x).mantissa) :
    (ofFloat x).toFloat hm = x := by
  rw [toFloat, ← unpack_of_pos h hm, ofUnpacked_unpack]

/-- A normal number of either sign is unpacked to what it was packed from. -/
theorem unpack_ofUnpacked (hb : b.Normal) (s : Sign) :
    (ofUnpacked (.finite s b.mantissa b.exponent hb.pos)).toModel.unpack =
      .finite s b.mantissa b.exponent hb.pos := by
  obtain ⟨m, e, below⟩ := b
  obtain ⟨hpos, hlt, hleast, hgreatest, hfilled, -⟩ := hb
  dsimp only at hpos hlt hleast hgreatest hfilled ⊢
  have hbiased : (e + (Format.binary64.exponentBias : ℕ) +
      (Format.binary64.mantissaBitsWithoutImplicit : ℕ)).toNat = (e + 1075).toNat := by
    change (e + 1023 + 52).toNat = _
    omega
  change UnpackedFloat.unpack .binary64 (UnpackedFloat.pack .binary64 (.finite s m e hpos)) = _
  rw [UnpackedFloat.pack]
  dsimp only
  rw [hbiased, if_neg (by omega)]
  by_cases hsmall : m < 2 ^ 52
  · have hlog : m.log2 < 52 := (Nat.log2_lt hpos.ne').mpr hsmall
    have hm : (BitVec.ofNat 52 m).toNat = m := by
      rw [BitVec.toNat_ofNat]
      exact Nat.mod_eq_of_lt hsmall
    rw [if_neg (by change ¬ _ = 53; omega)]
    refine (unpack_packComponents_small (by omega)).trans ?_
    simp only [finite.injEq, hm]
    exact ⟨trivial, trivial, by omega⟩
  · have hlog : m.log2 = 52 := by
      have hge : 52 ≤ m.log2 := (Nat.le_log2 hpos.ne').mpr (by omega)
      have hle : m.log2 < 53 := (Nat.log2_lt hpos.ne').mpr hlt
      omega
    have hm : (BitVec.ofNat 52 m).toNat = m - 2 ^ 52 := by
      rw [BitVec.toNat_ofNat]
      omega
    have he : (BitVec.ofNat 11 (e + 1075).toNat).toNat = (e + 1075).toNat := by
      rw [BitVec.toNat_ofNat]
      omega
    have hne (c : BitVec 11) (hc : c.toNat ≠ (e + 1075).toNat) :
        BitVec.ofNat 11 (e + 1075).toNat ≠ c := by
      rintro rfl
      exact hc he
    rw [if_pos (by rw [hlog]; rfl)]
    refine (unpack_packComponents (hne _ ?_) (hne _ ?_)).trans ?_
    · change 0 ≠ _
      omega
    · change 2047 ≠ _
      omega
    · simp only [finite.injEq, hm, he]
      exact ⟨trivial, by omega, by omega⟩

theorem unpack_toFloat (hb : b.Normal) :
    (b.toFloat hb.pos).toModel.unpack = .finite .positive b.mantissa b.exponent hb.pos :=
  unpack_ofUnpacked hb .positive

/-- A finite number without a sign has an exponent below the greatest. -/
theorem toBits_lt_of_isFinite (hfin : x.isFinite) (hpos : x.toBits.toNat < 2 ^ 63) :
    x.toBits.toNat < 2047 * 2 ^ 52 := by
  by_contra hge
  have hexponent : @unpackExponent .binary64 x.toBits.toBitVec = -1#11 := by
    apply BitVec.eq_of_toNat_eq
    rw [toNat_unpackExponent]
    change x.toBits.toNat / 2 ^ 52 % 2 ^ 11 = 2047
    omega
  change (UnpackedFloat.unpack .binary64 x.toBits.toBitVec).isFinite = true at hfin
  rw [UnpackedFloat.unpack] at hfin
  dsimp only at hfin
  rw [if_pos hexponent] at hfin
  split at hfin <;> cases hfin

end Binary

end DesignLoads
