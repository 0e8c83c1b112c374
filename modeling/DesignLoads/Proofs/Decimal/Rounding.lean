import DesignLoads.Decimal.Shortest
import Mathlib.Algebra.Order.Field.Power
import Mathlib.Data.Rat.Cast.Order
import Mathlib.Tactic.Linarith
import Mathlib.Tactic.FieldSimp
import Mathlib.Tactic.Positivity
import Mathlib.Tactic.Ring

/-! Rounding to the nearest floating-point number. A mantissa and the two bits that are kept of what
lies behind it stand for an interval of rational numbers; shifting bits out halves the interval, and
rounding gives the nearest whole number, of two the even one. So a number is rounded to the
floating-point number in whose interval it lies. -/

namespace DesignLoads

open Float.Model Float.Model.UnpackedFloat

/-- A whole number nearest to `v`; where two are, the even one. -/
structure Nearest (v : ℚ) (n : ℕ) : Prop where
  lower : (n : ℚ) - 1 / 2 ≤ v
  upper : v ≤ n + 1 / 2
  strict : n % 2 = 1 → (n : ℚ) - 1 / 2 < v ∧ v < n + 1 / 2

theorem Nearest.unique {v : ℚ} {m n : ℕ} (h : Nearest v m) (h' : Nearest v n) : m = n := by
  -- two different nearest numbers are neighbours, of which one is odd
  have hle {a b : ℕ} (ha : Nearest v a) (hb : Nearest v b) : a ≤ b := by
    by_contra hlt
    have hnext : a ≤ b + 1 := by
      have hq : (a : ℚ) ≤ b + 1 := by linarith [ha.lower, hb.upper]
      exact_mod_cast hq
    obtain rfl : a = b + 1 := by omega
    have hlower := ha.lower
    have hupper := hb.upper
    push_cast at hlower
    obtain hodd | hodd : b % 2 = 1 ∨ (b + 1) % 2 = 1 := by omega
    · linarith [(hb.strict hodd).2]
    · have hstrict := (ha.strict hodd).1
      push_cast at hstrict
      linarith
  exact Nat.le_antisymm (hle h h') (hle h' h)

section Bounds

variable {v : ℚ} {n bound : ℕ}

/-- Rounding does not go past a whole number. -/
theorem Nearest.le_of_le (h : Nearest v n) (hv : v ≤ bound) : n ≤ bound := by
  have hlt : (n : ℚ) < bound + 1 := by linarith [h.lower]
  have hnat : n < bound + 1 := by exact_mod_cast hlt
  omega

theorem Nearest.le_of_ge (h : Nearest v n) (hv : bound ≤ v) : bound ≤ n := by
  have hlt : (bound : ℚ) < n + 1 := by linarith [h.upper]
  have hnat : bound < n + 1 := by exact_mod_cast hlt
  omega

end Bounds

/-- The numbers that a mantissa and its two residual bits stand for. -/
def Represents (m : ExtendedMantissa) (v : ℚ) : Prop :=
  match m.roundBit, m.stickyBit with
  | false, false => v = m.mantissa
  | false, true => (m.mantissa : ℚ) < v ∧ v < m.mantissa + 1 / 2
  | true, false => v = m.mantissa + 1 / 2
  | true, true => (m.mantissa : ℚ) + 1 / 2 < v ∧ v < m.mantissa + 1

namespace Represents

variable {m : ExtendedMantissa} {v : ℚ}

theorem floor (h : Represents m v) : (m.mantissa : ℚ) ≤ v ∧ v < m.mantissa + 1 := by
  obtain ⟨n, round, sticky⟩ := m
  cases round <;> cases sticky <;> simp only [Represents] at h <;> constructor <;> linarith

theorem rounded (h : Represents m v) : Nearest v m.roundedMantissa := by
  obtain ⟨n, round, sticky⟩ := m
  cases round <;> cases sticky
  · have h : v = n := h
    change Nearest v n
    exact ⟨by linarith, by linarith, fun _ => ⟨by linarith, by linarith⟩⟩
  · have h : (n : ℚ) < v ∧ v < n + 1 / 2 := h
    change Nearest v n
    exact ⟨by linarith, by linarith, fun _ => ⟨by linarith, by linarith⟩⟩
  · have h : v = n + 1 / 2 := h
    change Nearest v (n + n % 2)
    obtain heven | hodd := Nat.mod_two_eq_zero_or_one n
    · rw [heven]
      refine ⟨?_, ?_, fun hn => by omega⟩ <;> push_cast <;> linarith
    · rw [hodd]
      refine ⟨?_, ?_, fun hn => by omega⟩ <;> push_cast <;> linarith
  · have h : (n : ℚ) + 1 / 2 < v ∧ v < n + 1 := h
    change Nearest v (n + 1)
    refine ⟨?_, ?_, fun _ => ⟨?_, ?_⟩⟩ <;> push_cast <;> linarith

/-- The last bit of the mantissa becomes the round bit, and joins the sticky one after that. -/
theorem shiftRightOne (h : Represents m v) : Represents m.shiftRightOne (v / 2) := by
  obtain ⟨n, round, sticky⟩ := m
  have hn : (n : ℚ) = 2 * (n / 2 : ℕ) + (n % 2 : ℕ) := by
    exact_mod_cast (Nat.div_add_mod n 2).symm
  have hshift : (ExtendedMantissa.mk n round sticky).shiftRightOne =
      ⟨n / 2, n % 2 != 0, round || sticky⟩ := rfl
  rw [hshift]
  obtain hbit | hbit := Nat.mod_two_eq_zero_or_one n <;> rw [hbit] at hn ⊢ <;> push_cast at hn
  · have hround : (0 != 0) = false := rfl
    rw [hround]
    cases round <;> cases sticky <;> dsimp only [Represents, Bool.or] at h ⊢
    case false.false => linarith
    all_goals constructor <;> linarith
  · have hround : (1 != 0) = true := rfl
    rw [hround]
    cases round <;> cases sticky <;> dsimp only [Represents, Bool.or] at h ⊢
    case false.false => linarith
    all_goals constructor <;> linarith

theorem shiftRight (h : Represents m v) (n : ℕ) : Represents (m >>> n) (v / 2 ^ n) := by
  change Represents (n.repeat ExtendedMantissa.shiftRightOne m) _
  induction n with
  | zero => simpa [Nat.repeat] using h
  | succ n ih =>
    rw [Nat.repeat, pow_succ, div_mul_eq_div_div]
    exact ih.shiftRightOne

end Represents

theorem represents_exact (n : ℕ) : Represents (.ofMantissaAndAccuracy n .exact) n := rfl

/-- A quotient and what its remainder tells stand for the fraction. -/
theorem represents_fraction (num : ℕ) {den : ℕ} (hden : 0 < den) :
    Represents (.ofMantissaAndAccuracy (num / den) (accuracyOfFraction (num % den) den))
      (num / den : ℚ) := by
  have hd : (0 : ℚ) < den := by exact_mod_cast hden
  have hnum : (num : ℚ) = den * (num / den : ℕ) + (num % den : ℕ) := by
    exact_mod_cast (Nat.div_add_mod num den).symm
  have hlt : ((num % den : ℕ) : ℚ) < den := by exact_mod_cast Nat.mod_lt num hden
  have hvalue : ((num : ℚ) / den) = (num / den : ℕ) + ((num % den : ℕ) : ℚ) / den := by
    rw [hnum]
    field_simp
  rw [hvalue, accuracyOfFraction]
  by_cases hzero : num % den = 0
  · rw [if_pos hzero, hzero]
    simp [Represents, ExtendedMantissa.ofMantissaAndAccuracy]
  · rw [if_neg hzero]
    have hpos : (0 : ℚ) < (num % den : ℕ) := by exact_mod_cast Nat.pos_of_ne_zero hzero
    have hfrac : (0 : ℚ) < ((num % den : ℕ) : ℚ) / den := div_pos hpos hd
    have hone : ((num % den : ℕ) : ℚ) / den < 1 := (div_lt_one hd).mpr hlt
    cases hcmp : compare (2 * (num % den)) den with
    | lt =>
      have hr : (2 : ℚ) * (num % den : ℕ) < den := by exact_mod_cast Nat.compare_eq_lt.mp hcmp
      have hhalf : ((num % den : ℕ) : ℚ) / den < 1 / 2 := by
        rw [div_lt_iff₀ hd]
        linarith
      change ((num / den : ℕ) : ℚ) < _ ∧ _ < ((num / den : ℕ) : ℚ) + 1 / 2
      constructor <;> linarith
    | eq =>
      have hr : (2 : ℚ) * (num % den : ℕ) = den := by exact_mod_cast Nat.compare_eq_eq.mp hcmp
      have hhalf : ((num % den : ℕ) : ℚ) / den = 1 / 2 := by
        rw [div_eq_iff hd.ne']
        linarith
      rw [hhalf]
      rfl
    | gt =>
      have hr : (den : ℚ) < 2 * (num % den : ℕ) := by exact_mod_cast Nat.compare_eq_gt.mp hcmp
      have hhalf : (1 : ℚ) / 2 < ((num % den : ℕ) : ℚ) / den := by
        rw [lt_div_iff₀ hd]
        linarith
      change ((num / den : ℕ) : ℚ) + 1 / 2 < _ ∧ _ < ((num / den : ℕ) : ℚ) + 1
      constructor <;> linarith

namespace Binary

/-- The floating-point numbers of 53 bits that are positive and finite, each written in one way. -/
structure Normal (b : Binary) : Prop where
  pos : 0 < b.mantissa
  lt : b.mantissa < 2 ^ 53
  least : -1074 ≤ b.exponent
  greatest : b.exponent ≤ 971
  filled : b.exponent = -1074 ∨ 2 ^ 52 ≤ b.mantissa
  below_eq : b.below = if b.mantissa = 2 ^ 52 ∧ -1074 < b.exponent then 1 else 2

/-- The numbers that round to a floating-point number. -/
structure Covers (b : Binary) (v : ℚ) : Prop where
  lower : (b.mantissa : ℚ) - b.below / 4 ≤ v / 2 ^ b.exponent
  upper : v / 2 ^ b.exponent ≤ b.mantissa + 1 / 2
  strict : b.mantissa % 2 = 1 →
    (b.mantissa : ℚ) - b.below / 4 < v / 2 ^ b.exponent ∧ v / 2 ^ b.exponent < b.mantissa + 1 / 2

variable {b : Binary} {v : ℚ}

theorem Normal.one_le_below (h : b.Normal) : 1 ≤ b.below := by
  rw [h.below_eq]
  split <;> decide

theorem Normal.below_le_two (h : b.Normal) : b.below ≤ 2 := by
  rw [h.below_eq]
  split <;> decide

theorem Covers.nearest (hb : b.Normal) (h : b.Covers v) :
    Nearest (v / 2 ^ b.exponent) b.mantissa := by
  have hbelow : (b.below : ℚ) ≤ 2 := by exact_mod_cast hb.below_le_two
  refine ⟨by linarith [h.lower], h.upper, fun hodd => ?_⟩
  obtain ⟨hlower, hupper⟩ := h.strict hodd
  constructor <;> linarith

theorem Covers.lt_pow (hb : b.Normal) (h : b.Covers v) : v < 2 ^ (b.exponent + 53) := by
  have hscale : (0 : ℚ) < 2 ^ b.exponent := by positivity
  have hmantissa : (b.mantissa : ℚ) + 1 ≤ 2 ^ 53 := by exact_mod_cast hb.lt
  have hquot : v / 2 ^ b.exponent < 2 ^ 53 := by linarith [h.upper]
  rw [div_lt_iff₀ hscale] at hquot
  rw [zpow_add₀ two_ne_zero, mul_comm]
  exact_mod_cast hquot

/-- Only a power of two covers numbers that need one exponent less. -/
theorem Covers.pow_le (hb : b.Normal) (h : b.Covers v) (hleast : -1074 < b.exponent) :
    2 ^ (b.exponent + 52) ≤ v ∨ b.mantissa = 2 ^ 52 ∧ 2 ^ (b.exponent + 51) ≤ v := by
  have hscale : (0 : ℚ) < 2 ^ b.exponent := by positivity
  have hfilled : 2 ^ 52 ≤ b.mantissa := hb.filled.resolve_left hleast.ne'
  have hpow (n : ℕ) (hn : (2 : ℚ) ^ n ≤ v / 2 ^ b.exponent) : 2 ^ (b.exponent + n) ≤ v := by
    rw [le_div_iff₀ hscale] at hn
    rw [zpow_add₀ two_ne_zero, mul_comm]
    exact_mod_cast hn
  have hbelow : (b.below : ℚ) ≤ 2 := by exact_mod_cast hb.below_le_two
  obtain heq | hgt := hfilled.eq_or_lt
  · right
    have hmantissa : (b.mantissa : ℚ) = 2 ^ 52 := by exact_mod_cast heq.symm
    exact ⟨heq.symm, hpow 51 (by linarith [h.lower])⟩
  · left
    have hmantissa : (2 : ℚ) ^ 52 + 1 ≤ b.mantissa := by exact_mod_cast hgt
    exact hpow 52 (by linarith [h.lower])

/-- Enough digits are known: of a normal number all, of a small one those that the format has. -/
def Precise (m : ℕ) (e : ℤ) : Prop := 2 ^ 52 ≤ m ∨ e ≤ -1074

section Target

variable {m : ℕ} {e : ℤ} {acc : Accuracy} {w : ℚ}

theorem mantissa_ofMantissaAndAccuracy :
    (ExtendedMantissa.ofMantissaAndAccuracy m acc).mantissa = m := by
  obtain _ | (_ | _ | _) := acc <;> rfl

theorem targetExponent_eq : Format.binary64.targetExponent (totalExponent m e) =
    max (m.log2 + 1 + e - 53) (-1074) := rfl

theorem Precise.le_target (h : Precise m e) :
    e ≤ Format.binary64.targetExponent (totalExponent m e) := by
  rw [targetExponent_eq]
  obtain h | h := h
  · have hlog : 52 ≤ m.log2 := (Nat.le_log2 (by omega)).mpr h
    omega
  · omega

/-- A number lies below the power of two that its mantissa and exponent tell. -/
theorem lt_totalExponent (hw : Represents (.ofMantissaAndAccuracy m acc) w) :
    w * 2 ^ e < 2 ^ (m.log2 + 1 + e : ℤ) := by
  have hfloor := hw.floor
  rw [mantissa_ofMantissaAndAccuracy] at hfloor
  have hlog : (m : ℚ) + 1 ≤ 2 ^ (m.log2 + 1) := by exact_mod_cast Nat.lt_log2_self
  have hcast : (m.log2 + 1 + e : ℤ) = (m.log2 + 1 : ℕ) + e := by push_cast; rfl
  rw [hcast, zpow_add₀ two_ne_zero, zpow_natCast]
  exact mul_lt_mul_of_pos_right (by linarith) (by positivity)

theorem totalExponent_le (hm : m ≠ 0) (hw : Represents (.ofMantissaAndAccuracy m acc) w) :
    2 ^ (m.log2 + e : ℤ) ≤ w * 2 ^ e := by
  have hfloor := hw.floor
  rw [mantissa_ofMantissaAndAccuracy] at hfloor
  have hlog : (2 : ℚ) ^ m.log2 ≤ m := by exact_mod_cast Nat.log2_self_le hm
  rw [zpow_add₀ two_ne_zero, zpow_natCast]
  exact mul_le_mul_of_nonneg_right (by linarith) (by positivity)

theorem Covers.target_le (hb : b.Normal) (hm : Precise m e)
    (hw : Represents (.ofMantissaAndAccuracy m acc) w) (h : b.Covers (w * 2 ^ e)) :
    (m.log2 : ℤ) + 1 + e - 53 ≤ b.exponent := by
  have hleast := hb.least
  by_cases hzero : m = 0
  · subst hzero
    have he : e ≤ -1074 := hm.resolve_left (by decide)
    have hlog : Nat.log2 0 = 0 := rfl
    rw [hlog]
    omega
  · have hlt := (totalExponent_le hzero hw).trans_lt (h.lt_pow hb)
    have hexp := (zpow_lt_zpow_iff_right₀ one_lt_two).mp hlt
    omega

/-- The exponent that a covered number is first shifted to: that of the covering number, or the one
below it, where only a power of two covers numbers. -/
theorem Covers.target (hb : b.Normal) (hm : Precise m e)
    (hw : Represents (.ofMantissaAndAccuracy m acc) w) (h : b.Covers (w * 2 ^ e)) :
    Format.binary64.targetExponent (totalExponent m e) = b.exponent ∨
      Format.binary64.targetExponent (totalExponent m e) = b.exponent - 1 ∧
        b.mantissa = 2 ^ 52 ∧ -1074 < b.exponent ∧ w * 2 ^ e < 2 ^ (b.exponent + 52) := by
  have hupper := h.target_le hb hm hw
  have hleast := hb.least
  -- a power of two not above the number is not above the one that its mantissa tells either
  have hexp {k : ℤ} (hk : 2 ^ k ≤ w * 2 ^ e) : k < m.log2 + 1 + e :=
    (zpow_lt_zpow_iff_right₀ one_lt_two).mp (hk.trans_lt (lt_totalExponent hw))
  rw [targetExponent_eq]
  by_cases hsmall : b.exponent = -1074
  · omega
  · obtain hge | ⟨hpower, hge⟩ := h.pow_le hb (by omega)
    · have hlower := hexp hge
      omega
    · have hlower := hexp hge
      obtain hlow | hhigh := lt_or_ge (w * 2 ^ e) (2 ^ (b.exponent + 52))
      · obtain hbelow | hsame := lt_or_ge ((m.log2 : ℤ) + 1 + e - 53) b.exponent
        · exact .inr ⟨by omega, hpower, by omega, hlow⟩
        · omega
      · have hlower' := hexp hhigh
        omega

theorem shift_normal (hb : b.Normal) :
    shiftToTargetExponent .binary64 b.mantissa b.exponent .exact =
      (⟨b.mantissa, false, false⟩, b.exponent) := by
  have hlog : b.mantissa.log2 ≤ 52 := Nat.lt_succ_iff.mp ((Nat.log2_lt hb.pos.ne').mpr hb.lt)
  have hleast := hb.least
  have htarget : Format.binary64.targetExponent (totalExponent b.mantissa b.exponent) =
      b.exponent := by
    rw [targetExponent_eq]
    obtain h | h := hb.filled
    · omega
    · have hge : 52 ≤ b.mantissa.log2 := (Nat.le_log2 hb.pos.ne').mpr h
      omega
  have hzero : (b.exponent - b.exponent).toNat = 0 := by omega
  have hsum : b.exponent + ((0 : ℕ) : ℤ) = b.exponent := by omega
  rw [shiftToTargetExponent, htarget, shiftToExponent, hzero, hsum]
  rfl

/-- Below a power of two, the numbers that it covers are rounded up to it. -/
theorem Covers.nearest_carry (hb : b.Normal) (h : b.Covers v) (hpower : b.mantissa = 2 ^ 52)
    (hleast : -1074 < b.exponent) (hlow : v < 2 ^ (b.exponent + 52)) :
    Nearest (v / 2 ^ (b.exponent - 1)) (2 ^ 53) := by
  have hscale : (0 : ℚ) < 2 ^ b.exponent := by positivity
  have hlower := h.lower
  rw [hb.below_eq, if_pos ⟨hpower, hleast⟩, hpower] at hlower
  push_cast at hlower
  have hquot : v / 2 ^ b.exponent < 2 ^ 52 := by
    rw [div_lt_iff₀ hscale, mul_comm]
    rw [zpow_add₀ two_ne_zero] at hlow
    exact_mod_cast hlow
  have hdouble : v / 2 ^ (b.exponent - 1) = 2 * (v / 2 ^ b.exponent) := by
    rw [zpow_sub_one₀ two_ne_zero]
    field_simp
  rw [hdouble]
  refine ⟨?_, ?_, fun hodd => absurd hodd (by decide)⟩ <;> push_cast <;> linarith

theorem shift_carry (hpower : b.mantissa = 2 ^ 52) (hleast : -1074 < b.exponent) :
    shiftToTargetExponent .binary64 (2 ^ 53) (b.exponent - 1) .exact =
      (⟨b.mantissa, false, false⟩, b.exponent) := by
  have htarget : Format.binary64.targetExponent (totalExponent (2 ^ 53) (b.exponent - 1)) =
      b.exponent := by
    have hlog : Nat.log2 (2 ^ 53) = 53 := Nat.log2_two_pow
    rw [targetExponent_eq, hlog]
    omega
  have hone : (b.exponent - (b.exponent - 1)).toNat = 1 := by omega
  have hsum : b.exponent - 1 + ((1 : ℕ) : ℤ) = b.exponent := by omega
  rw [shiftToTargetExponent, htarget, shiftToExponent, hone, hsum, hpower]
  rfl

theorem round_of_shifts {em : ExtendedMantissa} {t : ℤ} (hb : b.Normal)
    (hfirst : shiftToTargetExponent .binary64 m e acc = (em, t))
    (hsecond : shiftToTargetExponent .binary64 em.roundedMantissa t .exact =
      (⟨b.mantissa, false, false⟩, b.exponent)) (s : Sign) :
    roundWithAccuracy .binary64 s m e acc = .finite s b.mantissa b.exponent hb.pos := by
  rw [roundWithAccuracy, hfirst]
  dsimp only
  rw [hsecond]
  dsimp only
  rw [dif_neg hb.pos.ne']

/-- What is shifted to the exponent it is rounded at stands for the same numbers. -/
theorem Precise.shift (hm : Precise m e) (hw : Represents (.ofMantissaAndAccuracy m acc) w) :
    ∃ em, shiftToTargetExponent .binary64 m e acc =
        (em, Format.binary64.targetExponent (totalExponent m e)) ∧
      Represents em (w * 2 ^ e / 2 ^ Format.binary64.targetExponent (totalExponent m e)) := by
  set t := Format.binary64.targetExponent (totalExponent m e) with ht
  have hle : e ≤ t := hm.le_target
  refine ⟨ExtendedMantissa.ofMantissaAndAccuracy m acc >>> (t - e).toNat, ?_, ?_⟩
  · have hsum : e + ((t - e).toNat : ℤ) = t := by omega
    rw [shiftToTargetExponent, shiftToExponent, ← ht, hsum]
  · have hvalue : w * 2 ^ e / 2 ^ t = w / 2 ^ (t - e).toNat := by
      have hsum : t = e + ((t - e).toNat : ℤ) := by omega
      conv_lhs => rw [hsum, zpow_add₀ two_ne_zero, zpow_natCast]
      field_simp
    rw [hvalue]
    exact hw.shiftRight _

/-- Every number that a floating-point number covers is rounded to it. -/
theorem Covers.round (hb : b.Normal) (hm : Precise m e)
    (hw : Represents (.ofMantissaAndAccuracy m acc) w) (h : b.Covers (w * 2 ^ e)) (s : Sign) :
    roundWithAccuracy .binary64 s m e acc = .finite s b.mantissa b.exponent hb.pos := by
  obtain ⟨em, hfirst, hem⟩ := hm.shift hw
  have hnearest := hem.rounded
  apply round_of_shifts hb hfirst
  obtain heq | ⟨heq, hpower, hleast, hlow⟩ := h.target hb hm hw
  · rw [heq] at hnearest ⊢
    rw [hnearest.unique (h.nearest hb), shift_normal hb]
  · -- the mantissa is rounded up to `2 ^ 53` and shifted once more
    rw [heq] at hnearest ⊢
    rw [hnearest.unique (h.nearest_carry hb hpower hleast hlow), shift_carry hpower hleast]

end Target

/-- A floating-point number covers itself. -/
theorem Normal.covers_self (hb : b.Normal) : b.Covers (b.mantissa * 2 ^ b.exponent) := by
  have hvalue : (b.mantissa : ℚ) * 2 ^ b.exponent / 2 ^ b.exponent = b.mantissa := by
    have hscale : (2 : ℚ) ^ b.exponent ≠ 0 := by positivity
    field_simp
  have hbelow : (1 : ℚ) ≤ b.below := by exact_mod_cast hb.one_le_below
  refine ⟨?_, ?_, fun _ => ⟨?_, ?_⟩⟩ <;> rw [hvalue] <;> linarith

theorem Covers.pow_least_le (hb : b.Normal) (h : b.Covers v) : 2 ^ (-1075 : ℤ) ≤ v := by
  have hscale : (0 : ℚ) < 2 ^ b.exponent := by positivity
  have hbelow : (b.below : ℚ) ≤ 2 := by exact_mod_cast hb.below_le_two
  have hpos : (1 : ℚ) ≤ b.mantissa := by exact_mod_cast hb.pos
  have hquot : 1 / 2 ≤ v / 2 ^ b.exponent := by linarith [h.lower]
  rw [le_div_iff₀ hscale] at hquot
  have hleast : (2 : ℚ) ^ (-1074 : ℤ) ≤ 2 ^ b.exponent :=
    zpow_le_zpow_right₀ one_le_two hb.least
  calc (2 : ℚ) ^ (-1075 : ℤ) = 1 / 2 * 2 ^ (-1074 : ℤ) := by
        rw [show (-1075 : ℤ) = -1 + -1074 by rfl, zpow_add₀ two_ne_zero]
        norm_num
    _ ≤ 1 / 2 * 2 ^ b.exponent := by linarith
    _ ≤ v := hquot

theorem Covers.lt_greatest (hb : b.Normal) (h : b.Covers v) : v < 2 ^ (1024 : ℤ) := by
  have hgreatest := hb.greatest
  exact (h.lt_pow hb).trans_le (zpow_le_zpow_right₀ one_le_two (by omega))

section Operations

variable {m₁ m₂ : ℕ} {e₁ e₂ : ℤ}

/-- A product is rounded to the number that covers it. -/
theorem Covers.mul (hb : b.Normal) (h₁ : 0 < m₁) (h₂ : 0 < m₂) (hm : 2 ^ 52 ≤ m₁ * m₂)
    (h : b.Covers (m₁ * 2 ^ e₁ * (m₂ * 2 ^ e₂))) :
    UnpackedFloat.mul .binary64 (.finite .positive m₁ e₁ h₁) (.finite .positive m₂ e₂ h₂) =
      .finite .positive b.mantissa b.exponent hb.pos := by
  have hvalue : ((m₁ * m₂ : ℕ) : ℚ) * 2 ^ (e₁ + e₂) = m₁ * 2 ^ e₁ * (m₂ * 2 ^ e₂) := by
    rw [zpow_add₀ two_ne_zero]
    push_cast
    ring
  rw [← hvalue] at h
  exact h.round hb (.inl hm) (represents_exact _) .positive

/-- A quotient has enough digits for rounding. -/
theorem precise_divCore (e₁ e₂ : ℤ) (h₁ : 0 < m₁) (h₂ : 0 < m₂) :
    Precise (divCore .binary64 m₁ e₁ m₂ e₂).1 (divCore .binary64 m₁ e₁ m₂ e₂).2.1 := by
  set t := Format.binary64.targetExponent (totalExponent m₁ e₁ - totalExponent m₂ e₂) with ht
  change Precise (m₁ <<< (e₁ - e₂ - min (e₁ - e₂) t).toNat / m₂) (min (e₁ - e₂) t)
  have htarget : t = max (m₁.log2 + 1 + e₁ - (m₂.log2 + 1 + e₂) - 53) (-1074) := rfl
  obtain hle | hlt := le_or_gt (min (e₁ - e₂) t) (-1074)
  · exact .inr hle
  · left
    rw [Nat.le_div_iff_mul_le h₂, Nat.shiftLeft_eq]
    calc 2 ^ 52 * m₂ ≤ 2 ^ 52 * 2 ^ (m₂.log2 + 1) :=
          Nat.mul_le_mul_left _ Nat.lt_log2_self.le
      _ = 2 ^ (52 + (m₂.log2 + 1)) := (pow_add ..).symm
      _ ≤ 2 ^ (m₁.log2 + (e₁ - e₂ - min (e₁ - e₂) t).toNat) :=
          Nat.pow_le_pow_right two_pos (by omega)
      _ = 2 ^ m₁.log2 * 2 ^ (e₁ - e₂ - min (e₁ - e₂) t).toNat := pow_add ..
      _ ≤ m₁ * 2 ^ (e₁ - e₂ - min (e₁ - e₂) t).toNat :=
          Nat.mul_le_mul_right _ (Nat.log2_self_le h₁.ne')

/-- A quotient is rounded to the number that covers it. -/
theorem Covers.div (hb : b.Normal) (h₁ : 0 < m₁) (h₂ : 0 < m₂)
    (h : b.Covers (m₁ * 2 ^ e₁ / (m₂ * 2 ^ e₂))) :
    UnpackedFloat.div .binary64 (.finite .positive m₁ e₁ h₁) (.finite .positive m₂ e₂ h₂) =
      .finite .positive b.mantissa b.exponent hb.pos := by
  have hprecise := precise_divCore e₁ e₂ h₁ h₂
  set t := min (e₁ - e₂)
    (Format.binary64.targetExponent (totalExponent m₁ e₁ - totalExponent m₂ e₂)) with ht
  set k := (e₁ - e₂ - t).toNat with hk
  have hcore : divCore .binary64 m₁ e₁ m₂ e₂ =
      (m₁ <<< k / m₂, t, accuracyOfFraction (m₁ <<< k % m₂) m₂) := rfl
  have hvalue : ((m₁ <<< k : ℕ) : ℚ) / m₂ * 2 ^ t = m₁ * 2 ^ e₁ / (m₂ * 2 ^ e₂) := by
    have hexp : (2 : ℚ) ^ e₁ = 2 ^ k * 2 ^ t * 2 ^ e₂ := by
      rw [← zpow_natCast, ← zpow_add₀ two_ne_zero, ← zpow_add₀ two_ne_zero]
      congr 1
      omega
    have hden : (m₂ : ℚ) ≠ 0 := by exact_mod_cast h₂.ne'
    rw [Nat.shiftLeft_eq, hexp]
    push_cast
    field_simp
  rw [hcore] at hprecise
  rw [← hvalue] at h
  exact h.round hb hprecise (represents_fraction _ h₂) .positive

end Operations

end Binary

end DesignLoads
