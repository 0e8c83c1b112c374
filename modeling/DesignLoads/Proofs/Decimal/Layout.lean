import DesignLoads.Decimal.Layout
import DesignLoads.Proofs.Decimal.Numerals
import DesignLoads.Proofs.Decimal.Shortest

/-! The text of a floating-point number. A decimal that is laid out positionally is a numeral of the
same value; so a finite number without a sign is read back from its text. -/

namespace DesignLoads

namespace Decimal

variable {d : Decimal}

theorem ofDigits_eq (cs : List Char) : ofDigits cs = Nat.ofDigitChars 10 cs 0 :=
  Nat.ofDigitChars_eq_foldl.symm

theorem ofDigits_toDigits (n : ℕ) : ofDigits (Nat.toDigits 10 n) = n := by
  rw [ofDigits_eq, Nat.ofDigitChars_ten_toDigits]

theorem ofDigits_zeros (n : ℕ) (cs : List Char) :
    ofDigits (List.replicate n '0' ++ cs) = ofDigits cs := by
  rw [ofDigits_eq, Nat.ofDigitChars_append, Nat.ofDigitChars_replicate_zero, Nat.mul_zero,
    ← ofDigits_eq]

theorem ofDigits_append_zeros (n : ℕ) (cs : List Char) :
    ofDigits (cs ++ List.replicate n '0') = ofDigits cs * 10 ^ n := by
  rw [ofDigits_eq, Nat.ofDigitChars_append, Nat.ofDigitChars_replicate_zero, ← ofDigits_eq,
    Nat.mul_comm]

theorem isDigit_toDigits (n : ℕ) : ∀ c ∈ Nat.toDigits 10 n, c.isDigit :=
  fun _ hc => Nat.isDigit_of_mem_toDigits (by decide) le_rfl hc

theorem isDigit_zeros (n : ℕ) : ∀ c ∈ List.replicate n '0', c.isDigit := by
  intro c hc
  rw [List.eq_of_mem_replicate hc]
  rfl

section Numerals

variable {ds whole fraction : List Char}

theorem numeral_whole (h : ∀ c ∈ ds, c.isDigit) (hne : ds ≠ []) : Numeral ds ⟨ofDigits ds, 0⟩ := by
  have hnumeral := Numeral.intro h .none .none (by rwa [List.append_nil])
  rwa [List.append_nil, List.append_nil] at hnumeral

theorem numeral_fraction (hw : ∀ c ∈ whole, c.isDigit) (hf : ∀ c ∈ fraction, c.isDigit)
    (hne : whole ++ fraction ≠ []) :
    Numeral (whole ++ '.' :: fraction) ⟨ofDigits (whole ++ fraction), -fraction.length⟩ := by
  have hnumeral := Numeral.intro hw (.digits hf) .none hne
  rwa [List.append_nil, zero_sub] at hnumeral

/-- Digits, with a point among them or zeros around them, are a numeral of the same value. -/
theorem numeral_point (hdigits : ∀ c ∈ ds, c.isDigit) (hne : ds ≠ []) (e : ℤ) :
    ∃ d, Numeral (Layout.plain.point ds (ds.length + e)) d ∧
      d.value = (⟨ofDigits ds, e⟩ : Decimal).value := by
  rw [Layout.point]
  split
  · -- all digits are after the point, and zeros before them
    rename_i hwhole
    generalize hn : (-(ds.length + e)).toNat = n
    have hfraction : ∀ c ∈ List.replicate n '0' ++ ds, c.isDigit := fun c hc =>
      (List.mem_append.mp hc).elim (isDigit_zeros n c) (hdigits c)
    have hnumeral := numeral_fraction (isDigit_zeros 1) hfraction (by simp)
    refine ⟨_, hnumeral, ?_⟩
    rw [ofDigits_zeros, ofDigits_zeros]
    congr 2
    rw [List.length_append, List.length_replicate]
    omega
  split
  · -- zeros fill up the places before the point
    rename_i hwhole hshort
    generalize hn : (ds.length + e).toNat - ds.length = n
    have hwhole : ∀ c ∈ ds ++ List.replicate n '0', c.isDigit := fun c hc =>
      (List.mem_append.mp hc).elim (hdigits c) (isDigit_zeros n c)
    have hnumeral := numeral_whole hwhole (by simp [hne])
    rw [← List.append_nil (ds ++ _)] at hnumeral
    refine ⟨_, hnumeral, ?_⟩
    have hexp : e = (n : ℤ) := by omega
    rw [List.append_nil, ofDigits_append_zeros, value, value, hexp]
    push_cast
    rw [mul_one, zpow_natCast]
  · -- the point is among the digits
    rename_i hwhole hlong
    generalize hn : (ds.length + e).toNat = n at hlong
    have hnumeral := numeral_fraction (fun c hc => hdigits c (List.mem_of_mem_take hc))
      (fun c hc => hdigits c (List.mem_of_mem_drop hc)) (by rwa [List.take_append_drop n])
    refine ⟨_, hnumeral, ?_⟩
    rw [List.take_append_drop]
    congr 2
    rw [List.length_drop]
    omega

end Numerals

theorem numeral_decimal (d : Decimal) :
    ∃ d', Numeral (Layout.plain.decimal d) d' ∧ d'.value = d.value := by
  have hexp : ((Nat.toDigits 10 d.digits).length - 1 + d.exponent + 1 : ℤ) =
      (Nat.toDigits 10 d.digits).length + d.exponent := by omega
  obtain ⟨d', hd', hvalue⟩ :=
    numeral_point (isDigit_toDigits d.digits) Nat.toDigits_ne_nil d.exponent
  rw [ofDigits_toDigits] at hvalue
  rw [← hexp] at hd'
  exact ⟨d', hd', hvalue⟩

end Decimal

theorem Layout.magnitude_of_isFinite (l : Layout) {x : Float} (hfin : x.isFinite) :
    l.magnitude x =
      if (Binary.ofFloat x).mantissa = 0 then '0' :: (if l.keepsPoint then ['.', '0'] else [])
      else l.decimal ((Binary.ofFloat x).shortest l.tie) := by
  have hkind : x.isNaN = false ∧ x.isInf = false := by
    change x.toModel.unpack.isNaN = false ∧ x.toModel.unpack.isInf = false
    change x.toModel.unpack.isFinite = true at hfin
    cases hx : x.toModel.unpack <;> rw [hx] at hfin
    case zero | finite => exact ⟨rfl, rfl⟩
    all_goals cases hfin
  rw [magnitude, hkind.1, hkind.2]
  rfl

/-- The text of a finite number without a sign. -/
theorem Layout.chars_of_isFinite (l : Layout) {x : Float} (hfin : x.isFinite)
    (hpos : x.toBits.toNat < 2 ^ 63) : l.chars x =
      if (Binary.ofFloat x).mantissa = 0 then '0' :: (if l.keepsPoint then ['.', '0'] else [])
      else l.decimal ((Binary.ofFloat x).shortest l.tie) := by
  have hsign : (!x.isNaN && decide (Nat.pow 2 63 ≤ x.toBits.toNat)) = false :=
    Bool.and_eq_false_iff.mpr (.inr (decide_eq_false (Nat.not_le.mpr hpos)))
  rw [chars, hsign, l.magnitude_of_isFinite hfin]
  rfl

/-- Every finite number without a sign is read back from its text. -/
theorem exists_numeral_chars {x : Float} (hfin : x.isFinite) (hpos : x.toBits.toNat < 2 ^ 63) :
    ∃ d, Decimal.Numeral (Layout.plain.chars x) d ∧ d.toFloat = x := by
  have hbits := Binary.toBits_lt_of_isFinite hfin hpos
  rw [Layout.plain.chars_of_isFinite hfin hpos]
  split
  · -- without a mantissa and without a sign the number is zero
    rename_i hzero
    have hx : x.toBits.toNat = 0 := by
      rw [Binary.ofFloat_eq] at hzero
      split at hzero <;> dsimp only at hzero <;> omega
    have hread : (⟨Decimal.ofDigits ['0'], 0⟩ : Decimal).toFloat.toBits.toNat = 0 := by
      decide +kernel
    exact ⟨_, Decimal.numeral_whole (Decimal.isDigit_zeros 1) (by simp),
      Float.toBits_inj.mp (UInt64.toNat_inj.mp (hread.trans hx.symm))⟩
  · rename_i hmantissa
    have hpos := Nat.pos_of_ne_zero hmantissa
    have hnormal := Binary.normal_ofFloat hbits hpos
    obtain ⟨d, hd, hvalue⟩ := Decimal.numeral_decimal ((Binary.ofFloat x).shortest .up)
    -- the shortest decimal need not be the number, but it rounds to it
    have hcovers := Binary.covers_shortest .up hnormal
    rw [← hvalue] at hcovers
    exact ⟨d, hd,
      (Decimal.toFloat_of_covers hnormal hcovers).trans (Binary.toFloat_ofFloat hbits hpos)⟩

end DesignLoads
