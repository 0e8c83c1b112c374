import DesignLoads.Proofs.Decimal.ToFloat

/-! The shortest decimal. A point of a decimal grid is taken only if it lies in the interval that
rounds to the floating-point number; so the shortest decimal rounds to it, whichever grid has the
first hit and whichever way ties go. -/

namespace DesignLoads

namespace Binary

variable {b : Binary} {tie : Tie} {k : ℤ} {n : ℕ}

/-- A quarter of `2 ^ b.exponent`, counted in the unit of the search. -/
def quarter (b : Binary) (k : ℤ) : ℕ := Nat.pow 2 (b.exponent - 2).toNat * Nat.pow 10 (-k).toNat

def step (b : Binary) (k : ℤ) : ℕ := Nat.pow 10 k.toNat * Nat.pow 2 (-(b.exponent - 2)).toNat

/-- A point of the grid lies where numbers round to `b`. -/
structure Inside (b : Binary) (k : ℤ) (n : ℕ) : Prop where
  lower : (4 * b.mantissa - b.below) * b.quarter k ≤ n * b.step k
  upper : n * b.step k ≤ (4 * b.mantissa + 2) * b.quarter k
  strict : b.mantissa % 2 = 1 → (4 * b.mantissa - b.below) * b.quarter k < n * b.step k ∧
    n * b.step k < (4 * b.mantissa + 2) * b.quarter k

theorem inside_of_test (h : (if b.mantissa % 2 = 0 then
      decide ((4 * b.mantissa - b.below) * b.quarter k ≤ n * b.step k) &&
        decide (n * b.step k ≤ (4 * b.mantissa + 2) * b.quarter k)
    else decide ((4 * b.mantissa - b.below) * b.quarter k < n * b.step k) &&
      decide (n * b.step k < (4 * b.mantissa + 2) * b.quarter k)) = true) : b.Inside k n := by
  split at h
  · rename_i heven
    obtain ⟨hlower, hupper⟩ : _ ∧ _ := by simpa using h
    exact ⟨hlower, hupper, fun hodd => by omega⟩
  · obtain ⟨hlower, hupper⟩ : _ ∧ _ := by simpa using h
    exact ⟨hlower.le, hupper.le, fun _ => ⟨hlower, hupper⟩⟩

/-- The point that is taken lies inside. -/
theorem inside_of_onGrid? (h : b.onGrid? tie k = some n) : b.Inside k n := by
  unfold onGrid? at h
  dsimp only at h
  generalize hd : 4 * b.mantissa * _ / _ = d at h
  split at h
  · cases h
  · rename_i hinside _
    obtain rfl := Option.some.inj h
    exact inside_of_test hinside
  · rename_i _ hinside
    obtain rfl := Option.some.inj h
    exact inside_of_test hinside
  · rename_i hinside hinside'
    -- both points are inside, and one of them is taken
    have hn : n = d ∨ n = d + 1 := by
      split at h
      · exact .inl (Option.some.inj h).symm
      · exact .inr (Option.some.inj h).symm
      · cases tie with
        | up => exact .inr (Option.some.inj h).symm
        | even =>
          have h := Option.some.inj h
          split at h
          · exact .inl h.symm
          · exact .inr h.symm
    obtain rfl | rfl := hn
    · exact inside_of_test hinside
    · exact inside_of_test hinside'

theorem quarter_pos : 0 < b.quarter k :=
  Nat.mul_pos (Nat.pow_pos two_pos) (Nat.pow_pos (by decide))

theorem mul_step : ((n * b.step k : ℕ) : ℚ) =
    4 * ((⟨n, k⟩ : Decimal).value / 2 ^ b.exponent) * b.quarter k := by
  have hten := zpow_mul_pow_toNat (a := 10) (by norm_num) k
  have htwo := zpow_mul_pow_toNat (a := 2) (by norm_num) (b.exponent - 2)
  have hfour : (2 : ℚ) ^ b.exponent = 2 ^ (b.exponent - 2) * 4 := by
    rw [zpow_sub₀ two_ne_zero]
    norm_num
  have hquarter : ((b.quarter k : ℕ) : ℚ) = 2 ^ (b.exponent - 2).toNat * 10 ^ (-k).toNat := by
    change ((2 ^ (b.exponent - 2).toNat * 10 ^ (-k).toNat : ℕ) : ℚ) = _
    push_cast
    rfl
  have hstep : ((n * b.step k : ℕ) : ℚ) = n * (10 ^ k.toNat * 2 ^ (-(b.exponent - 2)).toNat) := by
    change ((n * (10 ^ k.toNat * 2 ^ (-(b.exponent - 2)).toNat) : ℕ) : ℚ) = _
    push_cast
    rfl
  have hne : (2 : ℚ) ^ (b.exponent - 2) ≠ 0 := by positivity
  rw [Decimal.value, hquarter, hstep, hfour, ← hten, ← htwo]
  field_simp

/-- The points of a grid that are inside are numbers that round to `b`. -/
theorem Inside.covers (hb : b.Normal) (h : b.Inside k n) : b.Covers (⟨n, k⟩ : Decimal).value := by
  have hpos : (0 : ℚ) < b.quarter k := by exact_mod_cast quarter_pos
  have hpoint : ((n * b.step k : ℕ) : ℚ) = _ := mul_step
  have hle : b.below ≤ 4 * b.mantissa := by
    have := hb.below_le_two
    have := hb.pos
    omega
  have hleast : (((4 * b.mantissa - b.below) * b.quarter k : ℕ) : ℚ) =
      4 * (b.mantissa - b.below / 4) * b.quarter k := by
    push_cast [hle]
    ring
  have hgreatest : (((4 * b.mantissa + 2) * b.quarter k : ℕ) : ℚ) =
      4 * (b.mantissa + 1 / 2) * b.quarter k := by
    push_cast
    ring
  have hscale {x y : ℚ} : 4 * x * b.quarter k ≤ 4 * y * b.quarter k ↔ x ≤ y := by
    rw [mul_le_mul_iff_left₀ hpos, mul_le_mul_iff_right₀ (by norm_num)]
  have hscale' {x y : ℚ} : 4 * x * b.quarter k < 4 * y * b.quarter k ↔ x < y := by
    rw [mul_lt_mul_iff_left₀ hpos, mul_lt_mul_iff_right₀ (by norm_num)]
  refine ⟨?_, ?_, fun hodd => ?_⟩
  · rw [← hscale, ← hpoint, ← hleast]
    exact_mod_cast h.lower
  · rw [← hscale, ← hpoint, ← hgreatest]
    exact_mod_cast h.upper
  · obtain ⟨hlower, hupper⟩ := h.strict hodd
    constructor
    · rw [← hscale', ← hpoint, ← hleast]
      exact_mod_cast hlower
    · rw [← hscale', ← hpoint, ← hgreatest]
      exact_mod_cast hupper

theorem value_toDecimal : b.toDecimal.value = b.mantissa * 2 ^ b.exponent := by
  rw [toDecimal]
  split
  · rename_i hexp
    have hnat : (b.exponent.toNat : ℤ) = b.exponent := Int.toNat_of_nonneg hexp
    change ((b.mantissa * 2 ^ b.exponent.toNat : ℕ) : ℚ) * 10 ^ (0 : ℤ) = _
    rw [zpow_zero, mul_one]
    push_cast
    rw [← zpow_natCast, hnat]
  · rename_i hexp
    have hnat : (b.exponent.natAbs : ℤ) = -b.exponent := by omega
    have hten : (10 : ℚ) ^ b.exponent = 2 ^ b.exponent * 5 ^ b.exponent := by
      rw [← mul_zpow]
      norm_num
    have hne : (5 : ℚ) ^ b.exponent ≠ 0 := by positivity
    change ((b.mantissa * 5 ^ b.exponent.natAbs : ℕ) : ℚ) * 10 ^ b.exponent = _
    push_cast
    rw [← zpow_natCast, hnat, zpow_neg, hten]
    field_simp

/-- The shortest decimal is a point of a grid inside, or the number itself with all its digits. -/
theorem shortest_cases (tie : Tie) (b : Binary) :
    b.shortest tie = b.toDecimal ∨ ∃ k n, b.shortest tie = ⟨n, k⟩ ∧ b.Inside k n := by
  have hsearch (fuel : ℕ) (k : ℤ) :
      ∀ d ∈ b.search tie fuel k, ∃ k n, d = ⟨n, k⟩ ∧ b.Inside k n := by
    induction fuel generalizing k with
    | zero => simp [search]
    | succ fuel ih =>
      intro d hd
      rw [search] at hd
      split at hd
      · rename_i n hn
        obtain rfl := Option.some.inj hd
        exact ⟨k, n, rfl, inside_of_onGrid? hn⟩
      · exact ih _ d hd
  rw [shortest]
  generalize hstart : (_ * 30103 / 100000 + 1 : ℤ) = start
  cases hfound : b.search tie 24 start with
  | none => exact .inl rfl
  | some d => exact .inr (hsearch _ _ d hfound)

/-- The shortest decimal rounds to the number. -/
theorem covers_shortest (tie : Tie) (hb : b.Normal) : b.Covers (b.shortest tie).value := by
  obtain hall | ⟨k, n, hpoint, hinside⟩ := shortest_cases tie b
  · rw [hall, value_toDecimal]
    exact hb.covers_self
  · rw [hpoint]
    exact hinside.covers hb

/-- Zero is shortest for no other number. -/
theorem digits_shortest_pos (tie : Tie) (hm : 0 < b.mantissa) (hbelow : b.below ≤ 2) :
    0 < (b.shortest tie).digits := by
  obtain hall | ⟨k, n, hpoint, hinside⟩ := shortest_cases tie b
  · rw [hall, toDecimal]
    split
    · exact Nat.mul_pos hm (Nat.pow_pos (by decide))
    · exact Nat.mul_pos hm (Nat.pow_pos (by decide))
  · rw [hpoint]
    have hleast : 0 < (4 * b.mantissa - b.below) * b.quarter k :=
      Nat.mul_pos (by omega) quarter_pos
    exact Nat.pos_of_mul_pos_right (hleast.trans_le hinside.lower)

end Binary

end DesignLoads
