import DesignLoads.Factor
import DesignLoads.Proofs.LoadCase
import DesignLoads.Proofs.Outcomes

/-! Finite numbers. A sum or a product is finite only if both numbers are that it is made of, so an
alternative that is not finite makes every multiple, sum and product of it one that is not. Of
finite alternatives only the opposite is always finite again. -/

namespace DesignLoads

open Float.Model Float.Model.UnpackedFloat

section Numbers

variable {x y : Float}

theorem not_isFinite_infinity (s : Sign) : ¬ (ofUnpacked (.infinity s)).isFinite := by
  cases s <;> decide

theorem not_isFinite_notANumber : ¬ (ofUnpacked .notANumber).isFinite := by decide

theorem isFinite_of_add_left (h : (x + y).isFinite) : x.isFinite := by
  change x.toModel.unpack.isFinite = true
  change (ofUnpacked (UnpackedFloat.add .binary64 x.toModel.unpack y.toModel.unpack)).isFinite at h
  cases hx : x.toModel.unpack with
  | zero s => rfl
  | finite s m e hm => rfl
  | notANumber =>
    rw [hx] at h
    exact absurd h not_isFinite_notANumber
  | infinity s =>
    rw [hx] at h
    exfalso
    -- to add the opposite infinity gives a NaN, and all else is lost in the infinity
    cases hy : y.toModel.unpack with
    | infinity t =>
      rw [hy] at h
      cases s <;> cases t <;> revert h <;> decide
    | notANumber =>
      rw [hy] at h
      exact not_isFinite_notANumber h
    | zero t =>
      rw [hy] at h
      exact not_isFinite_infinity s h
    | finite t m e hm =>
      rw [hy] at h
      exact not_isFinite_infinity s h

theorem isFinite_of_add (h : (x + y).isFinite) : x.isFinite ∧ y.isFinite := by
  have hcomm : (y + x).isFinite := by rwa [add_comm_float]
  exact ⟨isFinite_of_add_left h, isFinite_of_add_left hcomm⟩

theorem isFinite_of_mul_left (h : (x * y).isFinite) : x.isFinite := by
  change x.toModel.unpack.isFinite = true
  change (ofUnpacked (UnpackedFloat.mul .binary64 x.toModel.unpack y.toModel.unpack)).isFinite at h
  cases hx : x.toModel.unpack with
  | zero s => rfl
  | finite s m e hm => rfl
  | notANumber =>
    rw [hx] at h
    exact absurd h not_isFinite_notANumber
  | infinity s =>
    rw [hx] at h
    exfalso
    cases hy : y.toModel.unpack with
    | infinity t =>
      rw [hy] at h
      exact not_isFinite_infinity _ h
    | finite t m e hm =>
      rw [hy] at h
      exact not_isFinite_infinity _ h
    | notANumber =>
      rw [hy] at h
      exact not_isFinite_notANumber h
    | zero t =>
      rw [hy] at h
      exact not_isFinite_notANumber h

theorem isFinite_of_mul (h : (x * y).isFinite) : x.isFinite ∧ y.isFinite := by
  have hcomm : (y * x).isFinite := by rwa [mul_comm_float]
  exact ⟨isFinite_of_mul_left h, isFinite_of_mul_left hcomm⟩

/-- Whether a number is finite is seen from the bits of its exponent. -/
theorem isFinite_iff_unpackExponent :
    x.isFinite ↔ @unpackExponent .binary64 x.toBits.toBitVec ≠ -1#11 := by
  change (UnpackedFloat.unpack .binary64 x.toBits.toBitVec).isFinite = true ↔ _
  rw [UnpackedFloat.unpack]
  dsimp only
  by_cases hall : @unpackExponent .binary64 x.toBits.toBitVec = -1#11
  · rw [if_pos hall]
    refine iff_of_false ?_ fun hne => hne hall
    split <;> exact Bool.false_ne_true
  · rw [if_neg hall]
    refine iff_of_true ?_ hall
    split
    · split <;> rfl
    · rfl

/-- The opposite number differs in the bit of its sign. -/
theorem unpackExponent_neg (u : UnpackedFloat) :
    @unpackExponent .binary64 (UnpackedFloat.pack .binary64 u.neg) =
      unpackExponent (UnpackedFloat.pack .binary64 u) := by
  have hsign (s t : Sign) (e : BitVec 11) (m : BitVec 52) :
      @unpackExponent .binary64 (packComponents .binary64 s e m) =
        unpackExponent (packComponents .binary64 t e m) := by
    rw [unpackExponent_packComponents, unpackExponent_packComponents]
  cases u with
  | notANumber => rfl
  | infinity s => exact hsign _ _ _ _
  | zero s => exact hsign _ _ _ _
  | finite s m e hm =>
    rw [UnpackedFloat.neg, UnpackedFloat.pack, UnpackedFloat.pack]
    dsimp only
    split
    · exact hsign _ _ _ _
    · split <;> exact hsign _ _ _ _

theorem isFinite_neg (h : x.isFinite) : (-x).isFinite := by
  have hself : x.toBits.toBitVec = UnpackedFloat.pack .binary64 x.toModel.unpack :=
    congrArg (fun x : Float => x.toBits.toBitVec) (ofUnpacked_unpack x).symm
  rw [isFinite_iff_unpackExponent, hself, ← unpackExponent_neg] at h
  exact isFinite_iff_unpackExponent.mpr h

/-- To turn a number into its opposite does not overflow. -/
theorem isFinite_mul_neg_one (h : x.isFinite) : (x * (-1)).isFinite := by
  by_cases hx : (x == 0) = true
  · obtain rfl | rfl := eq_zero_cases hx <;> decide
  · rw [mul_neg_one_float h (Bool.eq_false_of_not_eq_true hx)]
    exact isFinite_neg h

theorem isFinite_unsignedZero : (unsignedZero x).isFinite ↔ x.isFinite := by
  unfold unsignedZero
  split
  · rename_i hx
    obtain rfl | rfl := eq_zero_cases hx <;> decide
  · rfl

theorem isFinite_of_beq_zero (h : (x == 0) = true) : x.isFinite := by
  obtain rfl | rfl := eq_zero_cases h <;> decide

end Numbers

namespace Factor

/-- The value of a factor is checked to be finite. -/
theorem isFinite_value {f : Factor} {x : Float} (h : f.value = .ok x) : x.isFinite := by
  have hfinite {g : Factor} {y : Float} (hy : g.finite y = .ok x) : x.isFinite := by
    unfold finite at hy
    split at hy
    · rename_i hfin
      cases hy
      exact hfin
    · cases hy
  cases f with
  | number y => exact hfinite h
  | neg a =>
    obtain ⟨_, _, h⟩ := bind_eq_ok_iff.mp h
    exact hfinite h
  | add a b | sub a b | mul a b =>
    obtain ⟨_, _, h⟩ := bind_eq_ok_iff.mp h
    obtain ⟨_, _, h⟩ := bind_eq_ok_iff.mp h
    exact hfinite h
  | div a b =>
    obtain ⟨_, _, h⟩ := bind_eq_ok_iff.mp h
    split at h
    · cases h
    · obtain ⟨_, _, h⟩ := bind_eq_ok_iff.mp h
      exact hfinite h

end Factor

namespace LoadCase

variable {a b c : LoadCase}

def Finite (c : LoadCase) : Prop := ∀ e ∈ c.entries, e.2.isFinite

/-- What zero has, all coefficients have that are written down exactly if those of all names do. -/
theorem forall_entries_iff {P : Float → Prop} (hzero : P 0) :
    (∀ e ∈ c.entries, P e.2) ↔ ∀ name, P (c.get name) := by
  constructor
  · intro h name
    cases hv : c.coefficients.get? name with
    | none =>
      rw [get, hv]
      exact hzero
    | some v =>
      rw [get, hv]
      exact h (name, v) ((NameMap.get?_eq_some_iff _).mp hv)
  · intro h e he
    have hget := h e.1
    rwa [get, (NameMap.get?_eq_some_iff _).mpr he] at hget

theorem finite_iff : c.Finite ↔ ∀ name, (c.get name).isFinite :=
  forall_entries_iff (P := fun x => x.isFinite) (by decide)

theorem finite_empty : empty.Finite := by
  simp [Finite, empty, entries, NameMap.empty]

theorem Finite.of_merged (h : (a.merged b).Finite) : a.Finite ∧ b.Finite := by
  rw [finite_iff] at h
  simp only [get_merged, isFinite_unsignedZero] at h
  exact ⟨finite_iff.mpr fun name => (isFinite_of_add (h name)).1,
    finite_iff.mpr fun name => (isFinite_of_add (h name)).2⟩

theorem Finite.of_scaled {k : Float} (h : (c.scaled k).Finite) : c.Finite := by
  intro e he
  by_contra hfin
  -- what is not finite is no zero, and so is not left out
  have hmul : ¬ (e.2 * k).isFinite := fun h => hfin (isFinite_of_mul h).1
  have hkept : (e.1, e.2 * k) ∈ (c.scaled k).entries := by
    rw [entries_scaled, List.mem_filter]
    refine ⟨List.mem_map_of_mem he, ?_⟩
    rw [Bool.not_eq_true']
    exact Bool.eq_false_of_not_eq_true fun hzero => hmul (isFinite_of_beq_zero hzero)
  exact hmul (h (e.1, e.2 * k) hkept)

theorem Finite.opposite (h : c.Finite) : (c.scaled (-1)).Finite := by
  intro e he
  rw [entries_scaled] at he
  obtain ⟨d, hd, rfl⟩ := List.mem_map.mp (List.mem_filter.mp he).1
  exact isFinite_mul_neg_one (h d hd)

end LoadCase

namespace Alternative

variable {a b p : Alternative}

structure Finite (a : Alternative) : Prop where
  constant : a.constant.isFinite
  case : a.case.Finite

theorem finite_scalar {x : Float} (h : x.isFinite) : (scalar x).Finite :=
  ⟨isFinite_unsignedZero.mpr h, LoadCase.finite_empty⟩

theorem finite_atomic (name : String) : (atomic name).Finite := by
  have hzero : (0 : Float).isFinite := by decide
  have hone : (1 : Float).isFinite := by decide
  refine ⟨hzero, ?_⟩
  rw [atomic, load, LoadCase.Finite, LoadCase.entries_single (by decide)]
  exact List.forall_mem_singleton.mpr hone

theorem Finite.opposite (h : a.Finite) : (a.scaled (-1)).Finite :=
  ⟨isFinite_unsignedZero.mpr (isFinite_mul_neg_one h.constant), h.case.opposite⟩

theorem Finite.of_scaled {k : Float} (h : (a.scaled k).Finite) : a.Finite ∧ k.isFinite := by
  obtain ⟨hconstant, hfactor⟩ := isFinite_of_mul (isFinite_unsignedZero.mp h.constant)
  exact ⟨⟨hconstant, h.case.of_scaled⟩, hfactor⟩

theorem Finite.of_merged (h : (a.merged b).Finite) : a.Finite ∧ b.Finite := by
  obtain ⟨ha, hb⟩ := isFinite_of_add (isFinite_unsignedZero.mp h.constant)
  obtain ⟨hcase, hcase'⟩ := h.case.of_merged
  exact ⟨⟨ha, hcase⟩, hb, hcase'⟩

theorem finite_of_isScalar (hs : a.isScalar) (h : a.constant.isFinite) : a.Finite := by
  refine ⟨h, ?_⟩
  rw [case_of_isScalar hs]
  exact LoadCase.finite_empty

theorem Finite.of_product (hp : a.product? b = some p) (h : p.Finite) : a.Finite ∧ b.Finite := by
  unfold product? at hp
  split at hp
  · rename_i hs
    cases hp
    obtain ⟨hb, ha⟩ := h.of_scaled
    exact ⟨finite_of_isScalar hs ha, hb⟩
  · split at hp
    · rename_i hs
      cases hp
      obtain ⟨ha, hb⟩ := h.of_scaled
      exact ⟨ha, finite_of_isScalar hs hb⟩
    · cases hp

end Alternative

end DesignLoads
