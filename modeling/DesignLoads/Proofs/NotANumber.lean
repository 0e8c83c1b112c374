import DesignLoads.Alternative

/-! Numbers that are none. NaN is the only number that does not equal itself, and it stays in every
sum and product it gets into: an alternative computed from one with a NaN has a NaN too. -/

namespace DesignLoads

open Float.Model (UnpackedFloat)

theorem isNaN_iff {x : Float} : x.isNaN ↔ x.toModel.unpack = .notANumber := by
  change x.toModel.unpack.isNaN = true ↔ _
  cases x.toModel.unpack with
  | notANumber => exact iff_of_true rfl rfl
  | _ => exact iff_of_false Bool.false_ne_true nofun

theorem isNaN_of_pack {x : Float} (h : x.toModel = Float.Model.pack .notANumber) : x.isNaN := by
  change x.toModel.isNaN = true
  rw [h]
  decide

theorem not_isNaN_of_isFinite {x : Float} (h : x.isFinite) : ¬ x.isNaN := by
  intro hnan
  change x.toModel.unpack.isFinite = true at h
  rw [isNaN_iff.mp hnan] at h
  cases h

theorem isNaN_add_left {x : Float} (h : x.isNaN) (y : Float) : (x + y).isNaN := by
  apply isNaN_of_pack
  change Float.Model.pack (UnpackedFloat.add _ x.toModel.unpack y.toModel.unpack) = _
  rw [isNaN_iff.mp h]
  rfl

theorem isNaN_add_right {y : Float} (h : y.isNaN) (x : Float) : (x + y).isNaN := by
  apply isNaN_of_pack
  change Float.Model.pack (UnpackedFloat.add _ x.toModel.unpack y.toModel.unpack) = _
  rw [isNaN_iff.mp h]
  cases x.toModel.unpack <;> rfl

theorem isNaN_mul_left {x : Float} (h : x.isNaN) (y : Float) : (x * y).isNaN := by
  apply isNaN_of_pack
  change Float.Model.pack (UnpackedFloat.mul _ x.toModel.unpack y.toModel.unpack) = _
  rw [isNaN_iff.mp h]
  rfl

theorem isNaN_mul_right {y : Float} (h : y.isNaN) (x : Float) : (x * y).isNaN := by
  apply isNaN_of_pack
  change Float.Model.pack (UnpackedFloat.mul _ x.toModel.unpack y.toModel.unpack) = _
  rw [isNaN_iff.mp h]
  cases x.toModel.unpack <;> rfl

theorem beq_self_iff {x : Float} : (x == x) = true ↔ x.isNaN = false := by
  change (x.toModel.unpack.compare x.toModel.unpack == some .eq) = true ↔
    x.toModel.unpack.isNaN = false
  cases x.toModel.unpack with
  | infinity s => cases s <;> decide
  | notANumber => decide
  | zero s => cases s <;> decide
  | finite s m e h =>
    have hexponent : compare e e = .eq := Int.compare_eq_eq.mpr rfl
    have hmantissa : compare m m = .eq := Nat.compare_eq_eq.mpr rfl
    have hcompare : (UnpackedFloat.finite s m e h).compare (.finite s m e h) = some .eq := by
      cases s with
      | positive =>
        change some ((compare e e).then (compare m m)) = _
        rw [hexponent, hmantissa]
        rfl
      | negative =>
        change some ((compare e e).then (compare m m)).swap = _
        rw [hexponent, hmantissa]
        rfl
    rw [hcompare]
    exact iff_of_true rfl rfl

theorem beq_zero_of_isNaN {x : Float} (h : x.isNaN) : (x == 0) = false := by
  change (x.toModel.unpack.compare _ == some .eq) = false
  rw [isNaN_iff.mp h]
  rfl

theorem isNaN_unsignedZero {x : Float} (h : x.isNaN) : (unsignedZero x).isNaN := by
  rw [unsignedZero, beq_zero_of_isNaN h]
  exact h

namespace LoadCase

def HasNaN (c : LoadCase) : Prop := ∃ e ∈ c.entries, e.2.isNaN

theorem hasNaN_iff {c : LoadCase} : c.HasNaN ↔ ∃ n, (c.get n).isNaN := by
  constructor
  · rintro ⟨e, he, hn⟩
    refine ⟨e.1, ?_⟩
    rw [get, (NameMap.get?_eq_some_iff _).mpr he]
    exact hn
  · rintro ⟨n, hn⟩
    cases hv : c.coefficients.get? n with
    | none =>
      rw [get, hv] at hn
      exact absurd hn (by decide)
    | some v =>
      rw [get, hv] at hn
      exact ⟨(n, v), (NameMap.get?_eq_some_iff _).mp hv, hn⟩

theorem get_add (c : LoadCase) (n m : String) (k : Float) : (c.add n k).get m =
    if m = n then (if c.get n + k == 0 then 0 else c.get n + k) else c.get m := by
  unfold add
  by_cases hz : (c.get n + k == 0) = true
  · rw [dif_pos hz, if_pos hz]
    simp only [get, NameMap.get?_erase]
    split <;> rfl
  · rw [dif_neg hz, if_neg hz]
    simp only [get, NameMap.get?_insert]
    split <;> rfl

theorem isNaN_get_add_self {c : LoadCase} {n : String} {k : Float} (h : (c.get n + k).isNaN) :
    ((c.add n k).get n).isNaN := by
  rw [get_add, if_pos rfl, beq_zero_of_isNaN h]
  exact h

theorem isNaN_get_add {c : LoadCase} {m : String} (h : (c.get m).isNaN) (n : String) (k : Float) :
    ((c.add n k).get m).isNaN := by
  by_cases he : m = n
  · subst he
    exact isNaN_get_add_self (isNaN_add_left h k)
  · rwa [get_add, if_neg he]

theorem isNaN_get_addAll {c : LoadCase} {m : String} (h : (c.get m).isNaN)
    (es : List (String × Float)) : ((c.addAll es).get m).isNaN := by
  induction es generalizing c with
  | nil => exact h
  | cons e es ih => exact ih (isNaN_get_add h e.1 e.2)

theorem isNaN_get_addAll_of_mem (c : LoadCase) {es : List (String × Float)} {e : String × Float}
    (he : e ∈ es) (h : e.2.isNaN) : ((c.addAll es).get e.1).isNaN := by
  induction es generalizing c with
  | nil => cases he
  | cons d es ih =>
    obtain rfl | he := List.mem_cons.mp he
    · exact isNaN_get_addAll (isNaN_get_add_self (isNaN_add_right h _)) es
    · exact ih (c.add d.1 d.2) he

theorem HasNaN.scaled {c : LoadCase} (h : c.HasNaN) (k : Float) : (c.scaled k).HasNaN := by
  obtain ⟨e, he, hn⟩ := h
  have hm : (e.1, e.2 * k) ∈ c.entries.map fun e => (e.1, e.2 * k) :=
    List.mem_map.mpr ⟨e, he, rfl⟩
  have hsum := isNaN_get_addAll_of_mem empty hm (isNaN_mul_left hn k)
  exact hasNaN_iff.mpr ⟨e.1, hsum⟩

theorem HasNaN.merged_left {a : LoadCase} (h : a.HasNaN) (b : LoadCase) : (a.merged b).HasNaN := by
  obtain ⟨n, hn⟩ := hasNaN_iff.mp h
  exact hasNaN_iff.mpr ⟨n, isNaN_get_addAll hn b.entries⟩

theorem HasNaN.merged_right {b : LoadCase} (h : b.HasNaN) (a : LoadCase) :
    (a.merged b).HasNaN := by
  obtain ⟨e, he, hn⟩ := h
  exact hasNaN_iff.mpr ⟨e.1, isNaN_get_addAll_of_mem a he hn⟩

theorem comparable_iff {c : LoadCase} : c.comparable = true ↔ ¬ c.HasNaN := by
  have hzip : c.entries.zip c.entries = c.entries.map fun e => (e, e) := by
    rw [List.zip, List.zipWith_self]
  simp only [comparable, agrees, HasNaN, hzip, beq_self_eq_true, Bool.true_and, List.all_map,
    List.all_eq_true, Function.comp, beq_self_iff, not_exists, not_and, Bool.not_eq_true]

end LoadCase

namespace Alternative

def HasNaN (a : Alternative) : Prop := a.constant.isNaN ∨ a.case.HasNaN

theorem comparable_iff {a : Alternative} : a.comparable = true ↔ ¬ a.HasNaN := by
  have hcase : a.case.agrees a.case = true ↔ ¬ a.case.HasNaN := LoadCase.comparable_iff
  rw [comparable, agrees, Bool.and_eq_true, beq_self_iff, hcase, HasNaN, not_or,
    Bool.not_eq_true]

theorem HasNaN.scaled {a : Alternative} (h : a.HasNaN) (k : Float) : (a.scaled k).HasNaN := by
  obtain h | h := h
  · exact .inl (isNaN_unsignedZero (isNaN_mul_left h k))
  · exact .inr (h.scaled k)

theorem hasNaN_scaled_of_isNaN (a : Alternative) {k : Float} (h : k.isNaN) :
    (a.scaled k).HasNaN :=
  .inl (isNaN_unsignedZero (isNaN_mul_right h _))

theorem HasNaN.merged_left {a : Alternative} (h : a.HasNaN) (b : Alternative) :
    (a.merged b).HasNaN := by
  obtain h | h := h
  · exact .inl (isNaN_unsignedZero (isNaN_add_left h _))
  · exact .inr (h.merged_left b.case)

theorem HasNaN.merged_right {b : Alternative} (h : b.HasNaN) (a : Alternative) :
    (a.merged b).HasNaN := by
  obtain h | h := h
  · exact .inl (isNaN_unsignedZero (isNaN_add_right h _))
  · exact .inr (h.merged_right a.case)

/-- A number alone has a NaN only if it is one. -/
theorem isNaN_of_isScalar {a : Alternative} (hs : a.isScalar) (h : a.HasNaN) :
    a.constant.isNaN := by
  obtain h | ⟨e, he, _⟩ := h
  · exact h
  · rw [isScalar, LoadCase.isEmpty, NameMap.isEmpty, List.isEmpty_iff] at hs
    rw [LoadCase.entries, hs] at he
    cases he

theorem HasNaN.product {a b p : Alternative} (h : a.HasNaN ∨ b.HasNaN)
    (hp : a.product? b = some p) : p.HasNaN := by
  unfold product? at hp
  split at hp
  · rename_i hs
    cases hp
    obtain h | h := h
    · exact hasNaN_scaled_of_isNaN b (isNaN_of_isScalar hs h)
    · exact h.scaled _
  · split at hp
    · rename_i hs
      cases hp
      obtain h | h := h
      · exact h.scaled _
      · exact hasNaN_scaled_of_isNaN a (isNaN_of_isScalar hs h)
    · cases hp

end Alternative

end DesignLoads
