import DesignLoads.Proofs.NotANumber
import Mathlib.Data.Prod.Lex
import Mathlib.Order.Compare

/-! The order of numbers. But for NaN, numbers are ordered as their ranks are, and the ranks are in
a linear order; the two zeros have one rank. -/

namespace DesignLoads

open Float.Model (UnpackedFloat)

/-- What an unpacked number is ordered by: its sign and whether it is infinite, then its exponent,
then its mantissa. -/
def unpackedRank : UnpackedFloat → ℤ ×ₗ ℤ ×ₗ ℤ
  | .infinity .negative => toLex (-2, toLex (0, 0))
  | .finite .negative m e _ => toLex (-1, toLex (-e, -m))
  | .zero _ => toLex (0, toLex (0, 0))
  | .finite .positive m e _ => toLex (1, toLex (e, m))
  | .infinity .positive => toLex (2, toLex (0, 0))
  | .notANumber => toLex (3, toLex (0, 0))

def rank (x : Float) : ℤ ×ₗ ℤ ×ₗ ℤ := unpackedRank x.toModel.unpack

theorem compare_neg_int (a b : ℤ) : compare (-a) (-b) = (compare a b).swap := by
  have hanti : StrictAnti fun a : ℤ => -a := fun a b h => Int.neg_lt_neg h
  have hcmp := hanti.cmp_map_eq a b
  rw [cmp_eq_compare, cmp_eq_compare] at hcmp
  rw [hcmp, @Std.OrientedCmp.eq_swap ℤ compare]

theorem compare_natCast (m n : ℕ) : compare (m : ℤ) n = compare m n := by
  have hmono : StrictMono fun m : ℕ => (m : ℤ) := fun m n h => Int.ofNat_lt.mpr h
  have hcmp := hmono.cmp_map_eq m n
  rwa [cmp_eq_compare, cmp_eq_compare] at hcmp

theorem compare_pair {α β : Type} [Ord α] [Ord β] (a b : α) (c d : β) :
    compare (toLex (a, c)) (toLex (b, d)) = (compare a b).then (compare c d) := by
  rw [Prod.Lex.compare_def]
  rfl

/-- Exponents come first, and mantissas decide between equal ones. -/
theorem compare_positive (e f : ℤ) (m n : ℕ) :
    compare (toLex (1, toLex (e, (m : ℤ)))) (toLex ((1 : ℤ), toLex (f, (n : ℤ)))) =
      (compare e f).then (compare m n) := by
  rw [compare_pair, compare_pair, compare_natCast]
  rfl

theorem compare_negative (e f : ℤ) (m n : ℕ) :
    compare (toLex (-1, toLex (-e, -(m : ℤ)))) (toLex ((-1 : ℤ), toLex (-f, -(n : ℤ)))) =
      ((compare e f).then (compare m n)).swap := by
  rw [compare_pair, compare_pair, compare_neg_int e f, compare_neg_int m n, compare_natCast,
    Ordering.swap_then]
  rfl

theorem compare_unpacked {u w : UnpackedFloat} (hu : u ≠ .notANumber) (hw : w ≠ .notANumber) :
    u.compare w = some (compare (unpackedRank u) (unpackedRank w)) := by
  -- signs and kinds decide, but between two finite numbers of one sign
  rcases u with (_ | _) | _ | s | ⟨_ | _, m, e, hm⟩ <;>
    rcases w with (_ | _) | _ | t | ⟨_ | _, n, f, hn⟩ <;> 
    first
    | rfl
    | exact absurd rfl hu
    | exact absurd rfl hw
    | exact congrArg some (compare_positive e f m n).symm
    | exact congrArg some (compare_negative e f m n).symm

section Float

variable {x y : Float}

theorem unpack_ne_notANumber (hx : ¬ x.isNaN) : x.toModel.unpack ≠ .notANumber :=
  fun h => hx (isNaN_iff.mpr h)

theorem lt_iff_rank (hx : ¬ x.isNaN) (hy : ¬ y.isNaN) : x < y ↔ rank x < rank y := by
  have hlt : x < y ↔ x.toModel.unpack.lt y.toModel.unpack = true := by
    change decide (_ < _) = true ↔ _
    rw [decide_eq_true_iff]
    exact Iff.rfl
  rw [hlt, UnpackedFloat.lt, compare_unpacked (unpack_ne_notANumber hx) (unpack_ne_notANumber hy),
    beq_iff_eq, Option.some.injEq, compare_lt_iff_lt]
  exact Iff.rfl

theorem le_iff_rank (hx : ¬ x.isNaN) (hy : ¬ y.isNaN) : x ≤ y ↔ rank x ≤ rank y := by
  have hle : x ≤ y ↔ x.toModel.unpack.le y.toModel.unpack = true := by
    change decide (_ ≤ _) = true ↔ _
    rw [decide_eq_true_iff]
    exact Iff.rfl
  rw [hle, UnpackedFloat.le, compare_unpacked (unpack_ne_notANumber hx) (unpack_ne_notANumber hy),
    Option.any_some, ← compare_le_iff_le]
  exact Ordering.isLE_iff_ne_gt

end Float

end DesignLoads
