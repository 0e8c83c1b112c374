import DesignLoads.Proofs.Formula.Agreement
import DesignLoads.Proofs.LoadCase

/-! Operands in the other order. The sum and the product of two alternatives are the same in either
order; so sums, products and choices list the same alternatives in another order, and a zip lists
them in the same order. -/

namespace DesignLoads

namespace Alternative

theorem merged_comm (a b : Alternative) : a.merged b = b.merged a := by
  rw [merged, merged, add_comm_float, LoadCase.merged_comm]

/-- Which side is the number is seen from the alternatives, whatever their order. Of two numbers
either one scales the other. -/
theorem product?_comm (a b : Alternative) : a.product? b = b.product? a := by
  unfold product?
  by_cases ha : a.isScalar = true
  · by_cases hb : b.isScalar = true
    · rw [if_pos ha, if_pos hb, scaled, scaled, mul_comm_float, case_of_isScalar ha,
        case_of_isScalar hb, LoadCase.scaled_empty, LoadCase.scaled_empty]
    · rw [if_pos ha, if_neg hb, if_pos ha]
  · by_cases hb : b.isScalar = true
    · rw [if_neg ha, if_pos hb, if_pos hb]
    · rw [if_neg ha, if_neg hb, if_neg hb, if_neg ha]

theorem productOf_swap (rule : String) (x : Alternative × Alternative) :
    productOf rule x.swap = productOf rule x := by
  rw [productOf, productOf, Prod.fst_swap, Prod.snd_swap, product?_comm]

/-- All pairs, row by row or column by column. -/
theorem pairs_swap_perm {α : Type} (as bs : List α) :
    ((pairs as bs).map Prod.swap).Perm (pairs bs as) := by
  have hswap := Multiset.map_swap_product (as : Multiset α) (bs : Multiset α)
  rw [Multiset.coe_product, Multiset.coe_product, Multiset.map_coe] at hswap
  exact Multiset.coe_eq_coe.mp hswap

variable (limit : Option Nat) (rule : String) (as bs : List Alternative)

theorem sums_comm : Together List.Perm (sums limit as bs) (sums limit bs as) := by
  rw [sums, sums, Nat.mul_comm]
  apply Together.bind_self
  intro _
  apply Together.ok
  have hswap := (pairs_swap_perm as bs).map fun x => x.1.merged x.2
  rw [List.map_map] at hswap
  refine List.Perm.trans (List.Perm.of_eq ?_) hswap
  apply List.map_congr_left
  rintro ⟨a, b⟩ _
  exact merged_comm a b

theorem products_comm :
    Together List.Perm (products limit rule as bs) (products limit rule bs as) := by
  rw [products, products, Nat.mul_comm]
  apply Together.bind_self
  intro _
  have hswap : (pairs as bs).mapM (productOf rule) =
      ((pairs as bs).map Prod.swap).mapM (productOf rule) := by
    rw [List.mapM_map]
    exact congrArg ((pairs as bs).mapM ·) (funext fun x => (productOf_swap rule x).symm)
  change Together List.Perm ((pairs as bs).mapM (productOf rule)) _
  rw [hswap]
  exact Together.mapM_perm (pairs_swap_perm as bs)

theorem choices_comm : Together List.Perm (choices limit as bs) (choices limit bs as) := by
  rw [choices, choices, Nat.add_comm]
  apply Together.bind_self
  intro _
  exact .ok List.perm_append_comm

/-- A single alternative on the left is added to each one on the right. -/
theorem zips_singleton_left (a : Alternative) : zips [a] bs = .ok (bs.map a.merged) := by
  unfold zips
  split
  · rename_i hlen
    obtain ⟨b, rfl⟩ := List.length_eq_one_iff.mp hlen.symm
    rfl
  · rfl

theorem zips_singleton_right (b : Alternative) : zips as [b] = .ok (as.map (merged · b)) := by
  unfold zips
  split
  · rename_i hlen
    obtain ⟨a, rfl⟩ := List.length_eq_one_iff.mp hlen
    rfl
  · rename_i hne
    split
    · exact absurd rfl hne
    · rename_i heq
      cases heq
      rfl
    · rename_i hmany
      exact absurd rfl (hmany b)

theorem zips_comm : Together Eq (zips as bs) (zips bs as) := by
  cases hz : zips as bs with
  | error e =>
    obtain ⟨⟨hne, hleft, hright⟩, rfl⟩ := zips_error_iff.mp hz
    rw [zips_error_iff.mpr ⟨⟨hne.symm, hright, hleft⟩, rfl⟩]
    exact .error _ _
  | ok cs =>
    have hcomm (a : Alternative) : a.merged = (merged · a) := funext (merged_comm a)
    obtain ⟨hlen, rfl⟩ | ⟨_, a, rfl, rfl⟩ | ⟨_, _, b, rfl, rfl⟩ := zips_cases hz
    · have hswap : zips bs as = .ok (bs.zipWith merged as) := if_pos hlen.symm
      rw [hswap, List.zipWith_comm_of_comm merged_comm]
      exact .ok rfl
    -- the single alternative is now on the other side
    · rw [zips_singleton_right, hcomm]
      exact .ok rfl
    · rw [zips_singleton_left, hcomm]
      exact .ok rfl

end Alternative

namespace Formula

/-- A formula with the operands of its outermost operator in the other order. -/
def swapped : Formula → Formula
  | sum a b => sum b a
  | product a b => product b a
  | zip a b => zip b a
  | choice a b => choice b a
  | f => f

theorem swapped_swapped (f : Formula) : f.swapped.swapped = f := by
  cases f <;> rfl

variable {env : Surroundings (Except Failure)}

/-- Both operands are expanded, so that either of them fails the formula in either place. -/
theorem expand_comm {R : List Alternative → List Alternative → Prop} {f g a b : Formula}
    (hf : f.operands = some (a, b)) (hg : g.operands = some (b, a))
    (hcombine : ∀ as bs, Together R (f.combine env.limit env.rule as bs)
      (g.combine env.limit env.rule bs as)) : Together R (f.expand env) (g.expand env) := by
  rw [expand_of_operands env hf, expand_of_operands env hg]
  simp only [liftExcept_eq_self]
  cases a.expand env with
  | error e =>
    cases b.expand env with
    | error e' => exact .error e e'
    | ok bs => exact .error e e
  | ok as =>
    cases b.expand env with
    | error e => exact .error e e
    | ok bs => exact hcombine as bs

theorem expand_swapped (f : Formula) :
    Together List.Perm (f.expand env) (f.swapped.expand env) := by
  cases f with
  | sum a b => exact expand_comm rfl rfl (Alternative.sums_comm _)
  | product a b => exact expand_comm rfl rfl (Alternative.products_comm _ _)
  | choice a b => exact expand_comm rfl rfl (Alternative.choices_comm _)
  | zip a b =>
    apply expand_comm rfl rfl
    intro as bs
    exact (Alternative.zips_comm as bs).mono fun _ _ => List.Perm.of_eq
  | _ => exact Together.refl List.Perm.refl _

end Formula

end DesignLoads
