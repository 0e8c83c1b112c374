import DesignLoads.Proofs.FirstOccurrences
import DesignLoads.Proofs.Formula.Expansion

/-! Operands that are alike give sums, products and choices that are alike, or fail alike. A zip
looks at the numbers and the places of its operands, and so does not belong here. -/

namespace DesignLoads

/-- Both fail, or both give alternatives that are alike. -/
inductive Agree : Except Failure (List Alternative) → Except Failure (List Alternative) → Prop where
  | ok {as bs : List Alternative} (h : Alternative.Alike as bs) : Agree (.ok as) (.ok bs)
  | error (e e' : Failure) : Agree (.error e) (.error e')

namespace Agree

variable {x y x' y' : Except Failure (List Alternative)}

theorem bind (h : Agree x y) {f g : List Alternative → Except Failure (List Alternative)}
    (hfg : ∀ as bs, Alternative.Alike as bs → Agree (f as) (g bs)) : Agree (x >>= f) (y >>= g) := by
  cases h with
  | ok h => exact hfg _ _ h
  | error e e' => exact .error e e'

theorem bind₂ (h : Agree x y) (h' : Agree x' y')
    {f g : List Alternative → List Alternative → Except Failure (List Alternative)}
    (hfg : ∀ {as as' bs bs'}, Alternative.Alike as as' → Alternative.Alike bs bs' →
      Agree (f as bs) (g as' bs')) :
    Agree (x >>= fun as => x' >>= fun bs => f as bs) (y >>= fun as => y' >>= fun bs => g as bs) :=
  h.bind fun _ _ ha => h'.bind fun _ _ hb => hfg ha hb

theorem map_distinct (h : Agree x y) : Agree x (y.map Alternative.distinct) := by
  cases h with
  | ok h => exact .ok h.distinct
  | error e e' => exact .error e e'

theorem isOk_iff (h : Agree x y) : x.isOk ↔ y.isOk := by
  cases h <;> exact Iff.rfl

theorem of_ok {as : List Alternative} (h : Agree (.ok as) y) :
    ∃ bs, y = .ok bs ∧ Alternative.Alike as bs := by
  cases h with
  | ok h => exact ⟨_, rfl, h⟩

end Agree

namespace Alternative

variable {as bs as' bs' : List Alternative} {rule rule' : String}

theorem sums_none : sums none as bs = .ok (as.flatMap fun a => bs.map a.merged) := by
  change Except.ok ((pairs as bs).map fun p => p.1.merged p.2) = _
  rw [pairs, List.map_flatMap]
  simp only [List.map_map]
  rfl

theorem Alike.sums (h : Alike as as') (h' : Alike bs bs') :
    Agree (sums none as bs) (sums none as' bs') := by
  rw [sums_none, sums_none]
  apply Agree.ok
  apply h.pairs h'
  intro a _ b _ hn
  obtain hn | hn := hn
  · exact hn.merged_left b
  · exact hn.merged_right a

theorem Alike.choices (h : Alike as as') (h' : Alike bs bs') :
    Agree (choices none as bs) (choices none as' bs') :=
  .ok (h.append h')

/-- The product of a pair, or the complaint that both carry loads. -/
def productOf (rule : String) (x : Alternative × Alternative) : Except Failure Alternative :=
  match x.1.product? x.2 with
  | some p => .ok p
  | none => .error (.nonLinearProduct rule)

theorem products_none : products none rule as bs = (pairs as bs).mapM (productOf rule) := rfl

theorem mem_pairs {a b : Alternative} : (a, b) ∈ pairs as bs ↔ a ∈ as ∧ b ∈ bs := by
  simp [pairs]

/-- Products exist if no two alternatives on the two sides both carry loads. -/
theorem products_none_of_linear (h : ∀ a ∈ as, ∀ b ∈ bs, (a.product? b).isSome) :
    products none rule as bs =
      .ok (as.flatMap fun a => bs.map fun b => (a.product? b).getD default) := by
  have hproducts : products none rule as bs =
      .ok ((pairs as bs).map fun x => (x.1.product? x.2).getD default) := by
    apply products_eq rfl
    rintro ⟨a, b⟩ hx
    obtain ⟨ha, hb⟩ := mem_pairs.mp hx
    obtain ⟨p, hp⟩ := Option.isSome_iff_exists.mp (h a ha b hb)
    rw [hp, Option.getD_some]
  rw [hproducts, pairs, List.map_flatMap]
  simp only [List.map_map]
  rfl

theorem products_none_of_not_linear (h : ¬ ∀ a ∈ as, ∀ b ∈ bs, (a.product? b).isSome) :
    ∃ e, products none rule as bs = .error e := by
  rw [products_none]
  cases hp : (pairs as bs).mapM (productOf rule) with
  | error e => exact ⟨e, rfl⟩
  | ok cs =>
    exfalso
    apply h
    intro a ha b hb
    obtain ⟨p, hab⟩ := mapM_ok_of_mem hp (a, b) (mem_pairs.mpr ⟨ha, hb⟩)
    unfold productOf at hab
    split at hab
    · rename_i q hq
      rw [hq]
      rfl
    · cases hab

theorem Alike.products (h : Alike as as') (h' : Alike bs bs') :
    Agree (products none rule as bs) (products none rule' as' bs') := by
  -- whether products exist is seen from the alternatives, without their order or number
  by_cases hl : ∀ a ∈ as, ∀ b ∈ bs, (a.product? b).isSome
  · have hl' : ∀ a ∈ as', ∀ b ∈ bs', (a.product? b).isSome :=
      fun a ha b hb => hl a ((h.mem a).mpr ha) b ((h'.mem b).mpr hb)
    rw [products_none_of_linear hl, products_none_of_linear hl']
    apply Agree.ok
    apply h.pairs h'
    intro a ha b hb hn
    obtain ⟨p, hp⟩ := Option.isSome_iff_exists.mp (hl a ha b hb)
    rw [hp, Option.getD_some]
    exact HasNaN.product hn hp
  · have hl' : ¬ ∀ a ∈ as', ∀ b ∈ bs', (a.product? b).isSome :=
      fun hall => hl fun a ha b hb => hall a ((h.mem a).mp ha) b ((h'.mem b).mp hb)
    obtain ⟨e, he⟩ := products_none_of_not_linear hl
    obtain ⟨e', he'⟩ := products_none_of_not_linear hl'
    rw [he, he']
    exact .error e e'

end Alternative

end DesignLoads
