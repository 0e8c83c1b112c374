import DesignLoads.Proofs.Decimal.Magnitude
import DesignLoads.Proofs.Session.Overflow

/-! Rules that are safe from overflow. The exponents of the factors tell how great the coefficients
of a formula can become: those of a product are added, a sum has one more than its terms. A rule is
safe if this bound, with the bounds of the rules it refers to, stays below the greatest exponent. -/

namespace DesignLoads

namespace LoadCase

variable {a b c : LoadCase} {k l : ℕ} {x : Float}

/-- No coefficient goes beyond a power of two. -/
def Within (k : ℕ) (c : LoadCase) : Prop := ∀ e ∈ c.entries, DesignLoads.Within k e.2

theorem within_iff : c.Within k ↔ ∀ name, DesignLoads.Within k (c.get name) :=
  forall_entries_iff (P := DesignLoads.Within k) (within_zero .positive)

theorem Within.mono (h : c.Within k) (hkl : k ≤ l) : c.Within l := fun e he => (h e he).mono hkl

theorem Within.scaled (h : c.Within k) (hx : DesignLoads.Within l x) (hkl : k + l ≤ 1023) :
    (c.scaled x).Within (k + l) := by
  intro e he
  rw [entries_scaled] at he
  obtain ⟨d, hd, rfl⟩ := List.mem_map.mp (List.mem_filter.mp he).1
  exact (h d hd).mul hx hkl

theorem Within.merged (ha : a.Within k) (hb : b.Within k) (hk : k + 1 ≤ 1023) :
    (a.merged b).Within (k + 1) := by
  rw [within_iff] at ha hb ⊢
  intro name
  rw [get_merged]
  exact ((ha name).add (hb name) hk).unsignedZero

end LoadCase

namespace Alternative

variable {a b p : Alternative} {k l : ℕ} {x : Float}

/-- Neither the number nor any coefficient goes beyond a power of two. -/
structure Within (k : ℕ) (a : Alternative) : Prop where
  constant : DesignLoads.Within k a.constant
  case : a.case.Within k

theorem Within.finite (h : a.Within k) : a.Finite :=
  ⟨h.constant.isFinite, fun e he => (h.case e he).isFinite⟩

theorem Within.mono (h : a.Within k) (hkl : k ≤ l) : a.Within l :=
  ⟨h.constant.mono hkl, h.case.mono hkl⟩

theorem within_scalar (h : DesignLoads.Within k x) : (scalar x).Within k :=
  ⟨h.unsignedZero,
    by simp [scalar, LoadCase.Within, LoadCase.empty, LoadCase.entries, NameMap.empty]⟩

theorem within_one : DesignLoads.Within 0 1 := within_exponent (x := 1) (by decide)

theorem within_neg_one : DesignLoads.Within 0 (-1) := by
  have hzero : exponent (-1) = 0 := by decide +kernel
  have hself := within_exponent (x := -1) (by decide)
  rwa [hzero] at hself

theorem within_atomic (name : String) : (atomic name).Within 0 := by
  refine ⟨within_zero .positive, ?_⟩
  rw [atomic, load, LoadCase.Within, LoadCase.entries_single (by decide)]
  exact List.forall_mem_singleton.mpr within_one

theorem Within.scaled (h : a.Within k) (hx : DesignLoads.Within l x) (hkl : k + l ≤ 1023) :
    (a.scaled x).Within (k + l) :=
  ⟨(h.constant.mul hx hkl).unsignedZero, h.case.scaled hx hkl⟩

theorem Within.opposite (h : a.Within k) (hk : k ≤ 1023) : (a.scaled (-1)).Within k :=
  h.scaled within_neg_one hk

theorem Within.sum (ha : a.Within k) (hb : b.Within l) (hkl : max k l + 1 ≤ 1023) :
    (a.merged b).Within (max k l + 1) := by
  have ha := ha.mono (le_max_left k l)
  have hb := hb.mono (le_max_right k l)
  exact ⟨(ha.constant.add hb.constant hkl).unsignedZero, ha.case.merged hb.case hkl⟩

theorem Within.product (ha : a.Within k) (hb : b.Within l) (hkl : k + l ≤ 1023)
    (h : a.product? b = some p) : p.Within (k + l) := by
  refine forall_product ha hb (fun a b ha hb _ => ?_) (fun a b ha hb _ => ?_) h
  · rw [Nat.add_comm] at hkl ⊢
    exact hb.scaled ha.constant hkl
  · exact ha.scaled hb.constant hkl

end Alternative

/-- An exponent of two that the value of a factor does not go beyond. -/
def Factor.exponent (f : Factor) : ℕ :=
  match f.value with
  | .ok x => DesignLoads.exponent x
  | .error _ => 0

theorem Factor.within_value {f : Factor} {x : Float} (h : f.value = .ok x) :
    Within f.exponent x := by
  rw [exponent, h]
  exact within_exponent (isFinite_value h)

namespace Formula

/-- An exponent of two that no coefficient of a formula goes beyond, where `bound` has one for every
name: those of factors are added, and the sum of two terms has one more than the greater. -/
def exponent (family : String → List String) (bound : String → ℕ) : Formula → ℕ
  | .ref name => bound name
  | .family stem => ((family stem).map bound).foldr max 0
  | .number f => f.exponent
  | .scale a f => a.exponent family bound + f.exponent
  | .neg a => a.exponent family bound
  | .sum a b | .zip a b => max (a.exponent family bound) (b.exponent family bound) + 1
  | .product a b => a.exponent family bound + b.exponent family bound
  | .choice a b => max (a.exponent family bound) (b.exponent family bound)

variable {env : Surroundings (Except Failure)} {bound : String → ℕ}

theorem le_foldr_max {n : String} {names : List String} (hn : n ∈ names) :
    bound n ≤ (names.map bound).foldr max 0 := by
  induction names with
  | nil => cases hn
  | cons m ms ih =>
    obtain rfl | hn := List.mem_cons.mp hn
    · exact le_max_left _ _
    · exact (ih hn).trans (le_max_right _ _)

theorem exponent_of_operands (family : String → List String) (bound : String → ℕ)
    {f a b : Formula} (h : f.operands = some (a, b)) :
    a.exponent family bound ≤ f.exponent family bound ∧
      b.exponent family bound ≤ f.exponent family bound := by
  cases f with
  | sum | product | zip | choice =>
    cases h
    simp only [exponent]
    omega
  | _ => cases h

/-- The coefficients of a formula stay within its exponent if those of its names stay within
theirs. -/
theorem within_of_expand {f : Formula} {as : List Alternative}
    (hrefer : ∀ n ∈ f.names env.family, ∀ bs, env.refer n = .ok bs → ∀ b ∈ bs, b.Within (bound n))
    (hbound : f.exponent env.family bound ≤ 1023) (h : f.expand env = .ok as) :
    ∀ a ∈ as, a.Within (f.exponent env.family bound) := by
  induction f using operand_induction generalizing as with
  | ref name => exact hrefer name (List.mem_singleton.mpr rfl) as h
  | family stem =>
    refine expandNames_forall (by simp) (fun n hn bs hbs b hb => ?_) h
    exact (hrefer n hn bs hbs b hb).mono (le_foldr_max hn)
  | number f =>
    obtain ⟨x, hx, h⟩ := bind_eq_ok_iff.mp h
    rw [liftExcept_eq_self] at hx
    cases h
    exact List.forall_mem_singleton.mpr (Alternative.within_scalar (Factor.within_value hx))
  | scale a f ih =>
    obtain ⟨x, hx, h⟩ := bind_eq_ok_iff.mp h
    obtain ⟨bs, hbs, h⟩ := bind_eq_ok_iff.mp h
    rw [liftExcept_eq_self] at hx
    cases h
    have ha := ih hrefer (Nat.le_trans (Nat.le_add_right _ _) hbound) hbs
    exact List.forall_mem_map.mpr fun b hb => (ha b hb).scaled (Factor.within_value hx) hbound
  | neg a ih =>
    obtain ⟨bs, hbs, h⟩ := bind_eq_ok_iff.mp h
    cases h
    have ha := ih hrefer hbound hbs
    exact List.forall_mem_map.mpr fun b hb => (ha b hb).opposite hbound
  | binary f a b hab iha ihb =>
    rw [names_of_operands _ hab] at hrefer
    rw [expand_of_operands _ hab] at h
    obtain ⟨bs, hbs, h⟩ := bind_eq_ok_iff.mp h
    obtain ⟨cs, hcs, h⟩ := bind_eq_ok_iff.mp h
    rw [liftExcept_eq_self] at h
    have hle := exponent_of_operands env.family bound hab
    have ha := iha (fun n hn => hrefer n (List.mem_append_left _ hn)) (by omega) hbs
    have hb := ihb (fun n hn => hrefer n (List.mem_append_right _ hn)) (by omega) hcs
    cases f with
    | sum =>
      cases hab
      exact Alternative.forall_sums ha hb (fun _ _ ha hb => ha.sum hb hbound) h
    | zip =>
      cases hab
      exact Alternative.forall_zips ha hb (fun _ _ ha hb => ha.sum hb hbound) h
    | product =>
      cases hab
      exact Alternative.forall_products ha hb (fun _ _ _ ha hb => ha.product hb hbound) h
    | choice =>
      cases hab
      exact Alternative.forall_choices (fun c hc => (ha c hc).mono (le_max_left _ _))
        (fun c hc => (hb c hc).mono (le_max_right _ _)) h
    | _ => cases hab

end Formula

namespace Rulebook

variable {book : Rulebook} {stack : List String} {name : String} {bound : String → ℕ}

/-- Every rule that a name reaches has a bound that its formula keeps to, below the greatest
exponent. -/
def Safe (book : Rulebook) (bound : String → ℕ) (name : String) : Prop :=
  ∀ r rule, book.Reaches name r → book.rule? r = some rule →
    rule.formula.exponent book.extending bound ≤ bound r ∧ bound r ≤ 1023

/-- The coefficients of a safe rule stay within its bound. -/
theorem within_of_recompute (hsafe : book.Safe bound name) {as : List Alternative}
    (h : book.recompute stack name = .ok as) : ∀ a ∈ as, a.Within (bound name) := by
  induction stack, name using recompute.induct book generalizing as with
  | case1 stack name hr =>
    rw [recompute_of_none hr] at h
    cases h
    exact List.forall_mem_singleton.mpr ((Alternative.within_atomic name).mono (Nat.zero_le _))
  | case2 stack name rule hr hs =>
    rw [recompute_of_mem hr hs] at h
    cases h
  | case3 stack name rule hr hs ih =>
    obtain ⟨hbound, hmost⟩ := hsafe name rule Relation.ReflTransGen.refl hr
    obtain ⟨bs, hbs, _, rfl⟩ := expand_of_recompute hr h
    have hbelow (n : String) (hn : n ∈ rule.formula.names book.extending) : book.Safe bound n := by
      intro r below hreach hbelow
      exact hsafe r below (hreach.head_of_mem hr hn (isRule_iff.mpr ⟨below, hbelow⟩)) hbelow
    have hall := Formula.within_of_expand (fun n hn cs hcs => ih n (hbelow n hn) hcs)
      (hbound.trans hmost) hbs
    intro a ha
    exact (hall a (mem_distinct.mp ha)).mono hbound

end Rulebook

/-- What a safe rule resolves to is finite, after any calls: none of its sums and products can
overflow. -/
theorem Session.finite_of_safe [RegexLibrary] {s : Session} {lines baseCases : List String}
    {settings : Settings} (h : ofLines lines baseCases settings = .ok s) (calls : List Call)
    {name : String} {bound : String → ℕ} (hsafe : s.book.Safe bound name) {c : Combination}
    (hc : ((s.after calls).ask fun b => b.resolve name).1 = .ok c) :
    ∀ a ∈ c.alternatives, a.Finite := by
  have hcases := loadCasesAnew_of_resolve h calls hc
  rw [Rulebook.loadCasesAnew] at hcases
  split at hcases
  · obtain ⟨as, has, hcases⟩ := bind_eq_ok_iff.mp hcases
    rw [Rulebook.finite_loadCases_iff hcases]
    exact fun a ha => (Rulebook.within_of_recompute hsafe has a ha).finite
  · rw [← Except.ok.inj hcases]
    exact List.forall_mem_singleton.mpr (Alternative.finite_atomic name).case

/-- A load that is scaled twice leaves room for the sum with another. -/
example : (Formula.sum (.scale (.ref "g") (.number 1.35))
    (.scale (.scale (.ref "q") (.number 1e100)) (.number 1e200))).exponent (fun _ => [])
      (fun _ => 0) = 999 := by decide +kernel

end DesignLoads
