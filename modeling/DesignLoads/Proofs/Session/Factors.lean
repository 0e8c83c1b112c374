import DesignLoads.Proofs.Formula.Commutation
import DesignLoads.Proofs.Session.Expansion

/-! Factors. A number that scales a formula, a number that is multiplied with it from either side,
and a rule that is such a number all give the same alternatives, or the same failure. -/

namespace DesignLoads

namespace Alternative

variable {limit : Option Nat} {rule : String} {as : List Alternative}

/-- To scale by a zero, its sign makes no difference. -/
theorem scaled_unsignedZero (a : Alternative) (x : Float) :
    a.scaled (unsignedZero x) = a.scaled x := by
  rw [scaled, unsignedZero_mul_unsignedZero, LoadCase.scaled_unsignedZero, scaled]

theorem scalar_product (x : Float) (a : Alternative) :
    (scalar x).product? a = some (a.scaled x) := by
  rw [← scaled_unsignedZero]
  exact if_pos rfl

theorem product_scalar (a : Alternative) (x : Float) :
    a.product? (scalar x) = some (a.scaled x) := by
  rw [product?_comm, scalar_product]

theorem products_scalar_left (x : Float) (h : checkCount limit as.length = .ok ()) :
    products limit rule [scalar x] as = .ok (as.map (·.scaled x)) := by
  have hpairs : pairs [scalar x] as = as.map fun a => (scalar x, a) := by simp [pairs]
  have hproducts : products limit rule [scalar x] as =
      .ok ((pairs [scalar x] as).map fun p => p.2.scaled x) := by
    apply products_eq
    · rwa [List.length_singleton, Nat.one_mul]
    · intro p hp
      rw [hpairs] at hp
      obtain ⟨a, _, rfl⟩ := List.mem_map.mp hp
      exact scalar_product x a
  rw [hproducts, hpairs, List.map_map]
  rfl

theorem products_scalar_right (x : Float) (h : checkCount limit as.length = .ok ()) :
    products limit rule as [scalar x] = .ok (as.map (·.scaled x)) := by
  have hpairs : pairs as [scalar x] = as.map fun a => (a, scalar x) := by
    simp [pairs, List.map_eq_flatMap]
  have hproducts : products limit rule as [scalar x] =
      .ok ((pairs as [scalar x]).map fun p => p.1.scaled x) := by
    apply products_eq
    · rwa [List.length_singleton, Nat.mul_one]
    · intro p hp
      rw [hpairs] at hp
      obtain ⟨a, _, rfl⟩ := List.mem_map.mp hp
      exact product_scalar a x
  rw [hproducts, hpairs, List.map_map]
  rfl

end Alternative

namespace Formula

variable {env : Surroundings (Except Failure)} {e g : Formula} {f : Factor} {x : Float}

theorem expand_scale (hf : f.value = .ok x) :
    (scale e f).expand env = (e.expand env).map (·.map (·.scaled x)) := by
  rw [expand, hf]
  cases e.expand env <;> rfl

/-- What has a number as its only alternative scales the other factor of a product. -/
theorem expand_product_left (hf : f.value = .ok x) (hg : g.expand env = .ok [.scalar x])
    (hcount : ∀ as, e.expand env = .ok as →
      Alternative.checkCount env.limit as.length = .ok ()) :
    (product g e).expand env = (scale e f).expand env := by
  rw [expand_scale hf]
  exact expand_of_left rfl hg fun as has => Alternative.products_scalar_left x (hcount as has)

theorem expand_product_right (hf : f.value = .ok x) (hg : g.expand env = .ok [.scalar x])
    (hcount : ∀ as, e.expand env = .ok as →
      Alternative.checkCount env.limit as.length = .ok ()) :
    (product e g).expand env = (scale e f).expand env := by
  rw [expand_scale hf]
  exact expand_of_right rfl hg fun as has => Alternative.products_scalar_right x (hcount as has)

theorem expand_number (hf : f.value = .ok x) : (number f).expand env = .ok [.scalar x] := by
  rw [expand, hf]
  rfl

end Formula

namespace Rulebook

variable {book : Rulebook} {name : String} {rule : Rule} {f : Factor} {x : Float}

/-- A rule that is a number has that number as its only alternative. -/
theorem recompute_of_number {stack : List String} (hr : book.rule? name = some rule)
    (hnumber : rule.formula = .number f) (hf : f.value = .ok x) (hs : name ∉ stack) :
    book.recompute stack name = .ok [.scalar x] := by
  rw [recompute_of_not_mem hr hs, hnumber, Formula.expand_number hf]
  exact congrArg Except.ok (distinct_singleton _ _)

end Rulebook

namespace Session

variable {s : Session}

/-- A number that scales a formula, the number times the formula or the formula times the number,
and the same with the name of a rule that is this number: all have the same alternatives, or fail
with the same failure, if the limit is one or more, or none. -/
theorem expansion_factor [RegexLibrary] {lines baseCases : List String} {settings : Settings}
    (h : ofLines lines baseCases settings = .ok s)
    (hlimit : ∀ l, settings.maxAlternatives = some l → 1 ≤ l) (calls : List Call)
    {f : Factor} {x : Float} (hf : f.value = .ok x) {name : String} {number : Rule}
    (hr : s.book.rule? name = some number) (hnumber : number.formula = .number f)
    (rule : String) (e : Formula) :
    ∀ g ∈ [Formula.product (.number f) e, .product e (.number f), .product (.ref name) e,
        .product e (.ref name)],
      (s.after calls).expansion rule g = (s.after calls).expansion rule (.scale e f) := by
  have hbook : ∀ l, s.book.settings.maxAlternatives = some l → 1 ≤ l := by
    rwa [(opened h).settings]
  have hcount : ∀ as, e.expand (s.book.surroundings rule (s.book.recompute [])) = .ok as →
      Alternative.checkCount s.book.settings.maxAlternatives as.length = .ok () :=
    fun as has => Rulebook.checkCount_expand hbook has
  have hname : (Formula.ref name).expand (s.book.surroundings rule (s.book.recompute [])) =
      .ok [.scalar x] := Rulebook.recompute_of_number hr hnumber hf (by simp)
  intro g hg
  rw [expansion_after h, expansion_after h]
  simp only [List.mem_cons, List.not_mem_nil, or_false] at hg
  obtain rfl | rfl | rfl | rfl := hg
  · exact Formula.expand_product_left hf (Formula.expand_number hf) hcount
  · exact Formula.expand_product_right hf (Formula.expand_number hf) hcount
  · exact Formula.expand_product_left hf hname hcount
  · exact Formula.expand_product_right hf hname hcount

attribute [local instance] Regex.library

/-- A zero with a sign, as a factor of two loads and a number. -/
theorem expansion_factor_of_zero : ∃ s x,
    ofLines ["k = -0", "w = g | q"] ["g", "q"] ⟨some 3, false⟩ = .ok s ∧
    (Factor.neg (.number 0)).value = .ok x ∧
    s.book.rule? "k" = some ⟨"k", "k = -0", .number (.neg (.number 0))⟩ ∧
    ∀ g ∈ [Formula.product (.number (.neg (.number 0))) (.choice (.ref "w") (.number (.number 2))),
        .product (.choice (.ref "w") (.number (.number 2))) (.number (.neg (.number 0))),
        .product (.ref "k") (.choice (.ref "w") (.number (.number 2))),
        .product (.choice (.ref "w") (.number (.number 2))) (.ref "k")],
      (s.after [.resolve "w"]).expansion "T" g = (s.after [.resolve "w"]).expansion "T"
        (.scale (.choice (.ref "w") (.number (.number 2))) (.neg (.number 0))) := by
  obtain ⟨s, hs, hrules⟩ : ∃ s,
      ofLines ["k = -0", "w = g | q"] ["g", "q"] ⟨some 3, false⟩ = .ok s ∧
      s.book.rules = [⟨"k", "k = -0", .number (.neg (.number 0))⟩,
        ⟨"w", "w = g | q", .choice (.ref "g") (.ref "q")⟩] :=
    exists_of_opensWith (by decide +kernel)
  have hk : s.book.rule? "k" = some ⟨"k", "k = -0", .number (.neg (.number 0))⟩ := by
    rw [Rulebook.rule?_eq_find?, hrules]
    rfl
  have hlimit : ∀ l, (some 3 : Option Nat) = some l → 1 ≤ l := by
    rintro l ⟨⟩
    decide
  have hvalue : (Factor.neg (.number 0)).value = .ok (-0) := by decide +kernel
  exact ⟨s, -0, hs, hvalue, hk, expansion_factor hs hlimit [.resolve "w"] hvalue hk rfl "T" _⟩

end Session

end DesignLoads
