import DesignLoads.Proofs.Formula.Completeness

/-! The shape of what is read. Numbers are folded into one factor until they meet a load, so that no
factor is scaled or multiplied as a formula, and a sum has a load on one side at least. -/

namespace DesignLoads

open Grammar

def Factor.literals : Factor → List Float
  | number x => [x]
  | neg a => a.literals
  | add a b | sub a b | mul a b | div a b => a.literals ++ b.literals

namespace Formula

def literals : Formula → List Float
  | ref _ | family _ => []
  | number f => f.literals
  | scale a f => a.literals ++ f.literals
  | neg a => a.literals
  | sum a b | product a b | zip a b | choice a b => a.literals ++ b.literals

def IsNumber (f : Formula) : Prop := ∃ g, f = number g

/-- A number with a sign that is not part of it, as a difference has it on the right. -/
def IsNegated (f : Formula) : Prop := ∃ g, f = neg (number g)

/-- The formulas that operands with a load in them are read as. -/
def Symbolic : Formula → Prop
  | ref name | family name => isName name.toList
  | number _ => False
  | scale a _ | neg a => a.Symbolic
  | sum a b => a.Symbolic ∧ (b.Symbolic ∨ b.IsNumber ∨ b.IsNegated) ∨ a.IsNumber ∧ b.Symbolic
  | product a b => a.Symbolic ∧ b.Symbolic
  | zip a b | choice a b => (a.Symbolic ∨ a.IsNumber) ∧ (b.Symbolic ∨ b.IsNumber)

/-- The formula with the signs of negated numbers taken into the numbers. -/
def absorb : Formula → Formula
  | ref name => ref name
  | family stem => family stem
  | number f => number f
  | scale a f => scale a.absorb f
  | neg (number f) => number (.neg f)
  | neg a => neg a.absorb
  | sum a b => sum a.absorb b.absorb
  | product a b => product a.absorb b.absorb
  | zip a b => zip a.absorb b.absorb
  | choice a b => choice a.absorb b.absorb

end Formula

namespace Operand

def literals : Operand → List Float
  | numeric f => f.literals
  | symbolic e => e.literals

/-- Numbers are folded, and names are names. -/
def Folded : Operand → Prop
  | numeric _ => True
  | symbolic e => e.Symbolic

variable {a b v : Operand}

theorem Folded.toFormula (h : a.Folded) : a.toFormula.Symbolic ∨ a.toFormula.IsNumber := by
  cases a with
  | numeric f => exact .inr ⟨f, rfl⟩
  | symbolic e => exact .inl h

theorem literals_toFormula (a : Operand) : a.toFormula.literals = a.literals := by
  cases a <;> rfl

theorem Folded.neg (h : a.Folded) : a.neg.Folded := by
  cases a with
  | numeric f => trivial
  | symbolic e => exact h

theorem literals_neg (a : Operand) : a.neg.literals = a.literals := by
  cases a <;> rfl

theorem Folded.add (ha : a.Folded) (hb : b.Folded) : (a.add b).Folded := by
  cases a with
  | symbolic e =>
    obtain hb | hb := hb.toFormula
    · exact .inl ⟨ha, .inl hb⟩
    · exact .inl ⟨ha, .inr (.inl hb)⟩
  | numeric f =>
    cases b with
    | numeric g => trivial
    | symbolic e => exact .inr ⟨⟨f, rfl⟩, hb⟩

/-- A number that is taken from a load is negated, and not folded with its sign. -/
theorem Folded.sub (ha : a.Folded) (hb : b.Folded) : (a.sub b).Folded := by
  cases a with
  | symbolic e =>
    cases b with
    | numeric g => exact .inl ⟨ha, .inr (.inr ⟨g, rfl⟩)⟩
    | symbolic e' => exact .inl ⟨ha, .inl hb⟩
  | numeric f =>
    cases b with
    | numeric g => trivial
    | symbolic e => exact .inr ⟨⟨f, rfl⟩, hb⟩

theorem Folded.mul (ha : a.Folded) (hb : b.Folded) : (a.mul b).Folded := by
  cases a with
  | numeric f =>
    cases b with
    | numeric g => trivial
    | symbolic e => exact hb
  | symbolic e =>
    cases b with
    | numeric g => exact ha
    | symbolic e' => exact ⟨ha, hb⟩

theorem Folded.div (ha : a.Folded) (h : a.div? b = some v) : v.Folded := by
  cases b with
  | symbolic e => cases a <;> cases h
  | numeric g =>
    cases a with
    | numeric f =>
      cases h
      trivial
    | symbolic e =>
      cases h
      exact ha

/-- Operators keep numbers folded. -/
theorem Folded.combine {op : Operator} (ha : a.Folded) (hb : b.Folded)
    (h : op.combine a b = some v) : v.Folded := by
  cases op with
  | choice | zip =>
    cases h
    exact ⟨ha.toFormula, hb.toFormula⟩
  | add =>
    cases h
    exact ha.add hb
  | sub =>
    cases h
    exact ha.sub hb
  | mul =>
    cases h
    exact ha.mul hb
  | div => exact ha.div h

/-- A number stands behind the load that it multiplies, whichever came first. -/
theorem literals_mul (a b : Operand) : (a.mul b).literals.Perm (a.literals ++ b.literals) := by
  cases a with
  | numeric f =>
    cases b with
    | numeric g => exact .refl _
    | symbolic e => exact List.perm_append_comm
  | symbolic e => cases b <;> exact .refl _

/-- A load is multiplied by the reciprocal of its divisor. -/
theorem literals_div (h : a.div? b = some v) {x : Float} (hx : x ∈ v.literals) :
    x ∈ a.literals ++ b.literals ∨ x = 1 := by
  cases b with
  | symbolic e => cases a <;> cases h
  | numeric g =>
    cases a with
    | numeric f =>
      cases h
      exact .inl hx
    | symbolic e =>
      cases h
      obtain hx | hx := List.mem_append.mp hx
      · exact .inl (List.mem_append_left _ hx)
      · obtain rfl | hx := List.mem_cons.mp hx
        · exact .inr rfl
        · exact .inl (List.mem_append_right _ hx)

/-- The numbers in what an operator gives come from its operands, except the one of a
reciprocal. -/
theorem literals_combine {op : Operator} (h : op.combine a b = some v) {x : Float}
    (hx : x ∈ v.literals) : x ∈ a.literals ++ b.literals ∨ x = 1 := by
  cases op with
  | choice | zip =>
    cases h
    rw [← literals_toFormula a, ← literals_toFormula b]
    exact .inl hx
  | add | sub =>
    have heq : v.literals = a.literals ++ b.literals := by
      cases a <;> cases b <;> cases h <;> rfl
    rw [heq] at hx
    exact .inl hx
  | mul =>
    cases h
    exact .inl ((literals_mul a b).mem_iff.mp hx)
  | div => exact literals_div h hx

end Operand

namespace Tree

def Named : Tree → Prop
  | name n | family n => isName n.toList
  | number .. => True
  | group t | neg t => t.Named
  | binary _ l r => l.Named ∧ r.Named

variable {φ : Phrase} {s : List Char} {t : Tree}

theorem named_of_derives (h : Derives φ s t) :
    (∀ k left, φ = .more k left → left.Named) → t.Named := by
  induction h with
  | chain _ _ ihfirst ihmore =>
    intro _
    apply ihmore
    rintro k left ⟨⟩
    exact ihfirst fun _ _ hne => by cases hne
  | last => exact fun hleft => hleft _ _ rfl
  | step _ _ _ _ ihoperand ihmore =>
    intro hleft
    apply ihmore
    rintro k left ⟨⟩
    exact ⟨hleft _ _ rfl, ihoperand fun _ _ hne => by cases hne⟩
  | negative _ _ ih | plain _ _ ih | group _ _ ih =>
    exact fun _ => ih fun _ _ hne => by cases hne
  | leaf h =>
    intro _
    cases h with
    | name h | family h => simpa [Named] using h
    | number => trivial

/-- A number that is read, or the one of a reciprocal. -/
def IsLiteral (x : Float) : Prop := ∃ d : Decimal, d.toFloat = x

theorem isLiteral_one : IsLiteral 1 := ⟨⟨1, 0⟩, rfl⟩

/-- What a tree stands for is folded, and its numbers are read from decimals. -/
theorem folded_operand (h : t.Named) (hdiv : t.divisorsNumeric) :
    t.operand.Folded ∧ ∀ x ∈ t.operand.literals, IsLiteral x := by
  induction t with
  | name n | family n => exact ⟨h, by simp [operand, factor?, formula, Operand.literals,
      Formula.literals]⟩
  | number text d =>
    refine ⟨trivial, fun x hx => ⟨d, ?_⟩⟩
    exact (List.mem_singleton.mp hx).symm
  | group t ih =>
    rw [operand_group]
    exact ih h hdiv
  | neg t ih =>
    rw [operand_neg, Operand.literals_neg]
    exact ⟨(ih h hdiv).1.neg, (ih h hdiv).2⟩
  | binary op l r ihl ihr =>
    simp only [divisorsNumeric, Bool.and_eq_true, Bool.or_eq_true] at hdiv
    obtain ⟨⟨hl, hr⟩, hdivisor⟩ := hdiv
    obtain ⟨hlf, hll⟩ := ihl h.1 hl
    obtain ⟨hrf, hrl⟩ := ihr h.2 hr
    -- the divisor is a number, so the operator gives what the whole tree stands for
    have hcombine : op.combine l.operand r.operand = some (binary op l r).operand := by
      rw [combine_operand, if_neg]
      rintro ⟨rfl, hsymbolic⟩
      simp [hsymbolic] at hdivisor
    refine ⟨hlf.combine hrf hcombine, fun x hx => ?_⟩
    obtain hx | rfl := Operand.literals_combine hcombine hx
    · exact (List.mem_append.mp hx).elim (hll x) (hrl x)
    · exact isLiteral_one

end Tree

namespace Reading

/-- What is read is folded, and its numbers are read from decimals. -/
theorem folded_of_operand {source cs : List Char} {v : Operand} (h : operand source cs = .ok v) :
    v.Folded ∧ ∀ x ∈ v.literals, Tree.IsLiteral x := by
  obtain ⟨t, ⟨s, b, _, _, ht⟩, hdiv, rfl⟩ := operand_iff_writes.mp h
  exact Tree.folded_operand (Tree.named_of_derives ht fun _ _ hne => by cases hne) hdiv

end Reading

end DesignLoads
