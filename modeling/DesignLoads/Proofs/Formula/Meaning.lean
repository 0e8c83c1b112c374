import DesignLoads.Proofs.Formula.Grammar

/-! Trees as operands. Operand by operand, reading combines what the parts of a tree stand for into
what the tree stands for. -/

namespace DesignLoads

/-- The operator on operands. Division alone refuses a right operand. -/
def Operator.combine : Operator → Operand → Operand → Option Operand
  | choice, a, b => some (a.choice b)
  | zip, a, b => some (a.zip b)
  | add, a, b => some (a.add b)
  | sub, a, b => some (a.sub b)
  | mul, a, b => some (a.mul b)
  | div, a, b => a.div? b

namespace Tree

def operand (t : Tree) : Operand :=
  match t.factor? with
  | some f => .numeric f
  | none => .symbolic t.formula

variable {l r t : Tree} {f : Factor}

theorem operand_of_factor (h : t.factor? = some f) : t.operand = .numeric f := by
  rw [operand, h]

theorem operand_of_none (h : t.factor? = none) : t.operand = .symbolic t.formula := by
  rw [operand, h]

theorem formula_of_factor (h : t.factor? = some f) : t.formula = .number f := by
  unfold formula
  rw [h]

/-- An operand as a formula is the formula of the tree. -/
theorem toFormula_operand (t : Tree) : t.operand.toFormula = t.formula := by
  cases h : t.factor? with
  | some f => rw [operand_of_factor h, formula_of_factor h]; rfl
  | none => rw [operand_of_none h]; rfl

theorem isSome_factor? (t : Tree) : t.factor?.isSome = t.isNumeric := by
  induction t with
  | name | family | number => rfl
  | group t ih => exact ih
  | neg t ih =>
    rw [factor?, Option.isSome_map]
    exact ih
  | binary op l r ihl ihr =>
    unfold factor? isNumeric
    rw [← ihl, ← ihr]
    cases op <;> cases l.factor? <;> cases r.factor? <;> rfl

theorem operand_group (t : Tree) : (group t).operand = t.operand := by
  have hf : (group t).factor? = t.factor? := rfl
  cases h : t.factor? with
  | some f => rw [operand_of_factor h, operand_of_factor (hf.trans h)]
  | none =>
    rw [operand_of_none h, operand_of_none (hf.trans h), formula, hf, h]

theorem operand_neg (t : Tree) : (neg t).operand = t.operand.neg := by
  have hf : (neg t).factor? = t.factor?.map .neg := rfl
  cases h : t.factor? with
  | some f =>
    rw [h] at hf
    rw [operand_of_factor h, operand_of_factor hf]
    rfl
  | none =>
    rw [h] at hf
    rw [operand_of_none h, operand_of_none hf, formula, hf]
    rfl

/-- Operators combine what their operands stand for, unless a divisor is not numeric. -/
theorem combine_operand (op : Operator) (l r : Tree) : op.combine l.operand r.operand =
    if op = .div ∧ r.isNumeric = false then none else some (binary op l r).operand := by
  rw [← isSome_factor?]
  cases hl : l.factor? with
  | some f =>
    rw [operand_of_factor hl]
    have hlf := formula_of_factor hl
    cases hr : r.factor? with
    | some g =>
      rw [operand_of_factor hr]
      have hrf := formula_of_factor hr
      cases op <;> simp [Operator.combine, operand, factor?, formula, hl, hr, hlf, hrf,
        Operand.choice, Operand.zip, Operand.add, Operand.sub, Operand.mul, Operand.div?,
        Operand.toFormula]
    | none =>
      rw [operand_of_none hr]
      cases op <;> simp [Operator.combine, operand, factor?, formula, hl, hr, hlf,
        Operand.choice, Operand.zip, Operand.add, Operand.sub, Operand.mul, Operand.div?,
        Operand.toFormula]
  | none =>
    rw [operand_of_none hl]
    cases hr : r.factor? with
    | some g =>
      rw [operand_of_factor hr]
      have hrf := formula_of_factor hr
      cases op <;> simp [Operator.combine, operand, factor?, formula, hl, hr, hrf,
        Operand.choice, Operand.zip, Operand.add, Operand.sub, Operand.mul, Operand.div?,
        Operand.toFormula]
    | none =>
      rw [operand_of_none hr]
      cases op <;> simp [Operator.combine, operand, factor?, formula, hl, hr,
        Operand.choice, Operand.zip, Operand.add, Operand.sub, Operand.mul, Operand.div?,
        Operand.toFormula]

end Tree

end DesignLoads
