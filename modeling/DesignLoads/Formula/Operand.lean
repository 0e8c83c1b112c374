import DesignLoads.Formula.Basic

/-! Operands: what a part of a formula stands for while it is read. Numbers stay together as one
factor until they meet a load. -/

namespace DesignLoads

/-- A part of a formula, numeric as long as it names no load. -/
inductive Operand where
  | numeric (factor : Factor)
  | symbolic (formula : Formula)
deriving DecidableEq

namespace Operand

def toFormula : Operand → Formula
  | numeric f => .number f
  | symbolic e => e

def neg : Operand → Operand
  | numeric f => numeric (.neg f)
  | symbolic e => symbolic (.neg e)

def add : Operand → Operand → Operand
  | numeric f, numeric g => numeric (.add f g)
  | a, b => symbolic (.sum a.toFormula b.toFormula)

def sub : Operand → Operand → Operand
  | numeric f, numeric g => numeric (.sub f g)
  | a, b => symbolic (.sum a.toFormula (.neg b.toFormula))

/-- A number times a load scales the load, whichever comes first. -/
def mul : Operand → Operand → Operand
  | numeric f, numeric g => numeric (.mul f g)
  | numeric f, symbolic e => symbolic (.scale e f)
  | symbolic e, numeric f => symbolic (.scale e f)
  | symbolic e, symbolic e' => symbolic (.product e e')

/-- Only a number divides. A load divided by `d` is scaled by `1/d`. -/
def div? : Operand → Operand → Option Operand
  | numeric f, numeric g => some (numeric (.div f g))
  | symbolic e, numeric g => some (symbolic (.scale e (.div (.number 1) g)))
  | _, symbolic _ => none

def zip (a b : Operand) : Operand := symbolic (.zip a.toFormula b.toFormula)

def choice (a b : Operand) : Operand := symbolic (.choice a.toFormula b.toFormula)

end Operand

end DesignLoads
