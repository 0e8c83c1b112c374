import DesignLoads.Factor

/-! Formulas: the right-hand sides of rules, and their text. -/

namespace DesignLoads

/-- A formula stands for an ordered list of alternatives. -/
inductive Formula where
  /-- Another rule, or a base load case. -/
  | ref (name : String)
  /-- `w$`: every rule whose name extends `w`. -/
  | family (stem : String)
  /-- A number that multiplies nothing yet. -/
  | number (factor : Factor)
  /-- Every alternative times a number. -/
  | scale (inner : Formula) (factor : Factor)
  /-- Every alternative with its signs changed. -/
  | neg (inner : Formula)
  /-- Every pair of alternatives, added. -/
  | sum (left right : Formula)
  /-- Every pair of alternatives, multiplied. -/
  | product (left right : Formula)
  /-- The alternatives of both sides added position by position. -/
  | zip (left right : Formula)
  /-- The alternatives of both sides, one after the other. -/
  | choice (left right : Formula)
deriving DecidableEq

namespace Formula

def level : Formula → Nat
  | choice .. => 1
  | zip .. => 2
  | sum .. => 3
  | product .. | scale .. => 4
  | neg _ => 5
  | ref _ | family _ | number _ => 6

def chars : Formula → List Char
  | ref name => name.toList
  | family stem => stem.toList ++ ['$']
  | number f => parenthesize (f.level < 4) f.chars
  | scale a f => parenthesize (f.level < 2) f.chars ++ '*' :: parenthesize (a.level < 5) a.chars
  | neg a => '-' :: parenthesize (a.level < 5) a.chars
  | sum a b =>
    parenthesize (a.level < 3) a.chars ++ ' ' :: '+' :: ' ' :: parenthesize (b.level < 4) b.chars
  | product a b => parenthesize (a.level < 4) a.chars ++ '*' :: parenthesize (b.level < 5) b.chars
  | zip a b =>
    parenthesize (a.level < 2) a.chars ++ ' ' :: '&' :: ' ' :: parenthesize (b.level < 3) b.chars
  | choice a b =>
    parenthesize (a.level < 1) a.chars ++ ' ' :: '|' :: ' ' :: parenthesize (b.level < 2) b.chars

def text (f : Formula) : String := String.ofList f.chars

end Formula

end DesignLoads
