import DesignLoads.Unicode.WhiteSpace

/-! Faults in the text of a rule or a formula. -/

namespace DesignLoads

/-- What a text should have gone on with. -/
inductive Expected where
  | operand
  | closing
  | numericDivisor
deriving DecidableEq, Repr

/-- Why a text is no rule or no formula. Places are byte columns, counted from one. -/
inductive Fault where
  /-- There is no `=`. -/
  | noEquals
  /-- There is nothing before the `=`. -/
  | noName
  /-- What stands before the `=` is no name. -/
  | badName (name : String)
  /-- A formula with loads stands where only numbers may. -/
  | notNumeric
  /-- Something else should have come. -/
  | expected (what : Expected) (found : Option Char) (column : Nat)
  /-- The formula ends before the text does. -/
  | leftover (found : Option Char) (column : Nat)
deriving DecidableEq, Repr

namespace Fault

/-- A place in a text: the first character that is not white space after the place where reading
stopped, and its column. `rest` is what follows that place, a suffix of `source`. -/
def locate (source rest : List Char) : Option Char × Nat :=
  let rest := Unicode.trimStart rest
  (rest.head?, Unicode.byteLength source - Unicode.byteLength rest + 1)

def describe : Option Char → String
  | some c => s!"'{c}'"
  | none => "end of expression"

/-- An operator that takes an operand on its right. -/
def isOperator (c : Char) : Bool := "+-*/&|".toList.contains c

def message : Fault → String
  | noEquals => "expected 'NAME = EXPRESSION'"
  | noName => "rule name is empty"
  | badName name => s!"invalid rule name '{name}'"
  | notNumeric => "expected a purely numeric expression"
  | expected what found column =>
    let wanted := match what with
      | .operand => "operand"
      | .closing => "')'"
      | .numericDivisor => "a numeric divisor"
    s!"unexpected {describe found} at column {column}, expected {wanted}"
  | leftover found column =>
    match found with
    | some c =>
      if c = ')' then s!"unbalanced ')' at column {column}"
      else if isOperator c then
        s!"operator '{c}' at column {column} is missing its right operand"
      else s!"unexpected {describe found} at column {column}"
    | none => s!"unexpected {describe found} at column {column}"

end Fault

end DesignLoads
