import DesignLoads.Decimal.Layout

/-! Everything that can go wrong between a rule's text and its combinations. -/

namespace DesignLoads

/-- A failure names the rule, pattern or file that it comes from. -/
inductive Failure where
  /-- A rule is not written `NAME = FORMULA`. -/
  | parse (rule reason : String)
  /-- Two rules have one name. -/
  | duplicateRule (name : String)
  /-- A factor divides by zero. -/
  | divisionByZero (expression : String)
  /-- A factor has no finite value. -/
  | nonFiniteFactor (expression : String)
  /-- A rule refers to itself; the path begins and ends with its name. -/
  | circularReference (name : String) (path : List String)
  /-- The two sides of `&` have numbers of alternatives that are neither equal nor one. -/
  | incompatibleZip (left right : Nat)
  /-- Two factors of a product both carry loads. -/
  | nonLinearProduct (rule : String)
  /-- An alternative keeps a number that multiplies no load. -/
  | constantTerm (name : String) (constant : Float)
  /-- An expansion would have more alternatives than the limit. -/
  | tooManyAlternatives (count limit : Nat)
  /-- A selector is not a regular expression. -/
  | invalidPattern (pattern reason : String)
  /-- A selector names no combination. -/
  | unknownCombination (name : String)
  /-- A base load case has no result to superpose. -/
  | missingBaseResult (name : String)
  /-- A file operation failed. -/
  | file (operation path reason : String)
  /-- A text is not the JSON form of what it should hold. -/
  | serialization (reason : String)
  /-- A document has a schema version that cannot be read. -/
  | versionMismatch (fileVersion expectedVersion : String)
deriving DecidableEq

namespace Failure

def message : Failure → String
  | parse rule reason => s!"Parse error in rule '{rule}': {reason}"
  | duplicateRule name => s!"Rule '{name}' is defined more than once"
  | divisionByZero e => s!"Division by zero in factor expression '{e}'"
  | nonFiniteFactor e => s!"Factor expression '{e}' is not a finite number"
  | circularReference name path =>
    let steps := " -> ".intercalate path
    s!"Circular reference to '{name}' ({steps})"
  | incompatibleZip l r => s!"Incompatible alternative count for '&': {l} vs {r}"
  | nonLinearProduct rule =>
    s!"Non-linear product in rule '{rule}': at least one factor must be numeric"
  | constantTerm name constant =>
    let number := Layout.plain.text constant
    s!"Rule '{name}' leaves a numeric constant {number} that is not attached to a load case"
  | tooManyAlternatives count limit =>
    s!"Too many alternatives: {count} exceeds the limit of {limit}"
  | invalidPattern pattern reason => s!"Invalid selector pattern '{pattern}': {reason}"
  | unknownCombination name => s!"Unknown combination: {name}"
  | missingBaseResult name => s!"No result available for base load case '{name}'"
  | file operation path reason => s!"File error: {operation} on '{path}' - {reason}"
  | serialization reason => s!"Serialization error: {reason}"
  | versionMismatch found expected =>
    s!"Version mismatch: file version {found}, expected {expected}"

/-- The short code by which a program tells failures apart. -/
def code : Failure → String
  | parse .. => "PARSE_ERROR"
  | duplicateRule _ => "DUPLICATE_RULE"
  | divisionByZero _ => "DIVISION_BY_ZERO"
  | nonFiniteFactor _ => "NON_FINITE_FACTOR"
  | circularReference .. => "CIRCULAR_REFERENCE"
  | incompatibleZip .. => "INCOMPATIBLE_ZIP"
  | nonLinearProduct _ => "NON_LINEAR_PRODUCT"
  | constantTerm .. => "CONSTANT_TERM"
  | tooManyAlternatives .. => "TOO_MANY_ALTERNATIVES"
  | invalidPattern .. => "INVALID_PATTERN"
  | unknownCombination _ => "UNKNOWN_COMBINATION"
  | missingBaseResult _ => "MISSING_BASE_RESULT"
  | file .. => "FILE_ERROR"
  | serialization _ => "SERIALIZATION_ERROR"
  | versionMismatch .. => "VERSION_MISMATCH"

end Failure

end DesignLoads
