import DesignLoads.Formula.Reading

/-! Rules: lines of the form `NAME = FORMULA`. -/

namespace DesignLoads

/-- A named formula, with the text that it was read from. -/
structure Rule where
  name : String
  source : String
  formula : Formula
deriving DecidableEq

namespace Rule

/-- A line without a rule: blank, or a comment that begins with `#`. -/
def isIgnored (line : String) : Bool :=
  match Unicode.trim line.toList with
  | [] => true
  | c :: _ => c = '#'

def split? (cs : List Char) : Option (List Char × List Char) :=
  match cs.dropWhile (· ≠ '=') with
  | [] => none
  | _ :: right => some (cs.takeWhile (· ≠ '='), right)

def read (text : String) : Except Fault Rule :=
  match split? text.toList with
  | none => .error .noEquals
  | some (left, right) =>
    let name := Unicode.trim left
    if name.isEmpty then .error .noName
    else if !isName name then .error (.badName (String.ofList name))
    else do
      let operand ← Reading.operand text.toList right
      return ⟨String.ofList name, String.ofList (Unicode.trim text.toList), operand.toFormula⟩

/-- Reads one rule; a failure quotes its text. -/
def parse (text : String) : Except Failure Rule :=
  match read text with
  | .ok rule => .ok rule
  | .error fault => .error (.parse text fault.message)

/-- Reads the rules of a text, line by line, up to the first that is malformed. -/
def parseLines (lines : List String) : Except Failure (List Rule) :=
  (lines.filter (fun line => !isIgnored line)).mapM parse

end Rule

end DesignLoads
