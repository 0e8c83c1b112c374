import DesignLoads.Decimal.Basic
import DesignLoads.Failure
import DesignLoads.Unicode.WhiteSpace

/-! Versions of documents. -/

namespace DesignLoads

abbrev Version := List Nat

namespace Version

/-- The version of the documents that are written. -/
def current : String := "0.1.0"

/-- A part of a version number: a number below `2 ^ 32`. -/
def part? (cs : List Char) : Option Nat :=
  let ds := match cs with
    | '+' :: ds => ds
    | ds => ds
  if !ds.isEmpty && ds.all Char.isDigit && Decimal.ofDigits ds < UInt32.size then
    some (Decimal.ofDigits ds)
  else none

def parse? (text : String) : Option Version := (splitAtEach '.' text.toList).mapM part?

/-- Whether documents of one version can be read by a program of another: the first parts are equal,
and if they are zero the second part is not greater. -/
def readable (found program : Version) : Bool :=
  match found, program with
  | f :: fs, p :: ps =>
    f == p && (p != 0 || match fs, ps with
      | f :: _, p :: _ => f ≤ p
      | _, _ => true)
  | _, _ => false

/-- Lets the versions pass that can be read. -/
def check (found : String) : Except Failure Unit :=
  match parse? found, parse? current with
  | some f, some p => if readable f p then .ok () else .error (.versionMismatch found current)
  | _, _ => .error (.versionMismatch found current)

end Version

end DesignLoads
