import DesignLoads.Failure
import DesignLoads.Json.Source

/-! The JSON form of failures: a kind and its details. -/

namespace DesignLoads

namespace Failure

def parts : Failure → String × List (String × Json)
  | parse rule reason => ("Parse", [("rule", .string rule), ("reason", .string reason)])
  | duplicateRule name => ("DuplicateRule", [("name", .string name)])
  | divisionByZero e => ("DivisionByZero", [("expression", .string e)])
  | nonFiniteFactor e => ("NonFiniteFactor", [("expression", .string e)])
  | circularReference name path =>
    ("CircularReference", [("name", .string name), ("path", .array (path.map .string))])
  | incompatibleZip l r => ("IncompatibleZip", [("left", .ofNat l), ("right", .ofNat r)])
  | nonLinearProduct rule => ("NonLinearProduct", [("rule", .string rule)])
  | constantTerm name x => ("ConstantTerm", [("name", .string name), ("constant", .ofFloat x)])
  | tooManyAlternatives n l => ("TooManyAlternatives", [("count", .ofNat n), ("limit", .ofNat l)])
  | invalidPattern p reason =>
    ("InvalidPattern", [("pattern", .string p), ("reason", .string reason)])
  | unknownCombination name => ("UnknownCombination", [("name", .string name)])
  | missingBaseResult name => ("MissingBaseResult", [("name", .string name)])
  | file operation path reason =>
    ("FileError",
      [("operation", .string operation), ("path", .string path), ("reason", .string reason)])
  | serialization reason => ("SerializationError", [("reason", .string reason)])
  | versionMismatch found expected =>
    ("VersionMismatch", [("file_version", .string found), ("expected_version", .string expected)])

def two {α β γ : Type} (make : α → β → γ) (first : String) (a? : Json.Source → Option α)
    (second : String) (b? : Json.Source → Option β) (s : Json.Source) : Option γ := do
  let [a, b] ← s.fields? [first, second] | none
  return make (← Json.required a? a) (← Json.required b? b)

def one {α γ : Type} (make : α → γ) (name : String) (a? : Json.Source → Option α)
    (s : Json.Source) : Option γ := do
  let [a] ← s.fields? [name] | none
  return make (← Json.required a? a)

def ofDetails? (kind : String) (s : Json.Source) : Option Failure :=
  let str := Json.Source.string?
  let nat := Json.Source.nat?
  match kind with
  | "Parse" => two parse "rule" str "reason" str s
  | "DuplicateRule" => one duplicateRule "name" str s
  | "DivisionByZero" => one divisionByZero "expression" str s
  | "NonFiniteFactor" => one nonFiniteFactor "expression" str s
  | "CircularReference" => two circularReference "name" str "path" (Json.Source.list? str) s
  | "IncompatibleZip" => two incompatibleZip "left" nat "right" nat s
  | "NonLinearProduct" => one nonLinearProduct "rule" str s
  | "ConstantTerm" => two constantTerm "name" str "constant" Json.Source.float? s
  | "TooManyAlternatives" => two tooManyAlternatives "count" nat "limit" nat s
  | "InvalidPattern" => two invalidPattern "pattern" str "reason" str s
  | "UnknownCombination" => one unknownCombination "name" str s
  | "MissingBaseResult" => one missingBaseResult "name" str s
  | "FileError" => do
    let [operation, path, reason] ← s.fields? ["operation", "path", "reason"] | none
    return file (← Json.required str operation) (← Json.required str path)
      (← Json.required str reason)
  | "SerializationError" => one serialization "reason" str s
  | "VersionMismatch" => two versionMismatch "file_version" str "expected_version" str s
  | _ => none

/-- The name of a kind among the members of an object: a string, or the one member of an object with
nothing for its value. In a list it is always a string. -/
def kindName? : Json.Source → Option String
  | .string name => name
  | .object [(name, .null)] => name
  | _ => none

/-- Details are the members of an object. If they are read before it is known what they are the
details of, every part of them has to have a value. -/
def ofParts? (outer : Nat) (kindFirst : Bool) (kind : Option String) (details : Json.Source) :
    Option Failure := do
  let .object _ := details | none
  if !kindFirst then
    let _ ← details.toJson? (Json.Source.depthLimit - (outer + 1))
  ofDetails? (← kind) details

end Failure

instance : Json.Form Failure where
  toJson f := .object [("type", .string f.parts.1), ("details", .object f.parts.2)]
  ofSource? outer
    | .array [kind, details] => Failure.ofParts? outer true kind.string? details
    | .array _ => none
    | s => do
      let [kind, details] ← s.fields? ["type", "details"] | none
      let ms ← s.members
      let first := ms.find? fun m => m.1 = "type" || m.1 = "details"
      Failure.ofParts? outer (first.any (·.1 = "type")) (Failure.kindName? (← kind)) (← details)

end DesignLoads
