import DesignLoads.Failure
import Std.Data.HashSet.Basic

/-! Patterns, which choose combinations by name. What a regular expression is, and in which names it
is found, is up to a library: nothing is assumed of it here. -/

namespace DesignLoads

/-- A library of regular expressions. It compiles a text to an expression, which is given by the
texts that it is found in, or says why the text is none. -/
class RegexLibrary where
  compile (source : String) : Except String (String → Bool)

/-- The empty expression is valid, and is found in every text. -/
def RegexLibrary.FindsEmpty [RegexLibrary] : Prop :=
  ∃ found, compile "" = .ok found ∧ ∀ text, found text = true

/-- A name, or behind a marker a regular expression that some part of a name has to match. -/
inductive Pattern where
  | literal (name : String)
  | regex (source : String) (found : String → Bool)

namespace Pattern

def marker : Char := '&'

def parse [RegexLibrary] (text : String) : Except Failure Pattern :=
  match text.toList with
  | [] => .ok (literal text)
  | c :: cs =>
    if c = marker then
      let source := String.ofList cs
      match RegexLibrary.compile source with
      | .ok found => .ok (regex source found)
      | .error reason => .error (.invalidPattern text reason)
    else .ok (literal text)

def text : Pattern → String
  | literal name => name
  | regex source _ => String.ofList (marker :: source.toList)

/-- Whether the pattern is meant for a name. -/
def covers (p : Pattern) (name : String) : Bool :=
  match p with
  | literal n => n == name
  | regex _ found => found name

/-- Whether the pattern is the name itself. -/
def names (p : Pattern) (name : String) : Bool :=
  match p with
  | literal n => n == name
  | regex .. => false

/-- The candidates that a pattern chooses, in their order. A literal has to be one of them. -/
def choose (candidates : List String) : Pattern → Except Failure (List String)
  | literal name =>
    match candidates.find? (· = name) with
    | some name => .ok [name]
    | none => .error (.unknownCombination name)
  | regex _ found => .ok (candidates.filter found)

end Pattern

/-- The names that have been selected so far, in their order and as a set. -/
structure Selection where
  names : Array String
  seen : Std.HashSet String

namespace Selection

def empty : Selection := ⟨#[], ∅⟩

def add (s : Selection) (name : String) : Selection :=
  if s.seen.contains name then s else ⟨s.names.push name, s.seen.insert name⟩

def addChosen (candidates : List String) (s : Selection) (p : Pattern) :
    Except Failure Selection := do
  let chosen ← p.choose candidates
  return chosen.foldl add s

end Selection

/-- What a list of patterns selects of the candidates, pattern by pattern, each name once. -/
def Pattern.select (patterns : List Pattern) (candidates : List String) :
    Except Failure (List String) := do
  let selection ← patterns.foldlM (Selection.addChosen candidates) .empty
  return selection.names.toList

end DesignLoads
