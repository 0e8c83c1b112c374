import DesignLoads.Decimal.Basic

/-! The arguments of the program. -/

namespace DesignLoads

structure Arguments where
  /-- The file with the rules. -/
  file : String
  /-- Base load cases to declare. -/
  base : List String
  /-- Patterns of the combinations to print; all if there is none. -/
  select : List String
  json : Bool
  maxAlternatives : Option Nat
  eager : Bool
deriving DecidableEq

namespace Arguments

/-- Arguments that ask for no run. -/
inductive Refusal where
  /-- The help is asked for. -/
  | help
  /-- The arguments are not understood. -/
  | usage
deriving DecidableEq

structure Partial where
  file : Option String
  base : List String
  select : List String
  json : Bool
  maxAlternatives : Option Nat
  eager : Bool

namespace Partial

def start : Partial := ⟨none, [], [], false, none, false⟩

/-- A file, which is given once. -/
def takeFile (a : Partial) (value : String) : Except Refusal Partial :=
  if a.file.isNone && !value.isEmpty then .ok { a with file := some value } else .error .usage

/-- Reads a natural number below `2 ^ 64`. -/
def limit? (value : String) : Option Nat :=
  let ds := match value.toList with
    | '+' :: ds => ds
    | ds => ds
  if !ds.isEmpty && ds.all Char.isDigit && Decimal.ofDigits ds < UInt64.size then
    some (Decimal.ofDigits ds)
  else none

inductive Valued where
  | base
  | select
  | maxAlternatives

def valued? (name : List Char) : Option Valued :=
  if name = "base".toList then some .base
  else if name = "select".toList then some .select
  else if name = "max-alternatives".toList then some .maxAlternatives
  else none

def shortValued? (c : Char) : Option Valued :=
  if c = 'b' then some .base else if c = 's' then some .select else none

def takeValue (a : Partial) (option : Valued) (value : List Char) : Except Refusal Partial :=
  let value := String.ofList value
  match option with
  | .base => .ok { a with base := a.base ++ [value] }
  | .select => .ok { a with select := a.select ++ [value] }
  | .maxAlternatives =>
    match limit? value, a.maxAlternatives with
    | some n, none => .ok { a with maxAlternatives := some n }
    | _, _ => .error .usage

/-- A flag, which is given at most once. -/
def takeFlag (a : Partial) (name : List Char) : Except Refusal Partial :=
  if name = "json".toList then if a.json then .error .usage else .ok { a with json := true }
  else if name = "eager".toList then
    if a.eager then .error .usage else .ok { a with eager := true }
  else if name = "help".toList then .error .help
  else .error .usage

/-- The arguments behind `--`, none of which is an option. -/
def takeFiles (a : Partial) : List (List Char) → Except Refusal Partial
  | [] => .ok a
  | x :: xs => do takeFiles (← a.takeFile (String.ofList x)) xs

/-- A value on its own does not begin with a minus sign, or is nothing else. -/
def isValue (cs : List Char) : Bool := cs.head? ≠ some '-' || cs = ['-']

/-- Reads the arguments one by one. An option has its value behind `=`, or in the next argument, or
behind its letter. -/
def take (a : Partial) : List (List Char) → Except Refusal Partial
  | [] => .ok a
  | x :: xs =>
    match x with
    | ['-', '-'] => a.takeFiles xs
    | '-' :: '-' :: word =>
      let name := word.takeWhile (· ≠ '=')
      match valued? name, word.dropWhile (· ≠ '='), xs with
      | some o, _ :: value, xs => do take (← a.takeValue o value) xs
      | some o, [], value :: xs =>
        if isValue value then do take (← a.takeValue o value) xs else .error .usage
      | some _, [], [] => .error .usage
      | none, [], xs => do take (← a.takeFlag name) xs
      | none, _ :: _, _ => .error .usage
    | '-' :: c :: rest =>
      match shortValued? c, rest, xs with
      | some o, '=' :: value, xs => do take (← a.takeValue o value) xs
      | some o, c :: value, xs => do take (← a.takeValue o (c :: value)) xs
      | some o, [], value :: xs =>
        if isValue value then do take (← a.takeValue o value) xs else .error .usage
      | some _, [], [] => .error .usage
      | none, _, _ => .error (if c = 'h' then .help else .usage)
    | x => do take (← a.takeFile (String.ofList x)) xs

end Partial

def parse (args : List String) : Except Refusal Arguments := do
  let a ← Partial.start.take (args.map String.toList)
  match a.file with
  | some file => return ⟨file, a.base, a.select, a.json, a.maxAlternatives, a.eager⟩
  | none => .error .usage

end Arguments

end DesignLoads
