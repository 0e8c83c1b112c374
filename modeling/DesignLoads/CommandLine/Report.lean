import DesignLoads.CommandLine.Arguments
import DesignLoads.Failure.Form
import DesignLoads.Regex.Library
import DesignLoads.Storage.Documents

/-! What the program prints. -/

namespace DesignLoads

instance : RegexLibrary := Regex.library

/-- The outcome of a run: the exit code and the two texts printed. -/
structure Report where
  exit : Nat
  output : String
  errors : String
deriving DecidableEq

namespace Report

def usage : String := "Usage: combo_cli [OPTIONS] <FILE>"

def help : String := String.intercalate "\n" [
  "Expand load-case combination rules into concrete combinations",
  "",
  usage,
  "",
  "Arguments:",
  "  <FILE>  Rule file: plain text, or a \x60.json\x60 rule-set document",
  "",
  "Options:",
  "  -b, --base <NAME>           Declare a base load case (repeatable)",
  "  -s, --select <PATTERN>      Combination name, or \x60&REGEX\x60 (repeatable); " ++
    "default prints all",
  "      --json                  Print combinations as JSON",
  "      --max-alternatives <N>  Override the alternative limit of the rule set",
  "      --eager                 Resolve every rule up front",
  "  -h, --help                  Print help",
  ""]

def combinationLines (c : Combination) : List String :=
  let n := c.alternatives.length
  let ending := if n = 1 then "" else "s"
  let name := c.name
  [s!"{name} ({n} alternative{ending})"] ++
    c.alternatives.mapIdx (fun i a =>
      let case := a.text
      s!"  [{i}] {case}") ++
    (match c.options with
    | some o =>
      let text := (Json.toJson o).compact
      [s!"  options: {text}"]
    | none => []) ++ [""]

def combinationsText (cs : List Combination) : String :=
  String.join ((cs.flatMap combinationLines).map (· ++ "\n"))

def failure (f : Failure) : Report :=
  let message := f.message
  let json := (Json.toJson f).pretty
  ⟨1, "", s!"Error: {message}\n\nError JSON:\n{json}\n"⟩

def success (json : Bool) (cs : List Combination) : Report :=
  ⟨0, if json then (Json.toJson cs).pretty ++ "\n" else combinationsText cs, ""⟩

def refusal : Arguments.Refusal → Report
  | .help => ⟨0, help, ""⟩
  | .usage =>
    ⟨2, "", String.intercalate "\n" ["error: the arguments are not understood", "", usage, "",
      "For more information, try '--help'.", ""]⟩

end Report

namespace Arguments

/-- A rule set with what the arguments add to it and set in its place. -/
def adjust (a : Arguments) (s : RuleSet) : RuleSet :=
  { s with
    baseCases := s.baseCases ++ a.base
    settings := ⟨a.maxAlternatives.or s.settings.maxAlternatives, a.eager || s.settings.eager⟩ }

/-- The combinations that the arguments ask for, when `contents` is the text in the file. -/
def combinations (a : Arguments) (contents : Except Failure String) (now : Timestamp) :
    Except Failure (List Combination) := do
  let text ← contents
  let s ← RuleSet.ofFile (.ofString a.file) text now
  let session ← (a.adjust s).compile
  if a.select.isEmpty then (session.ask Rulebook.ordered).1
  else (session.ask (·.select a.select)).1

def report (a : Arguments) (contents : Except Failure String) (now : Timestamp) : Report :=
  match a.combinations contents now with
  | .ok cs => .success a.json cs
  | .error f => .failure f

end Arguments

def Disk.run (d : Disk) (args : List String) (now : Timestamp) : Report :=
  match Arguments.parse args with
  | .ok a => a.report (d.readText (.ofString a.file)) now
  | .error r => .refusal r

end DesignLoads
