import DesignLoads.RuleSet.Basic
import DesignLoads.Storage.Saving

/-! Rule sets on a disk, as documents in JSON or as plain text. -/

namespace DesignLoads

namespace RuleSet

/-- Reads a document from its text. Documents of later versions are refused. -/
def ofDocument (p : Path) (text : String) : Except Failure RuleSet :=
  match Json.read? RuleSet text with
  | none =>
    let path := p.text
    .error (.serialization s!"Invalid JSON in {path}")
  | some s => do
    Version.check s.header.version
    return s

def document (s : RuleSet) : String := (Json.toJson s).pretty

/-- Whether a file with this path holds a document and not plain text. -/
def isDocument (p : Path) : Bool :=
  p.extension?.any fun e => e.map Char.toLower = ['j', 's', 'o', 'n']

/-- Reads a rule set from the text in a file. Plain text has the name of the file for its title. -/
def ofFile (p : Path) (text : String) (now : Timestamp) : Except Failure RuleSet :=
  if isDocument p then ofDocument p text
  else .ok { empty (String.ofList p.stem) now with rules := lines text }

end RuleSet

namespace Disk

def load (d : Disk) (p : Path) : Except Failure RuleSet := do
  let text ← d.readText p
  RuleSet.ofDocument p text

def readLines (d : Disk) (p : Path) : Except Failure (List String) := (d.readText p).map lines

def saveRuleSet (m : Mishaps) (d : Disk) (p : Path) (s : RuleSet) : Except Failure Unit × Disk :=
  d.save m p s.document.toUTF8

end Disk

end DesignLoads
