import DesignLoads.RuleSet.Version
import DesignLoads.Session
import DesignLoads.Timestamp

/-! Rule sets: the documents in which rules are kept. -/

namespace DesignLoads

/-- What a document says of itself. -/
structure Header where
  /-- The version of the form of the document. -/
  version : String
  title : String
  engineer : String
  /-- The design code that the rules come from. -/
  designCode : Option String
  created : Timestamp
  modified : Timestamp
deriving DecidableEq

/-- Options for the combinations that a pattern covers, as they are written down. -/
structure Attachment where
  pattern : String
  options : Options

/-- A document with rules, one to a line; blank lines and comments are kept. -/
structure RuleSet where
  header : Header
  settings : Settings
  baseCases : List String
  rules : List String
  attachments : List Attachment

namespace RuleSet

def empty (title : String) (now : Timestamp) : RuleSet :=
  ⟨⟨Version.current, title, "", none, now, now⟩, .standard, [], [], []⟩

/-- A document without a title that holds the lines of a text. -/
def ofText (text : String) (now : Timestamp) : RuleSet :=
  { empty "" now with rules := lines text }

def touch (s : RuleSet) (now : Timestamp) : RuleSet :=
  { s with header := { s.header with modified := now } }

def addRule (s : RuleSet) (rule : String) (now : Timestamp) : RuleSet :=
  touch { s with rules := s.rules ++ [rule] } now

def attach (s : RuleSet) (pattern : String) (options : Options) (now : Timestamp) : RuleSet :=
  touch { s with attachments := s.attachments ++ [⟨pattern, options⟩] } now

def ruleCount (s : RuleSet) : Nat := (s.rules.filter fun line => !Rule.isIgnored line).length

def compile [RegexLibrary] (s : RuleSet) : Except Failure Session := do
  let session ← Session.ofLines s.rules s.baseCases s.settings
  s.attachments.foldlM (fun session a => session.attach a.pattern a.options) session

end RuleSet

instance : Json.Form Header where
  toJson h := .object (
    [("version", .string h.version), ("title", .string h.title),
      ("engineer", .string h.engineer)] ++
    (match h.designCode with
    | some code => [("design_code", .string code)]
    | none => []) ++
    [("created", Json.toJson h.created), ("modified", Json.toJson h.modified)])
  ofSource? outer s := do
    let [version, title, engineer, designCode, created, modified] ← s.fields?
      ["version", "title", "engineer", "design_code", "created", "modified"] | none
    let version ← Json.required Json.Source.string? version
    let title ← Json.required Json.Source.string? title
    let engineer ← Json.defaulting "" Json.Source.string? engineer
    let designCode ← Json.defaulting none (Json.Source.option? Json.Source.string?) designCode
    let created ← Json.required (Json.Form.ofSource? (outer + 1)) created
    let modified ← Json.required (Json.Form.ofSource? (outer + 1)) modified
    return ⟨version, title, engineer, designCode, created, modified⟩

instance : Json.Form Attachment where
  toJson a := .object [("pattern", .string a.pattern), ("options", Json.toJson a.options)]
  ofSource? outer s := do
    let [pattern, options] ← s.fields? ["pattern", "options"] | none
    let pattern ← Json.required Json.Source.string? pattern
    let options ← Json.required (Json.Form.ofSource? (outer + 1)) options
    return ⟨pattern, options⟩

instance : Json.Form RuleSet where
  toJson s := .object (
    [("meta", Json.toJson s.header), ("settings", Json.toJson s.settings),
      ("base_cases", .array (s.baseCases.map .string)), ("rules", .array (s.rules.map .string))] ++
    if s.attachments.isEmpty then [] else [("options", Json.toJson s.attachments)])
  ofSource? outer s := do
    let [header, settings, baseCases, rules, attachments] ←
      s.fields? ["meta", "settings", "base_cases", "rules", "options"] | none
    let strings := Json.Source.list? Json.Source.string?
    let header ← Json.required (Json.Form.ofSource? (outer + 1)) header
    let settings ← Json.defaulting .standard (Json.Form.ofSource? (outer + 1)) settings
    let baseCases ← Json.defaulting [] strings baseCases
    let rules ← Json.required strings rules
    let attachments ← Json.defaulting [] (Json.Form.ofSource? (outer + 1)) attachments
    return ⟨header, settings, baseCases, rules, attachments⟩

end DesignLoads
