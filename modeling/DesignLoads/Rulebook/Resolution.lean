import DesignLoads.Formula.Expansion
import DesignLoads.Rulebook.Basic

/-! Resolution of the rules of a book.

A rule is resolved when it is first needed, and what it resolves to is kept. While a rule is being
resolved it is marked, and stands on the path of the rules that are; a reference to a marked rule
closes a circle. The mark of a rule whose resolution fails is taken away again. -/

namespace DesignLoads

inductive Status where
  | unresolved
  | resolving
  | resolved
deriving DecidableEq

/-- What is noted for a rule: that it is being resolved, or what it has been resolved to. -/
inductive Slot where
  | resolving
  | resolved (as : List Alternative)

/-- What is noted for the rules, by name, and apart from that the path. Each is changed on its own;
that they agree is proved of the resolution. -/
structure Progress where
  slots : NameMap Slot
  /-- The rules that are being resolved, outermost first. -/
  path : List String

namespace Progress

def start : Progress := ⟨.empty, []⟩

def status (p : Progress) (name : String) : Status :=
  match p.slots.get? name with
  | none => .unresolved
  | some .resolving => .resolving
  | some (.resolved _) => .resolved

def known? (p : Progress) (name : String) : Option (List Alternative) :=
  match p.slots.get? name with
  | some (.resolved as) => some as
  | _ => none

/-- The failure of a reference to a rule that is being resolved: the path from its first appearance
on, and its name again. -/
def circularity (p : Progress) (name : String) : Failure :=
  let start := (p.path.idxOf? name).getD 0
  .circularReference name (p.path.drop start ++ [name])

def mark (p : Progress) (name : String) (slot : Slot) : Progress :=
  { p with slots := p.slots.insert name slot }

def unmark (p : Progress) (name : String) : Progress := { p with slots := p.slots.erase name }

def push (p : Progress) (name : String) : Progress := { p with path := p.path ++ [name] }

def pop (p : Progress) : Progress := { p with path := p.path.dropLast }

end Progress

/-- A question to a rule book. What has been resolved on the way to a failure stays resolved. -/
abbrev Query := ExceptT Failure (StateM Progress)

namespace Query

/-- The answer to a question, and the progress made. -/
def ask {α : Type} (q : Query α) (p : Progress) : Except Failure α × Progress := q.run.run p

end Query

namespace Rulebook

def surroundings {m : Type → Type} (book : Rulebook) (rule : String)
    (refer : String → m (List Alternative)) : Surroundings m :=
  ⟨book.settings.maxAlternatives, rule, book.extending, refer⟩

/-- Resolves a rule for which nothing is noted, when `refer` resolves the names in it. The path is
cut back before the outcome is looked at; the mark is replaced or taken away after that. -/
def resolveRule (book : Rulebook) (refer : String → Query (List Alternative)) (rule : Rule) :
    Query (List Alternative) :=
  ExceptT.mk fun p =>
    let p := (p.mark rule.name .resolving).push rule.name
    let (expanded, p) := (rule.formula.expand (book.surroundings rule.name refer)).ask p
    let p := p.pop
    match expanded with
    | .ok as =>
      let as := Alternative.distinct as
      (.ok as, p.mark rule.name (.resolved as))
    | .error e => (.error e, p.unmark rule.name)

/-- The alternatives of a name, with at most `fuel` rules being resolved at one time. -/
def alternativesWithin (book : Rulebook) : Nat → String → Query (List Alternative)
  | 0 => fun name => throw (.circularReference name [name])
  | fuel + 1 => fun name => do
    let p ← get
    match p.slots.get? name with
    | some (.resolved as) => return as
    | some .resolving => throw (p.circularity name)
    | none =>
      match book.rule? name with
      | some rule => book.resolveRule (book.alternativesWithin fuel) rule
      | none => return [.atomic name]

/-- The alternatives of a name. The rules on the path are different, so there is fuel enough. -/
def alternatives (book : Rulebook) (name : String) : Query (List Alternative) :=
  book.alternativesWithin (book.rules.length + 1) name

def expand (book : Rulebook) (rule : String) (f : Formula) : Query (List Alternative) :=
  f.expand (book.surroundings rule book.alternatives)

end Rulebook

/-- The load cases of alternatives; none may keep a number. -/
def Alternative.loadCases (rule : String) (as : List Alternative) :
    Except Failure (List LoadCase) := do
  let cases ← as.mapM fun a =>
    if a.constant == 0 then .ok a.case else .error (.constantTerm rule a.constant)
  return LoadCase.canonical cases

/-- Whether the alternatives are numbers alone, and not only zeros. -/
def Alternative.isFactorSet (as : List Alternative) : Bool :=
  as.all isScalar && as.any fun a => !(a.constant == 0)

namespace Rulebook

def combination (book : Rulebook) (name : String) (as : List Alternative) :
    Except Failure Combination := do
  let cases ← Alternative.loadCases name as
  return ⟨name, cases, book.optionsFor name⟩

def resolve (book : Rulebook) (name : String) : Query Combination := do
  if book.isRule name then
    let as ← book.alternatives name
    liftExcept (book.combination name as)
  else return ⟨name, [.single name 1], book.optionsFor name⟩

def resolveAll (book : Rulebook) : Query Unit :=
  book.ruleNames.forM fun name => do
    let as ← book.alternatives name
    if !Alternative.isFactorSet as then
      let _ ← liftExcept (Alternative.loadCases name as)

/-- The combinations of a list of rules, without the sets of factors that are not `wanted`. -/
def combinations (book : Rulebook) (wanted : String → Bool) :
    List String → Query (List Combination)
  | [] => return []
  | name :: names => do
    let as ← book.alternatives name
    if Alternative.isFactorSet as && !wanted name then book.combinations wanted names
    else
      let c ← liftExcept (book.combination name as)
      let cs ← book.combinations wanted names
      return c :: cs

/-- The combinations of all rules but sets of factors, in order of name. -/
def ordered (book : Rulebook) : Query (List Combination) :=
  book.combinations (fun _ => false) book.sortedNames

/-- The combinations that patterns choose. A set of factors is chosen by its very name only. -/
def select [RegexLibrary] (book : Rulebook) (patterns : List String) :
    Query (List Combination) := do
  let ps ← liftExcept (patterns.mapM Pattern.parse)
  let names ← liftExcept (Pattern.select ps book.sortedNames)
  book.combinations (fun name => ps.any fun p => p.names name) names

end Rulebook

end DesignLoads
