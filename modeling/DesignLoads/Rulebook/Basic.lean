import DesignLoads.Combination
import DesignLoads.Pattern
import DesignLoads.Rule

/-! Rule books: rules of different names, base load cases and attached options. -/

namespace DesignLoads

/-- How far an expansion may go, and when rules are resolved. -/
structure Settings where
  /-- The greatest number of alternatives that one step of an expansion may produce, if any. -/
  maxAlternatives : Option Nat
  /-- Whether every rule is resolved at once, and not when it is asked for. -/
  eager : Bool
deriving DecidableEq

namespace Settings

def standard : Settings := ⟨some 100000, false⟩

instance : Inhabited Settings := ⟨standard⟩

end Settings

instance : Json.Form Settings where
  toJson s := .object [
    ("max_alternatives", (s.maxAlternatives.map Json.ofNat).getD .null), ("eager", .bool s.eager)]
  ofSource? _ s := do
    let [limit, eager] ← s.fields? ["max_alternatives", "eager"] | none
    let limit ← Json.defaulting Settings.standard.maxAlternatives
      (Json.Source.option? Json.Source.nat?) limit
    let eager ← Json.defaulting Settings.standard.eager Json.Source.bool? eager
    return ⟨limit, eager⟩

/-- An index of a list of rules has the position of every rule under its name, and nothing else.
There is one only if all names are different. -/
def Indexes (index : NameMap Nat) (rules : List Rule) : Prop :=
  ∀ name position, index.get? name = some position ↔
    rules[position]?.map (·.name) = some name

/-- A list of rules of different names with their index, the base load cases that are declared, the
settings, and options for the combinations that patterns cover. -/
structure Rulebook where
  rules : List Rule
  index : NameMap Nat
  indexed : Indexes index rules
  baseCases : List String
  settings : Settings
  attachments : List (Pattern × Options)

/-- The index of a list of rules, of which those in `index` are behind: `position` is that of the
next rule. It fails at a rule whose name has a position already. -/
def indexFrom (index : NameMap Nat) (position : Nat) : List Rule → Except Failure (NameMap Nat)
  | [] => .ok index
  | rule :: rules =>
    if index.contains rule.name then .error (.duplicateRule rule.name)
    else indexFrom (index.insert rule.name position) (position + 1) rules

theorem Indexes.append {index : NameMap Nat} {rules : List Rule} {rule : Rule}
    (h : Indexes index rules) (hnew : index.get? rule.name = none) :
    Indexes (index.insert rule.name rules.length) (rules ++ [rule]) := by
  intro name position
  rw [NameMap.get?_insert]
  obtain hlt | rfl | hgt := Nat.lt_trichotomy position rules.length
  · rw [List.getElem?_append_left hlt, ← h]
    split
    · rename_i heq
      simp only [heq, hnew, Option.some.injEq, reduceCtorEq, iff_false]
      exact (Nat.ne_of_lt hlt).symm
    · rfl
  · have hout : index.get? name ≠ some rules.length := by simp [h name]
    simp only [List.getElem?_concat_length, Option.map_some, Option.some.injEq]
    split
    · simp [*]
    · rename_i hne
      exact iff_of_false hout fun heq => hne heq.symm
  · have hout : (rules ++ [rule])[position]? = none := by simp; omega
    have hout' : index.get? name ≠ some position := by
      rw [ne_eq, h, List.getElem?_eq_none (Nat.le_of_lt hgt)]
      simp
    rw [hout]
    split <;> simp [hout']
    omega

theorem indexes_of_indexFrom {index all : NameMap Nat} {before rules : List Rule}
    (hbefore : Indexes index before) (h : indexFrom index before.length rules = .ok all) :
    Indexes all (before ++ rules) := by
  induction rules generalizing index before with
  | nil =>
    cases h
    rwa [List.append_nil]
  | cons rule rules ih =>
    rw [indexFrom] at h
    split at h
    · cases h
    · rename_i hnew
      rw [NameMap.contains, Bool.not_eq_true, Option.isSome_eq_false_iff,
        Option.isNone_iff_eq_none] at hnew
      have hall := ih (hbefore.append hnew) (by rwa [List.length_append])
      rwa [List.append_assoc] at hall

theorem indexes_nil : Indexes .empty [] := by simp [Indexes]

namespace Rulebook

/-- The rule book of a list of rules, if no two have one name. -/
def ofRules (rules : List Rule) (baseCases : List String) (settings : Settings) :
    Except Failure Rulebook :=
  match h : indexFrom .empty 0 rules with
  | .error e => .error e
  | .ok index => .ok ⟨rules, index, indexes_of_indexFrom indexes_nil h, baseCases, settings, []⟩

def rule? (book : Rulebook) (name : String) : Option Rule := do
  let position ← book.index.get? name
  book.rules[position]?

def isRule (book : Rulebook) (name : String) : Bool := book.index.contains name

def isBaseCase (book : Rulebook) (name : String) : Bool := book.baseCases.contains name

/-- The names of the rules in the order of their lines. -/
def ruleNames (book : Rulebook) : List String := book.rules.map (·.name)

/-- The names of the rules in increasing order. -/
def sortedNames (book : Rulebook) : List String := book.ruleNames.mergeSort (· ≤ ·)

/-- The names of the rules that begin with `stem` and are longer, in the order of their lines. -/
def extending (book : Rulebook) (stem : String) : List String :=
  book.ruleNames.filter fun name => stem.toList.isPrefixOf name.toList && name ≠ stem

def attach [RegexLibrary] (book : Rulebook) (pattern : String) (options : Options) :
    Except Failure Rulebook := do
  let p ← Pattern.parse pattern
  return { book with attachments := book.attachments ++ [(p, options)] }

/-- The options attached to a name, later ones over earlier ones; none if no pattern covers it. -/
def optionsFor (book : Rulebook) (name : String) : Option Options :=
  match book.attachments.filter fun a => a.1.covers name with
  | [] => none
  | as => some (as.foldl (fun o a => o.merge a.2) .empty)

end Rulebook

end DesignLoads
