import DesignLoads.Alternative
import DesignLoads.Extremes

/-! Combinations: the named lists of load cases that a structure is designed for, with the options
that a caller attaches to them and the program passes on unread. -/

namespace DesignLoads

structure Options where
  values : NameMap Json

namespace Options

def empty : Options := ⟨.empty⟩

def get? (o : Options) (key : String) : Option Json := o.values.get? key

def set (o : Options) (key : String) (value : Json) : Options := ⟨o.values.insert key value⟩

def size (o : Options) : Nat := o.values.size

def isEmpty (o : Options) : Bool := o.values.isEmpty

/-- The options of `o` with those of `later` laid over them. -/
def merge (o later : Options) : Options := later.values.entries.foldl (fun o e => o.set e.1 e.2) o

end Options

instance : Json.Form Options where
  toJson o := .object o.values.entries
  ofSource? outer
    | .object ms =>
      match Json.Source.depthLimit - outer with
      | 0 => none
      | depth + 1 => (Json.Source.membersToJson? depth ms).map fun ms => ⟨.ofList ms⟩
    | _ => none

/-- A named list of load cases, in the order of their expansion. -/
structure Combination where
  name : String
  alternatives : List LoadCase
  options : Option Options

namespace Combination

/-- The text of a combination, itself a rule. -/
def chars (c : Combination) : List Char :=
  c.name.toList ++ ' ' :: '=' :: ' ' ::
    match c.alternatives with
    | [] => []
    | a :: as => a.chars ++ as.flatMap fun a => ' ' :: '|' :: ' ' :: a.chars

def text (c : Combination) : String := String.ofList c.chars

def evaluate (c : Combination) (results : NameMap Float) : Except Failure (List Float) :=
  c.alternatives.mapM fun a => a.superpose results

/-- The extreme responses, unless there is no alternative. -/
def envelope (c : Combination) (results : NameMap Float) : Except Failure (Option Envelope) := do
  let values ← c.evaluate results
  return Extremes.ofList? (values.mapIdx fun i x => .single ⟨x, i⟩)

end Combination

/-- The extreme responses of a list of combinations, unless none has an alternative. -/
def governing (cs : List Combination) (results : NameMap Float) :
    Except Failure (Option Governing) := do
  let envelopes ← cs.mapM fun c => do
    let e ← c.envelope results
    return e.map (Extremes.mapPlace fun i => (c.name, i))
  return Extremes.ofList? (envelopes.filterMap id)

instance : Json.Form Combination where
  toJson c := .object ([
    ("name", .string c.name), ("alternatives", Json.toJson c.alternatives)] ++
    match c.options with
    | some o => [("options", Json.toJson o)]
    | none => [])
  ofSource? outer s := do
    let [name, alternatives, options] ← s.fields? ["name", "alternatives", "options"] | none
    let name ← Json.required Json.Source.string? name
    let alternatives ← Json.required (Json.Form.ofSource? (outer + 1)) alternatives
    let options ← Json.defaulting none
      (Json.Source.option? (Json.Form.ofSource? (outer + 1))) options
    return ⟨name, alternatives, options⟩

end DesignLoads
