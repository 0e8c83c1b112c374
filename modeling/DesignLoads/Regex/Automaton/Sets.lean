import DesignLoads.Regex.Automaton.Draft
import DesignLoads.Unicode.Encoding
import Std.Data.HashMap

/-! The size of the part of an automaton that reads one character of a set. States that lead on
alike are shared, as far as a memory of limited size knows of them: a new state takes the place of
another one that has the same hash. -/

namespace DesignLoads.Regex.Automaton

/-- The spelling of characters in UTF-8, a range for each byte. -/
abbrev Spelling := List (Nat × Nat)

/-- The Fowler–Noll–Vo hash of some numbers, modulo the size of a memory. -/
def place (size : Nat) (ns : List Nat) : Nat :=
  let hash := ns.foldl (fun h n => (h ^^^ UInt64.ofNat n) * 1099511628211)
    (14695981039346656037 : UInt64)
  hash.toNat % size

/-- The states so far, their slots, and by place the last description there with its state. -/
structure Memory where
  states : Nat
  slots : Nat
  known : Std.HashMap Nat (List Nat × Nat)

/-- The state of a description, which is a new one with some slots unless it is known. -/
def Memory.state (size slots : Nat) (description : List Nat) (m : Memory) : Nat × Memory :=
  let i := place size description
  let fresh := (m.states,
    ⟨m.states + 1, m.slots + slots, m.known.insert i (description, m.states)⟩)
  match m.known[i]? with
  | some (other, state) => if other = description then (state, m) else fresh
  | none => fresh

/-- The state that reads what is left of spellings that begin alike, and leads to `target`. -/
def forwardState (target : Nat) : Nat → List Spelling → Memory → Nat × Memory
  | 0, _, m => (target, m)
  | depth + 1, spellings, m =>
    if spellings.all List.isEmpty then (target, m)
    else
      let groups := spellings.splitBy fun a b => a.head? == b.head?
      let (description, m) := groups.foldl (fun (description, m) group =>
        let (next, m) := forwardState target depth (group.map List.tail) m
        let (first, last) := (group.headD []).headD (0, 0)
        (next :: last :: first :: description, m)) ([], m)
      m.state 10000 (2 * groups.length) description.reverse

/-- The states that read spellings from their first byte on. -/
def forwardSet (spellings : List Spelling) : Piece := fun d =>
  let (_, m) := forwardState d.states 4 spellings ⟨d.states + 1, 0, ∅⟩
  d.add (m.states - d.states) m.slots

/-- The states that read spellings from their last byte on. All begin at one state that branches. -/
def backwardSet (spellings : List Spelling) : Piece := fun d =>
  let m := spellings.foldl (fun m spelling =>
    let (_, m) := spelling.foldl (fun (next, m) (first, last) =>
      m.state 1000 0 [next, first, last]) (d.states + 1, m)
    { m with slots := m.slots + 1 }) (⟨d.states + 2, 0, ∅⟩ : Memory)
  d.add (m.states - d.states) m.slots

end DesignLoads.Regex.Automaton
