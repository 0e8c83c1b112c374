/-! How large an automaton over bytes gets while it is built from pieces. -/

namespace DesignLoads.Regex.Automaton

/-- An automaton under construction. A transition on a range of bytes takes two slots, one that
needs no byte takes one; a state with one transition keeps it without a slot. -/
structure Draft where
  states : Nat
  slots : Nat
  /-- Whether the last state branches. Then going on from there takes a slot. -/
  branching : Bool

/-- The greatest number of bytes that an automaton may take. -/
def sizeLimit : Nat := 10 * 1024 * 1024

namespace Draft

def size (d : Draft) : Nat := 32 * d.states + 4 * d.slots

/-- A draft with more states and slots, unless it gets too large. -/
def add (states slots : Nat) (d : Draft) : Option Draft :=
  let grown : Draft := ⟨d.states + states, d.slots + slots, false⟩
  if grown.size ≤ sizeLimit then some grown else none

/-- A draft to whose last state something is going to be joined. -/
def link (d : Draft) : Option Draft := if d.branching then d.add 0 1 else some d

end Draft

/-- A part of an automaton, by what it makes of a draft to whose last state it is joined. -/
abbrev Piece := Draft → Option Draft

namespace Piece

def followedBy (p q : Piece) : Piece := fun d => do q (← (← p d).link)

def copies (p : Piece) : Nat → Piece
  | 0, d => some d
  | n + 1, d =>
    match d.link.bind p with
    | some d => copies p n d
    | none => none

def exactly (p : Piece) (n : Nat) : Piece :=
  if n = 0 then Draft.add 1 0 else fun d => do p.copies (n - 1) (← p d)

def optional (p : Piece) : Piece := fun d => do
  (← (← p (← d.add 1 2)).link).add 1 0

/-- A piece that may be passed any number of times. If it can be passed without a byte, then one
more state keeps apart what was not passed at all. -/
def star (takesBytes : Bool) (p : Piece) : Piece := fun d => do
  if takesBytes then
    let d ← (← p (← d.add 1 1)).link
    return { d with branching := true }
  else (← (← p d).link).add 3 4

def atLeast (p : Piece) (n : Nat) : Piece := fun d => do
  let d ← (← (← p.exactly n d).link).add 1 1
  return { d with branching := true }

def between (p : Piece) (least most : Nat) : Piece := fun d => do
  let d ← (← (← p.exactly least d).link).add 1 0
  let more : Piece := fun d => do p (← d.add 1 2)
  (← more.copies (most - least) d).link

def repeated (takesBytes : Bool) (p : Piece) : Nat → Option Nat → Piece
  | 0, some 1 => p.optional
  | 0, none => p.star takesBytes
  | n, none => p.atLeast n
  | least, some most => if least = most then p.exactly least else p.between least most

def choice (p q : Piece) (rest : List Piece) : Piece := fun d => do
  let branch (d : Draft) (p : Piece) : Option Draft := do (← (← p d).link).add 0 1
  let d ← branch (← branch d p) q
  rest.foldlM branch (← d.add 2 0)

end Piece

end DesignLoads.Regex.Automaton
