import DesignLoads.Unicode.Folding
import DesignLoads.Unicode.WhiteSpace
import DesignLoads.Unicode.Word

/-! Sets of characters as regular expressions describe them. -/

namespace DesignLoads

/-- A set of characters, as the ranges of their code points in ascending order. No two of them
overlap or touch. -/
structure CharSet where
  ranges : List (Nat × Nat)
deriving DecidableEq

namespace CharSet

/-- The range from `first` to `last` and the ranges behind it, which are sorted by where they begin;
those that overlap or touch become one. -/
def merge (first last : Nat) : List (Nat × Nat) → List (Nat × Nat)
  | [] => [(first, last)]
  | (a, b) :: rs =>
    if a ≤ last + 1 then merge first (max last b) rs else (first, last) :: merge a b rs

def ofRanges (rs : List (Nat × Nat)) : CharSet :=
  match rs.mergeSort fun r s => r.1 ≤ s.1 with
  | [] => ⟨[]⟩
  | (a, b) :: rs => ⟨merge a b rs⟩

def ofPoints (ns : List Nat) : CharSet := ofRanges (ns.map fun n => (n, n))

def none : CharSet := ⟨[]⟩

def single (c : Char) : CharSet := ⟨[(c.toNat, c.toNat)]⟩

/-- Whether a code point lies in one of some ascending ranges. -/
def inAscending (n : Nat) : List (Nat × Nat) → Bool
  | [] => false
  | (a, b) :: rs => a ≤ n && (n ≤ b || inAscending n rs)

def has (s : CharSet) (n : Nat) : Bool := inAscending n s.ranges

def contains (s : CharSet) (c : Char) : Bool := s.has c.toNat

def union (s t : CharSet) : CharSet := ofRanges (s.ranges ++ t.ranges)

/-- The code points from `next` on that lie outside of some ranges. Between `0xd7ff` and `0xe000`
there are none of characters. -/
def gaps (next : Nat) : List (Nat × Nat) → List (Nat × Nat)
  | [] => if next ≤ 0x10ffff then [(next, 0x10ffff)] else []
  | (a, b) :: rs =>
    let rest := gaps (if b = 0xd7ff then 0xe000 else b + 1) rs
    if next < a then (next, if a = 0xe000 then 0xd7ff else a - 1) :: rest else rest

def compl (s : CharSet) : CharSet := ⟨gaps 0 s.ranges⟩

def inter (s t : CharSet) : CharSet := (s.compl.union t.compl).compl

def diff (s t : CharSet) : CharSet := (s.compl.union t).compl

/-- The characters of exactly one of two sets. -/
def symmDiff (s t : CharSet) : CharSet := (s.diff t).union (t.diff s)

/-- The set with all characters that differ from one of its own in case alone. -/
def caseless (s : CharSet) (foldings : List (Nat × Nat)) : CharSet :=
  let folded := ofPoints ((foldings.filter fun (n, t) => s.has n || s.has t).map (·.2))
  let unfolded := ofPoints ((foldings.filter fun (_, t) => folded.has t).map (·.1))
  (s.union folded).union unfolded

def digit : CharSet := ofRanges Unicode.digitRanges

def space : CharSet := ofRanges Unicode.whiteSpaceRanges

def word : CharSet := ofRanges Unicode.wordRanges

/-- The ASCII classes that have a name within brackets. -/
def asciiClasses : List (String × List (Char × Char)) := [
  ("alnum", [('0', '9'), ('A', 'Z'), ('a', 'z')]),
  ("alpha", [('A', 'Z'), ('a', 'z')]),
  ("ascii", [('\x00', '\x7f')]),
  ("blank", [('\t', '\t'), (' ', ' ')]),
  ("cntrl", [('\x00', '\x1f'), ('\x7f', '\x7f')]),
  ("digit", [('0', '9')]),
  ("graph", [('!', '~')]),
  ("lower", [('a', 'z')]),
  ("print", [(' ', '~')]),
  ("punct", [('!', '/'), (':', '@'), ('[', '\x60'), ('\x7b', '~')]),
  ("space", [('\t', '\r'), (' ', ' ')]),
  ("upper", [('A', 'Z')]),
  ("word", [('0', '9'), ('A', 'Z'), ('_', '_'), ('a', 'z')]),
  ("xdigit", [('0', '9'), ('A', 'F'), ('a', 'f')])]

def ascii? (name : String) : Option CharSet :=
  (asciiClasses.lookup name).map fun rs => ofRanges (rs.map fun (a, b) => (a.toNat, b.toNat))

end CharSet

end DesignLoads
