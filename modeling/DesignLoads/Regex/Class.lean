import DesignLoads.Regex.Escape

/-! Reading character classes in brackets. -/

namespace DesignLoads.Regex.Reading

/-- A set of characters, and how deeply its description is nested. -/
structure Class where
  set : CharSet
  depth : Nat

inductive SetOperator where
  | inter
  | diff
  | symmDiff

def SetOperator.apply : SetOperator → CharSet → CharSet → CharSet
  | inter => .inter
  | diff => .diff
  | symmDiff => .symmDiff

/-- The items of a class since its last operator, backwards. -/
abbrev Items := List Class

/-- The union of some items. Two or more of them are one level deeper than the deepest of them. -/
def Items.union : Items → Class
  | [] => ⟨.none, 0⟩
  | [c] => c
  | cs => ⟨.ofRanges (cs.flatMap (·.set.ranges)), cs.foldl (fun n c => max n c.depth) 0 + 1⟩

/-- A left operand and an operator that wait for a right operand. -/
abbrev Pending := Option (Class × SetOperator)

/-- A set with the variants of its characters in case, if they belong to it. -/
def fold (fs : Flags) (s : CharSet) : CharSet :=
  if fs.caseless then
    s.caseless (if fs.ascii then Unicode.foldings.filter (·.2 < 0x80) else Unicode.foldings)
  else s

/-- All other characters, if asked for. Without Unicode there would be bytes among them. -/
def complement (fs : Flags) (negated : Bool) (s : CharSet) : Except Fault CharSet :=
  if negated then if fs.ascii then .error .notText else .ok s.compl
  else .ok s

def Pending.close (fs : Flags) (p : Pending) (right : Class) : Class :=
  match p with
  | none => right
  | some (left, op) =>
    ⟨op.apply (fold fs left.set) (fold fs right.set), max left.depth right.depth + 1⟩

/-- A character, or an escape sequence, within a class. -/
def classItem (fs : Flags) : List Char → Except Fault (Primitive × List Char)
  | [] => .error .classUnclosed
  | '\x5c' :: cs => escape fs cs
  | c :: cs => .ok (.char c, cs)

def charRange (fs : Flags) (first last : Char) : Except Fault CharSet :=
  if last < first then .error .classRange
  else if fs.ascii && 0x80 ≤ last.toNat then .error .notText
  else .ok ⟨[(first.toNat, last.toNat)]⟩

/-- An item of a class: a character, a range or a set. A minus sign before the end of the class or
before another minus sign makes no range. -/
def classRange (fs : Flags) (cs : List Char) : Except Fault (CharSet × List Char) := do
  let (first, r) ← classItem fs cs
  let alone : Except Fault (CharSet × List Char) := match first with
    | .char c => do return (← charRange fs c c, ahead fs r)
    | .set s => .ok (s, ahead fs r)
    | .anchor _ => .error .classItem
  match ahead fs r with
  | [] => .error .classUnclosed
  | '-' :: r' =>
    match ahead fs r' with
    | [] => .error .classUnclosed
    | ']' :: _ => alone
    | '-' :: _ => alone
    | r' => do
      let (last, rest) ← classItem fs r'
      match first, last with
      | .char a, .char b => return (← charRange fs a b, rest)
      | _, _ => .error .classRange
  | _ => alone

/-- A named ASCII class behind its opening bracket, such as `:alpha:]`. -/
def asciiClass? (fs : Flags) : List Char → Option (Except Fault CharSet × List Char)
  | ':' :: cs =>
    let (negated, r) := match cs with
      | '^' :: r => (true, r)
      | r => (false, r)
    match r.dropWhile (· ≠ ':') with
    | ':' :: ']' :: rest =>
      (CharSet.ascii? (String.ofList (r.takeWhile (· ≠ ':')))).map fun s =>
        (complement fs negated (fold fs s), rest)
    | _ => none
  | _ => none

/-- Minus signs at the head of a class stand for themselves. -/
def leadingMinus (fs : Flags) : Nat → List Char → Nat × List Char
  | fuel + 1, '-' :: cs =>
    let (n, rest) := leadingMinus fs fuel (ahead fs cs)
    (n + 1, rest)
  | _, cs => (0, cs)

mutual

/-- A class from behind its opening bracket to its closing bracket, and the rest. -/
def charClass (fs : Flags) : Nat → List Char → Except Fault (Class × List Char)
  | 0, _ => .error .classUnclosed
  | fuel + 1, cs => do
    let r := ahead fs cs
    let (negated, r) := match r with
      | '^' :: r => (true, ahead fs r)
      | r => (false, r)
    let (minuses, r) := leadingMinus fs r.length r
    let items : Items := List.replicate minuses ⟨.single '-', 0⟩
    let (items, r) := match minuses, r with
      | 0, ']' :: r => ([⟨.single ']', 0⟩], ahead fs r)
      | _, r => (items, r)
    let (c, rest) ← classBody fs fuel none items r
    return (⟨← complement fs negated (fold fs c.set), c.depth + 1⟩, rest)

/-- The items of a class up to its closing bracket. -/
def classBody (fs : Flags) :
    Nat → Pending → Items → List Char → Except Fault (Class × List Char)
  | 0, _, _, _ => .error .classUnclosed
  | fuel + 1, pending, items, cs =>
    let operator (op : SetOperator) (r : List Char) :=
      classBody fs fuel (some (pending.close fs items.union, op)) [] r
    match ahead fs cs with
    | [] => .error .classUnclosed
    | ']' :: rest => .ok (pending.close fs items.union, rest)
    | '[' :: r =>
      match asciiClass? fs r with
      | some (s, rest) => do classBody fs fuel pending (⟨← s, 0⟩ :: items) rest
      | none => do
        let (c, rest) ← charClass fs fuel r
        classBody fs fuel pending (c :: items) rest
    | '&' :: '&' :: r => operator .inter r
    | '-' :: '-' :: r => operator .diff r
    | '~' :: '~' :: r => operator .symmDiff r
    | r => do
      let (s, rest) ← classRange fs r
      classBody fs fuel pending (⟨s, 0⟩ :: items) rest

end

end DesignLoads.Regex.Reading
