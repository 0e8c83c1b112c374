import DesignLoads.Regex.Automaton.Size
import DesignLoads.Regex.Class

/-! Reading regular expressions.

An expression is a choice of concatenations of repeated atoms; an atom is a character, a set of
characters, an anchor or a group. Flags at the head of a group, or on their own for the rest of the
group around them, change what the text after them means. -/

namespace DesignLoads.Regex

namespace Reading

/-! ### Repetitions -/

/-- A decimal number below `2 ^ 32`, with white space on both sides. -/
def count (fs : Flags) (cs : List Char) : Except Fault (Nat × List Char) :=
  match span fs Char.isDigit (cs.length + 1) (Unicode.trimStart cs) with
  | ([], _) => .error .repetitionCount
  | (ds, rest) =>
    let n := ds.foldl (fun n c => 10 * n + (c.toNat - 0x30)) 0
    if n < UInt32.size then .ok (n, ahead fs (Unicode.trimStart rest)) else .error .repetitionCount

/-- The least and the greatest number of repetitions, from behind the opening brace on. -/
def counts (fs : Flags) (cs : List Char) : Except Fault ((Nat × Option Nat) × List Char) :=
  match ahead fs cs with
  | [] => .error .repetitionUnclosed
  | r =>
    match count fs r with
    | .error e => .error (if (Unicode.trimStart r).isEmpty then .repetitionUnclosed else e)
    | .ok (least, ',' :: r) =>
      match ahead fs r with
      | [] => .error .repetitionUnclosed
      | '\x7d' :: rest => .ok ((least, none), rest)
      | r => do
        match ← count fs r with
        | (most, '\x7d' :: rest) =>
          if least ≤ most then .ok ((least, some most), rest) else .error .repetitionCount
        | _ => .error .repetitionUnclosed
    | .ok (n, '\x7d' :: rest) => .ok ((n, some n), rest)
    | .ok _ => .error .repetitionUnclosed

/-- Whether a repetition is marked to take as little as it can, and the text behind the mark. -/
def lazyMark : List Char → Bool × List Char
  | '?' :: cs => (true, cs)
  | cs => (false, cs)

/-! ### Groups -/

/-- The flags with one of them set or cleared. -/
def setFlag? (c : Char) (value : Bool) (fs : Flags) : Option Flags :=
  match c with
  | 'i' => some { fs with caseless := value }
  | 'm' => some { fs with multiLine := value }
  | 's' => some { fs with dotAll := value }
  | 'R' => some { fs with crlf := value }
  | 'x' => some { fs with ignoreSpace := value }
  | 'U' => some { fs with swapGreed := value }
  | 'u' => some { fs with ascii := !value }
  | _ => none

/-- Flags up to a colon or a closing parenthesis, each at most once. Those behind a minus sign are
cleared. -/
def flags (value : Bool) (seen : List Char) (fs : Flags) :
    List Char → Except Fault (Flags × List Char)
  | [] => .error .flag
  | c :: cs =>
    if c = ':' ∨ c = ')' then
      if seen.head? = some '-' then .error .flag else .ok (fs, c :: cs)
    else if seen.contains c then .error .flag
    else if c = '-' then flags false (c :: seen) fs cs
    else match setFlag? c value fs with
      | some fs => flags value (c :: seen) fs cs
      | none => .error .flag

def groupName (taken : List (List Char)) (cs : List Char) : Except Fault (List Char × List Char) :=
  let name := cs.takeWhile (· ≠ '>')
  let isHead (c : Char) := c = '_' || Unicode.isAlphabetic c
  let isTail (c : Char) := isHead c || Unicode.isNumeric c || c = '.' || c = '[' || c = ']'
  match cs.dropWhile (· ≠ '>') with
  | [] => .error .groupName
  | _ :: rest =>
    if name.head?.any isHead && name.all isTail && !taken.contains name then .ok (name, rest)
    else .error .groupName

/-- How a group opens, behind its parenthesis. A group without flags of its own is counted. -/
inductive Opening where
  | counted (name : Option (List Char))
  | uncounted (fs : Flags)
  | flags (fs : Flags)

def opening (fs : Flags) (taken : List (List Char)) (cs : List Char) :
    Except Fault (Opening × List Char) :=
  let named (r : List Char) : Except Fault (Opening × List Char) := do
    let (name, rest) ← groupName taken r
    return (.counted (some name), rest)
  match ahead fs cs with
  | '?' :: '=' :: _ => .error .lookAround
  | '?' :: '!' :: _ => .error .lookAround
  | '?' :: '<' :: '=' :: _ => .error .lookAround
  | '?' :: '<' :: '!' :: _ => .error .lookAround
  | '?' :: 'P' :: '<' :: r => named r
  | '?' :: '<' :: r => named r
  | '?' :: [] => .error .groupUnclosed
  | '?' :: ')' :: _ => .error .nothingToRepeat
  | '?' :: r => do
    match ← flags true [] fs r with
    | (fs, ')' :: rest) => return (.flags fs, rest)
    | (fs, rest) => return (.uncounted fs, rest.drop 1)
  | r => .ok (.counted none, r)

/-! ### Expressions -/

def depthLimit : Nat := 250

structure Nested where
  expression : Regex
  depth : Nat

/-- An expression whose description is not nested too deeply. -/
def nested (r : Regex) (depth : Nat) : Except Fault Nested :=
  if depth ≤ depthLimit then .ok ⟨r, depth⟩ else .error .tooDeep

/-- What some expressions make together. Two or more of them are one level deeper than the deepest
of them. -/
def gather (make : List Regex → Regex) : List Nested → Except Fault Nested
  | [n] => .ok n
  | ns =>
    let depth := if ns.isEmpty then 0 else ns.foldl (fun d n => max d n.depth) 0 + 1
    nested (make (ns.map (·.expression))) depth

/-- A part of a concatenation. Flags count as a part that says nothing and cannot be repeated. -/
inductive Item where
  | expression (n : Nested)
  | flags

def Item.nested : Item → Nested
  | expression n => n
  | flags => ⟨empty, 0⟩

/-- What has been read of a group: its finished alternatives and the parts of the current one, both
backwards, the names of the groups so far and the number of those that are counted. -/
structure Group where
  flags : Flags
  alternatives : List Nested
  items : List Item
  names : List (List Char)
  count : Nat

namespace Group

def current (g : Group) : Except Fault Nested :=
  gather concat (g.items.reverse.map Item.nested)

def whole (g : Group) : Except Fault Nested := do
  gather alternation (g.alternatives.reverse ++ [← g.current])

def push (g : Group) (r : Regex) (depth : Nat) : Except Fault Group := do
  return { g with items := .expression (← nested r depth) :: g.items }

def repeatLast (g : Group) (least : Nat) (most : Option Nat) (isLazy : Bool) :
    Except Fault Group :=
  match g.items with
  | .expression n :: items =>
    let r := repeated least most (isLazy == g.flags.swapGreed) n.expression
    { g with items }.push r (n.depth + 1)
  | _ => .error .nothingToRepeat

end Group

def startAnchor (fs : Flags) : Anchor := if fs.multiLine then .lineStart fs.crlf else .textStart

def endAnchor (fs : Flags) : Anchor := if fs.multiLine then .lineEnd fs.crlf else .textEnd

def dot (fs : Flags) : Except Fault CharSet :=
  let excluded : CharSet :=
    if fs.dotAll then .none
    else if fs.crlf then .ofPoints ['\n'.toNat, '\r'.toNat]
    else .single '\n'
  complement fs true excluded

/-- A character, or the set of its variants in case. -/
def charRegex (fs : Flags) (c : Char) : Regex :=
  if fs.caseless && (!fs.ascii || c.toNat < 0x80) then
    let variants := Unicode.caseVariants c.toNat
    ofSet (.ofPoints (if fs.ascii then variants.filter (· < 0x80) else variants))
  else literal c []

def Primitive.toRegex (fs : Flags) : Primitive → Regex
  | char c => charRegex fs c
  | set s => ofSet s
  | anchor a => Regex.anchor a

/-- The rest of a group up to its closing parenthesis, which stays, or to the end of the text. -/
def group : Nat → Group → List Char → Except Fault (Group × List Char)
  | 0, _, _ => .error .groupUnclosed
  | fuel + 1, g, cs =>
    let repeated (least : Nat) (most : Option Nat) (r : List Char) := do
      let (isLazy, rest) := lazyMark r
      group fuel (← g.repeatLast least most isLazy) rest
    match ahead g.flags cs with
    | [] => .ok (g, [])
    | ')' :: r => .ok (g, ')' :: r)
    | '|' :: r => do
      group fuel { g with alternatives := (← g.current) :: g.alternatives, items := [] } r
    | '(' :: r => do
      match ← opening g.flags g.names r with
      | (.flags fs, rest) => group fuel { g with flags := fs, items := .flags :: g.items } rest
      | (.uncounted fs, r) =>
        match ← group fuel ⟨fs, [], [], g.names, g.count⟩ r with
        | (inner, ')' :: rest) =>
          let n ← inner.whole
          let g := { g with names := inner.names, count := inner.count }
          group fuel (← g.push n.expression (n.depth + 1)) rest
        | _ => .error .groupUnclosed
      | (.counted name, r) =>
        let index := g.count + 1
        match ← group fuel ⟨g.flags, [], [], name.toList ++ g.names, index⟩ r with
        | (inner, ')' :: rest) =>
          let n ← inner.whole
          let g := { g with names := inner.names, count := inner.count }
          group fuel (← g.push (.group index n.expression) (n.depth + 1)) rest
        | _ => .error .groupUnclosed
    | '[' :: r => do
      let (c, rest) ← charClass g.flags (2 * r.length + 2) r
      group fuel (← g.push (ofSet c.set) c.depth) rest
    | '?' :: r => repeated 0 (some 1) r
    | '*' :: r => repeated 0 none r
    | '+' :: r => repeated 1 none r
    | '\x7b' :: r => do
      let _ ← g.repeatLast 0 none false
      let ((least, most), rest) ← counts g.flags r
      repeated least most (ahead g.flags rest)
    | '.' :: r => do group fuel (← g.push (ofSet (← dot g.flags)) 0) r
    | '^' :: r => do group fuel (← g.push (anchor (startAnchor g.flags)) 0) r
    | '$' :: r => do group fuel (← g.push (anchor (endAnchor g.flags)) 0) r
    | '\x5c' :: r => do
      let (p, rest) ← escape g.flags r
      group fuel (← g.push (p.toRegex g.flags) 0) rest
    | c :: r => do group fuel (← g.push (charRegex g.flags c) 0) r

end Reading

/-- Reads a regular expression, which must not be too large. -/
def parse (text : String) : Except Fault Regex := do
  let cs := text.toList
  let flags : Flags := ⟨false, false, false, false, false, false, false⟩
  match ← Reading.group (cs.length + 1) ⟨flags, [], [], [], 0⟩ cs with
  | (g, []) =>
    let n ← g.whole
    if n.expression.isSmall then return n.expression else throw .tooLarge
  | _ => throw .groupUnopened

end DesignLoads.Regex
