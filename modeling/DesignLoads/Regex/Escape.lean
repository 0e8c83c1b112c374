import DesignLoads.Regex.Basic
import DesignLoads.Regex.Fault

/-! Reading escape sequences, which stand for a character, a set of characters or an anchor. -/

namespace DesignLoads.Regex

/-- The meaning of the text at some place. -/
structure Flags where
  /-- A character stands for its variants in case, too. -/
  caseless : Bool
  /-- The anchors of a text are those of its lines. -/
  multiLine : Bool
  /-- A dot stands for the end of a line, too. -/
  dotAll : Bool
  /-- Lines may end in a carriage return. -/
  crlf : Bool
  /-- White space and comments say nothing. -/
  ignoreSpace : Bool
  /-- Repetitions are greedy where they would not be, and not where they would be. -/
  swapGreed : Bool
  /-- Sets of characters and words are those of ASCII. -/
  ascii : Bool

namespace Reading

def skipSpace (comment : Bool) : List Char → List Char
  | [] => []
  | c :: cs =>
    if comment then skipSpace (c ≠ '\n') cs
    else if Unicode.isWhiteSpace c then skipSpace false cs
    else if c = '#' then skipSpace true cs
    else c :: cs

/-- A text from the next character on that says something. -/
def ahead (fs : Flags) (cs : List Char) : List Char :=
  if fs.ignoreSpace then skipSpace false cs else cs

def span (fs : Flags) (property : Char → Bool) : Nat → List Char → List Char × List Char
  | fuel + 1, c :: cs =>
    if property c then
      let (taken, rest) := span fs property fuel (ahead fs cs)
      (c :: taken, rest)
    else ([], c :: cs)
  | _, cs => ([], cs)

/-- What stands for itself: a character, a set of characters or an anchor. -/
inductive Primitive where
  | char (c : Char)
  | set (s : CharSet)
  | anchor (a : Anchor)

def isHexDigit (c : Char) : Bool := c.isDigit || ('a' ≤ c && c ≤ 'f') || ('A' ≤ c && c ≤ 'F')

def hexValue (cs : List Char) : Nat :=
  cs.foldl (fun n c => 16 * n + (if c.isDigit then c.toNat - 0x30 else c.toNat % 32 + 9)) 0

/-- The character of a code point in hexadecimal digits. -/
def codePoint (digits rest : List Char) : Except Fault (Primitive × List Char) :=
  let n := hexValue digits
  if h : n.isValidChar then .ok (.char (Char.ofNatAux n h), rest) else .error .codePoint

/-- A code point in braces or with a fixed number of digits. Without Unicode, two digits stand for a
byte, which is no character beyond ASCII. -/
def hexEscape (fs : Flags) (width : Nat) (cs : List Char) : Except Fault (Primitive × List Char) :=
  match ahead fs cs with
  | [] => .error .escapeEnd
  | '\x7b' :: r =>
    match span fs isHexDigit (r.length + 1) (ahead fs r) with
    | (ds, '\x7d' :: rest) =>
      if ds.isEmpty then .error .codePoint else codePoint ds (ahead fs rest)
    | (_, []) => .error .escapeEnd
    | _ => .error .codePoint
  | r =>
    match span fs isHexDigit width r with
    | (ds, rest) =>
      if ds.length = width then
        if fs.ascii && width = 2 && 0x80 ≤ hexValue ds then .error .notText else codePoint ds rest
      else if rest.isEmpty then .error .escapeEnd
      else .error .codePoint

def boundaryKinds : List (String × WordEdge) := [
  ("start", .start), ("end", .finish), ("start-half", .startHalf), ("end-half", .finishHalf)]

/-- The kind of word boundary that braces name. Braces that begin with no letter belong to a
repetition. -/
def boundary (fs : Flags) (cs : List Char) : Except Fault (Primitive × List Char) :=
  match cs with
  | '\x7b' :: r =>
    match span fs (fun c => c.isAlpha || c = '-') (r.length + 1) (ahead fs r) with
    | ([], []) => .error .wordBoundary
    | ([], _) => .ok (.anchor (.word fs.ascii .boundary), cs)
    | (name, '\x7d' :: rest) =>
      match boundaryKinds.lookup (String.ofList name) with
      | some edge => .ok (.anchor (.word fs.ascii edge), rest)
      | none => .error .wordBoundary
    | _ => .error .wordBoundary
  | _ => .ok (.anchor (.word fs.ascii .boundary), cs)

/-- The characters and anchors that a character behind a backslash stands for. -/
def letterEscapes (fs : Flags) : List (Char × Primitive) := [
  ('a', .char '\x07'), ('f', .char '\x0c'), ('t', .char '\t'), ('n', .char '\n'),
  ('r', .char '\r'), ('v', .char '\x0b'), ('A', .anchor .textStart), ('z', .anchor .textEnd),
  ('B', .anchor (.word fs.ascii .noBoundary)), ('<', .anchor (.word fs.ascii .start)),
  ('>', .anchor (.word fs.ascii .finish))]

/-- The letters that stand for sets of characters, each with the set and its part in ASCII. -/
def setEscapes : List (Char × CharSet × CharSet) :=
  let ascii (name : String) := (CharSet.ascii? name).getD .none
  [('d', .digit, ascii "digit"), ('s', .space, ascii "space"), ('w', .word, ascii "word")]

/-- The set of a letter. A capital letter stands for all other characters. -/
def setEscape? (fs : Flags) (c : Char) : Option (Except Fault CharSet) :=
  (setEscapes.lookup c.toLower).map fun (unicode, ascii) =>
    match fs.ascii, c.isUpper with
    | false, false => .ok unicode
    | false, true => .ok unicode.compl
    | true, false => .ok ascii
    | true, true => .error .notText

/-- An escape sequence behind its backslash. An ASCII character without a meaning of its own stands
for itself, unless it is a letter or a digit. -/
def escape (fs : Flags) : List Char → Except Fault (Primitive × List Char)
  | [] => .error .escapeEnd
  | c :: cs =>
    if c.isDigit then .error .backreference
    else if c = 'x' then hexEscape fs 2 cs
    else if c = 'u' then hexEscape fs 4 cs
    else if c = 'U' then hexEscape fs 8 cs
    else if c = 'b' then boundary fs cs
    else match setEscape? fs c with
      | some s => do return (.set (← s), cs)
      | none =>
        match (letterEscapes fs).lookup c with
        | some p => .ok (p, cs)
        | none =>
          if c.isAlpha || 0x80 ≤ c.toNat then .error .escapeUnknown else .ok (.char c, cs)

end Reading

end DesignLoads.Regex
