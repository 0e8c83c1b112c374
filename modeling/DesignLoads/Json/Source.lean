import DesignLoads.Json.Basic
import DesignLoads.NameMap

/-! Reading JSON.

A text is first read as it is written: numerals keep their digits, objects their repeated names.
What a part of it means is decided by the reader of that part, so a part that nobody reads only has
to be well formed. -/

namespace DesignLoads.Json

/-- A number as it is written. -/
structure Numeral where
  negative : Bool
  whole : List Char
  fraction : Option (List Char)
  exponent : Option Int
deriving DecidableEq

/-- A value as it is written. A string without a text has half of a surrogate pair. -/
inductive Source where
  | null
  | bool (value : Bool)
  | number (value : Numeral)
  | string (value : Option String)
  | array (items : List Source)
  | object (members : List (Option String × Source))

/-! ### Numbers -/

namespace Numeral

/-- The digits that a number gathers while it stays below `2 ^ 64`, and those left over. -/
def gather (n : Nat) : List Char → Nat × List Char
  | [] => (n, [])
  | c :: cs =>
    let next := 10 * n + (c.toNat - '0'.toNat)
    if next < UInt64.size then gather next cs else (n, c :: cs)

/-- `x / 10 ^ n`, where one division takes at most `308` places. -/
def shrink (x : Float) (n : Nat) : Float :=
  if n ≤ 308 then x / Float.ofScientific 1 false n
  else if x == 0 then x
  else shrink (x / Float.ofScientific 1 false 308) (n - 308)
termination_by n

/-- `x * 10 ^ e`, unless that is too great. -/
def shift? (x : Float) (e : Int) : Option Float :=
  if e < 0 then some (shrink x e.natAbs)
  else if 308 < e then if x == 0 then some x else none
  else
    let y := x * Float.ofScientific 1 false e.toNat
    if y.isInf then none else some y

/-- The floating-point value of a numeral: as many leading digits as fit in 64 bits, shifted by a
power of ten. -/
def real? (n : Numeral) : Option Float :=
  let (head, dropped) := gather 0 n.whole
  let fraction := n.fraction.getD []
  let (digits, unread) := gather head fraction
  let places : Int := fraction.length - unread.length
  let e := dropped.length - places + n.exponent.getD 0
  let x := digits.toUInt64.toFloat
  (shift? x e).map fun y => if n.negative then -y else y

/-- The number that a numeral stands for. One without point and exponent is an integer if it fits
in 64 bits; minus zero does not. -/
def number? (n : Numeral) : Option Number :=
  if n.fraction.isNone && n.exponent.isNone then
    let value := Decimal.ofDigits n.whole
    if n.negative then
      if 0 < value && value ≤ Nat.pow 2 63 then some (.integer (-value)) else n.real?.map .real
    else if value < UInt64.size then some (.integer value) else n.real?.map .real
  else n.real?.map .real

def splitMinus : List Char → Bool × List Char
  | '-' :: r => (true, r)
  | r => (false, r)

/-- The digits before the point, and the rest. A zero in front stands alone. -/
def spanWhole : List Char → List Char × List Char
  | '0' :: r => (['0'], r)
  | r => Decimal.spanDigits r

/-- The digits after a point, which may not be missing, and the rest. -/
def scanFraction? : List Char → Option (Option (List Char) × List Char)
  | '.' :: r => match Decimal.spanDigits r with
    | ([], _) => none
    | (ds, rest) => some (some ds, rest)
  | r => some (none, r)

/-- An exponent, whose digits may not be missing, and the rest. -/
def scanPower? : List Char → Option (Option Int × List Char)
  | [] => some (none, [])
  | c :: r =>
    if c = 'e' ∨ c = 'E' then
      match Decimal.scanExponent (c :: r) with
      | (e, rest) => if rest.length = r.length + 1 then none else some (some e, rest)
    else some (none, c :: r)

/-- Reads a numeral: no superfluous zero in front, and digits on both sides of a point. -/
def scan? (cs : List Char) : Option (Numeral × List Char) := do
  let (negative, r) := splitMinus cs
  let (whole, r) := spanWhole r
  if whole.isEmpty then none
  else
    let (fraction, r) ← scanFraction? r
    let (exponent, r) ← scanPower? r
    some (⟨negative, whole, fraction, exponent⟩, r)

end Numeral

/-! ### Strings -/

/-- A part of a string as it is written: a character, or a numbered UTF-16 unit. -/
inductive Piece where
  | char (value : Char)
  | unit (value : Nat)
deriving DecidableEq

def hexDigit? (c : Char) : Option Nat :=
  if c.isDigit then some (c.toNat - '0'.toNat)
  else if 'a' ≤ c && c ≤ 'f' then some (c.toNat - 'a'.toNat + 10)
  else if 'A' ≤ c && c ≤ 'F' then some (c.toNat - 'A'.toNat + 10)
  else none

/-- What a backslash and one more character stand for. -/
def unescape? (c : Char) : Option Char :=
  if c = '\x22' ∨ c = '\x5c' ∨ c = '/' then some c
  else if c = 'b' then some '\x08'
  else if c = 'f' then some '\x0c'
  else if c = 'n' then some '\n'
  else if c = 'r' then some '\r'
  else if c = 't' then some '\t'
  else none

/-- The pieces of a string, from behind its opening quote to its closing quote, and the rest. -/
def scanPieces? : List Char → Option (List Piece × List Char)
  | [] => none
  | '\x22' :: r => some ([], r)
  | '\x5c' :: 'u' :: a :: b :: c :: d :: r => do
    let n := 4096 * (← hexDigit? a) + 256 * (← hexDigit? b) + 16 * (← hexDigit? c) + (← hexDigit? d)
    let (ps, rest) ← scanPieces? r
    some (.unit n :: ps, rest)
  | '\x5c' :: c :: r => do
    let c ← unescape? c
    let (ps, rest) ← scanPieces? r
    some (.char c :: ps, rest)
  | c :: r => do
    if c.toNat < 0x20 ∨ c = '\x5c' then none
    else
      let (ps, rest) ← scanPieces? r
      some (.char c :: ps, rest)

/-- The characters of a string, whose surrogate units come in pairs. -/
def joinPieces? : List Piece → Option (List Char)
  | [] => some []
  | .char c :: r => (joinPieces? r).map (c :: ·)
  | .unit n :: .unit m :: r =>
    if 0xd800 ≤ n && n < 0xdc00 then
      if 0xdc00 ≤ m && m < 0xe000 then
        (joinPieces? r).map (Char.ofNat (0x10000 + (n - 0xd800) * 1024 + (m - 0xdc00)) :: ·)
      else none
    else if 0xdc00 ≤ n && n < 0xe000 then none
    else (joinPieces? (.unit m :: r)).map (Char.ofNat n :: ·)
  | .unit n :: r =>
    if 0xd800 ≤ n && n < 0xe000 then none else (joinPieces? r).map (Char.ofNat n :: ·)

def scanString? (cs : List Char) : Option (Option String × List Char) :=
  (scanPieces? cs).map fun (ps, rest) => ((joinPieces? ps).map String.ofList, rest)

/-! ### Values -/

namespace Source

def isSpace (c : Char) : Bool := c = ' ' || c = '\t' || c = '\r' || c = '\n'

def skipSpace (cs : List Char) : List Char := cs.dropWhile isSpace

/-- A text without the word it begins with. -/
def dropWord? (word cs : List Char) : Option (List Char) :=
  if word.isPrefixOf cs then some (cs.drop word.length) else none

mutual

/-- A value at the head of a text, and the rest. -/
def value? : Nat → List Char → Option (Source × List Char)
  | 0, _ => none
  | fuel + 1, cs =>
    match skipSpace cs with
    | [] => none
    | '\x22' :: r => (scanString? r).map fun (s, rest) => (.string s, rest)
    | '[' :: r =>
      match skipSpace r with
      | ']' :: rest => some (.array [], rest)
      | _ => (items? fuel r).map fun (xs, rest) => (.array xs, rest)
    | '\x7b' :: r =>
      match skipSpace r with
      | '\x7d' :: rest => some (.object [], rest)
      | _ => (members? fuel r).map fun (ms, rest) => (.object ms, rest)
    | 'n' :: r => (dropWord? "ull".toList r).map (.null, ·)
    | 't' :: r => (dropWord? "rue".toList r).map (.bool true, ·)
    | 'f' :: r => (dropWord? "alse".toList r).map (.bool false, ·)
    | cs => (Numeral.scan? cs).map fun (n, rest) => (.number n, rest)

def items? : Nat → List Char → Option (List Source × List Char)
  | 0, _ => none
  | fuel + 1, cs => do
    let (x, r) ← value? fuel cs
    match skipSpace r with
    | ']' :: rest => some ([x], rest)
    | ',' :: r => do
      let (xs, rest) ← items? fuel r
      some (x :: xs, rest)
    | _ => none

def members? : Nat → List Char → Option (List (Option String × Source) × List Char)
  | 0, _ => none
  | fuel + 1, cs =>
    match skipSpace cs with
    | '\x22' :: r => do
      let (name, r) ← scanString? r
      match skipSpace r with
      | ':' :: r => do
        let (x, r) ← value? fuel r
        match skipSpace r with
        | '\x7d' :: rest => some ([(name, x)], rest)
        | ',' :: r => do
          let (ms, rest) ← members? fuel r
          some ((name, x) :: ms, rest)
        | _ => none
      | _ => none
    | _ => none

end

/-- Reads a text that holds one value and nothing else but space. Every two steps of the reading
take a character, so the fuel suffices. -/
def ofText? (text : String) : Option Source :=
  let cs := text.toList
  match value? (2 * cs.length + 2) cs with
  | some (x, rest) => if (skipSpace rest).isEmpty then some x else none
  | none => none

/-! ### Meaning -/

mutual

/-- The value itself, if all its numbers are in range, its strings have texts and at most `depth`
containers lie within each other. Of members with one name the last counts; the members are ordered
by name. -/
def toJson? (depth : Nat) : Source → Option Json
  | null => some .null
  | bool b => some (.bool b)
  | number n => n.number?.map .number
  | string s => s.map .string
  | array xs =>
    match depth with
    | 0 => none
    | depth + 1 => (itemsToJson? depth xs).map .array
  | object ms =>
    match depth with
    | 0 => none
    | depth + 1 => (membersToJson? depth ms).map fun m => .object (NameMap.ofList m).entries

def itemsToJson? (depth : Nat) : List Source → Option (List Json)
  | [] => some []
  | x :: xs => do
    let x ← toJson? depth x
    let xs ← itemsToJson? depth xs
    some (x :: xs)

def membersToJson? (depth : Nat) :
    List (Option String × Source) → Option (List (String × Json))
  | [] => some []
  | (name, x) :: ms => do
    let name ← name
    let x ← toJson? depth x
    let ms ← membersToJson? depth ms
    some ((name, x) :: ms)

end

/-- The containers that may lie within each other in a value that is read. -/
def depthLimit : Nat := 127

def bool? : Source → Option Bool
  | bool b => some b
  | _ => none

def string? : Source → Option String
  | string s => s
  | _ => none

def float? : Source → Option Float
  | number n => n.number?.map Number.toFloat
  | _ => none

def nat? : Source → Option Nat
  | number n => match n.number? with
    | some (.integer (.ofNat k)) => some k
    | _ => none
  | _ => none

def list? {α : Type} (item? : Source → Option α) : Source → Option (List α)
  | array xs => xs.mapM item?
  | _ => none

def members : Source → Option (List (String × Source))
  | object ms => ms.mapM fun (name, x) => name.map (·, x)
  | _ => none

/-- An object as a map; of members with one name the last counts. -/
def map? {α : Type} (item? : Source → Option α) (s : Source) : Option (NameMap α) := do
  let ms ← s.members
  let ms ← ms.mapM fun (name, x) => (item? x).map (name, ·)
  return NameMap.ofList ms

def option? {α : Type} (item? : Source → Option α) : Source → Option (Option α)
  | null => some none
  | s => (item? s).map some

/-- The fields of a record. An object gives each at most once, under its name, and may have other
members besides. An array gives them in order, and may leave out the last ones. -/
def fields? (names : List String) : Source → Option (List (Option Source))
  | array xs =>
    if xs.length ≤ names.length then
      some (xs.map some ++ List.replicate (names.length - xs.length) none)
    else none
  | s => do
    let ms ← s.members
    names.mapM fun name =>
      match ms.filter (·.1 = name) with
      | [] => some none
      | [m] => some (some m.2)
      | _ => none

end Source

/-! ### Types that are exchanged as JSON -/

/-- A type with a written form and a reader of written forms. `outer` is the number of containers
around the value read. -/
class Form (α : Type) where
  toJson : α → Json
  ofSource? (outer : Nat) : Source → Option α

export Form (toJson)

def read? (α : Type) [Form α] (text : String) : Option α :=
  (Source.ofText? text).bind (Form.ofSource? 0)

def required {α : Type} (read : Source → Option α) (field : Option Source) : Option α :=
  field.bind read

/-- A field with a value for the case that it is not given. -/
def defaulting {α : Type} (default : α) (read : Source → Option α) : Option Source → Option α
  | none => some default
  | some s => read s

instance {α : Type} [Form α] : Form (List α) where
  toJson xs := .array (xs.map toJson)
  ofSource? outer := Source.list? (Form.ofSource? (outer + 1))

end DesignLoads.Json
