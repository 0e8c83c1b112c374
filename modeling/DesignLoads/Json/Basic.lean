import DesignLoads.Decimal.Layout

/-! JSON values and their texts. -/

namespace DesignLoads

/-- A number as JSON tells them apart: written without or with a point or an exponent. -/
inductive Json.Number where
  | integer (value : Int)
  | real (value : Float)
deriving DecidableEq

/-- A JSON value. The members of an object keep the order in which they are written. -/
inductive Json where
  | null
  | bool (value : Bool)
  | number (value : Json.Number)
  | string (value : String)
  | array (items : List Json)
  | object (members : List (String × Json))

namespace Json

/-- A floating-point number as a value. JSON has no number for an infinity or NaN. -/
def ofFloat (x : Float) : Json := if x.isFinite then number (.real x) else null

def ofNat (n : Nat) : Json := number (.integer n)

def Number.toFloat : Number → Float
  | integer i => Float.ofInt i
  | real x => x

def Number.chars : Number → List Char
  | integer i => if i < 0 then '-' :: Nat.toDigits 10 i.natAbs else Nat.toDigits 10 i.natAbs
  | real x => Layout.json.chars x

def escape (c : Char) : List Char :=
  if c = '\x22' then ['\x5c', '\x22']
  else if c = '\x5c' then ['\x5c', '\x5c']
  else if c = '\x08' then ['\x5c', 'b']
  else if c = '\x0c' then ['\x5c', 'f']
  else if c = '\n' then ['\x5c', 'n']
  else if c = '\r' then ['\x5c', 'r']
  else if c = '\t' then ['\x5c', 't']
  else if c.toNat < 0x20 then
    ['\x5c', 'u', '0', '0', Nat.digitChar (c.toNat / 16), Nat.digitChar (c.toNat % 16)]
  else [c]

def quote (s : String) : List Char := '\x22' :: (s.toList.flatMap escape ++ ['\x22'])

/-- A line end and an indentation by two spaces per level, in the pretty form only. -/
def lineBreak (pretty : Bool) (depth : Nat) : List Char :=
  if pretty then '\n' :: List.replicate (2 * depth) ' ' else []

mutual

/-- The text of a value, either compact or with each item on a line of its own. -/
def write (pretty : Bool) (depth : Nat) : Json → List Char
  | null => ['n', 'u', 'l', 'l']
  | bool true => ['t', 'r', 'u', 'e']
  | bool false => ['f', 'a', 'l', 's', 'e']
  | number n => n.chars
  | string s => quote s
  | array [] => ['[', ']']
  | array (x :: xs) =>
    '[' :: (lineBreak pretty (depth + 1) ++ write pretty (depth + 1) x ++
      writeItems pretty (depth + 1) xs ++ lineBreak pretty depth ++ [']'])
  | object [] => ['\x7b', '\x7d']
  | object (m :: ms) =>
    '\x7b' :: (lineBreak pretty (depth + 1) ++ writeMember pretty (depth + 1) m ++
      writeMembers pretty (depth + 1) ms ++ lineBreak pretty depth ++ ['\x7d'])

def writeItems (pretty : Bool) (depth : Nat) : List Json → List Char
  | [] => []
  | x :: xs =>
    ',' :: (lineBreak pretty depth ++ write pretty depth x ++ writeItems pretty depth xs)

def writeMember (pretty : Bool) (depth : Nat) : String × Json → List Char
  | (name, x) =>
    quote name ++ ':' :: ((if pretty then [' '] else []) ++ write pretty depth x)

def writeMembers (pretty : Bool) (depth : Nat) : List (String × Json) → List Char
  | [] => []
  | m :: ms =>
    ',' :: (lineBreak pretty depth ++ writeMember pretty depth m ++ writeMembers pretty depth ms)

end

def compact (x : Json) : String := String.ofList (write false 0 x)

def pretty (x : Json) : String := String.ofList (write true 0 x)

end Json

end DesignLoads
