import DesignLoads.Failure

/-! Factors: the numeric arithmetic that multiplies loads, its text and its value. -/

namespace DesignLoads

inductive Factor where
  | number (value : Float)
  | neg (inner : Factor)
  | add (left right : Factor)
  | sub (left right : Factor)
  | mul (left right : Factor)
  | div (left right : Factor)
deriving DecidableEq

def parenthesize (needed : Bool) (cs : List Char) : List Char :=
  if needed then '(' :: (cs ++ [')']) else cs

namespace Factor

/-- How tightly the outermost operator binds. -/
def level : Factor → Nat
  | add .. | sub .. => 1
  | mul .. | div .. => 2
  | neg _ => 3
  | number _ => 4

/-- The text of a factor. Operators associate to the left, so a right operand of the same level has
parentheses. -/
def chars : Factor → List Char
  | number x => Layout.plain.chars x
  | neg a => '-' :: parenthesize (a.level < 3) a.chars
  | add a b => parenthesize (a.level < 1) a.chars ++ '+' :: parenthesize (b.level < 2) b.chars
  | sub a b => parenthesize (a.level < 1) a.chars ++ '-' :: parenthesize (b.level < 2) b.chars
  | mul a b => parenthesize (a.level < 2) a.chars ++ '*' :: parenthesize (b.level < 3) b.chars
  | div a b => parenthesize (a.level < 2) a.chars ++ '/' :: parenthesize (b.level < 3) b.chars

def text (f : Factor) : String := String.ofList f.chars

/-- The value of a node whose operands have values: it has to be finite. -/
def finite (f : Factor) (value : Float) : Except Failure Float :=
  if value.isFinite then .ok value else .error (.nonFiniteFactor f.text)

/-- The value of a factor. A division looks at its divisor first; no part may divide by zero or have
a value that is not finite. -/
def value : Factor → Except Failure Float
  | number x => finite (number x) x
  | neg a => do
    let x ← a.value
    finite (neg a) (-x)
  | add a b => do
    let x ← a.value
    let y ← b.value
    finite (add a b) (x + y)
  | sub a b => do
    let x ← a.value
    let y ← b.value
    finite (sub a b) (x - y)
  | mul a b => do
    let x ← a.value
    let y ← b.value
    finite (mul a b) (x * y)
  | div a b => do
    let y ← b.value
    if y == 0 then .error (.divisionByZero (div a b).text)
    else
      let x ← a.value
      finite (div a b) (x / y)

end Factor

end DesignLoads
