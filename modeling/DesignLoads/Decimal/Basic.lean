/-! Decimal numbers, and the floating-point number nearest to one. -/

namespace DesignLoads

/-- The number `digits * 10 ^ exponent`. -/
structure Decimal where
  digits : Nat
  exponent : Int
deriving DecidableEq, Repr

namespace Decimal

/-- The nearest floating-point number; of two equally near, the one with the even significand. -/
def toFloat (d : Decimal) : Float :=
  Float.ofScientific d.digits (d.exponent < 0) d.exponent.natAbs

def ofDigits (cs : List Char) : Nat :=
  cs.foldl (fun n c => 10 * n + (c.toNat - '0'.toNat)) 0

def spanDigits (cs : List Char) : List Char × List Char :=
  (cs.takeWhile Char.isDigit, cs.dropWhile Char.isDigit)

/-- An exponent such as `e-7` at the head of a text, and the rest. Without one, zero and the whole
text: the letter alone is not an exponent. -/
def scanExponent (cs : List Char) : Int × List Char :=
  match cs with
  | [] => (0, cs)
  | e :: r =>
    if e = 'e' ∨ e = 'E' then
      let (negative, r) := match r with
        | '+' :: r => (false, r)
        | '-' :: r => (true, r)
        | r => (false, r)
      match spanDigits r with
      | ([], _) => (0, cs)
      | (ds, rest) => (if negative then -(ofDigits ds : Int) else ofDigits ds, rest)
    else (0, cs)

/-- The longest unsigned numeral at the head of a text, such as `12`, `12.`, `1.35`, `.5` or
`1e-7`, and the rest. -/
def scan? (cs : List Char) : Option (Decimal × List Char) :=
  let (whole, r) := spanDigits cs
  let (part, r) := match r with
    | '.' :: r' => if whole.isEmpty && (spanDigits r').1.isEmpty then ([], r) else spanDigits r'
    | r => ([], r)
  if whole.isEmpty && part.isEmpty then none
  else
    let (e, rest) := scanExponent r
    some (⟨ofDigits (whole ++ part), e - part.length⟩, rest)

end Decimal

/-- Reads a floating-point number: a numeral with an optional sign, or one of the words `inf`,
`infinity` and `nan` in any case. -/
def readFloat? (text : String) : Option Float :=
  match text.toList with
  | '-' :: cs => (unsigned cs).map Neg.neg
  | '+' :: cs => unsigned cs
  | cs => unsigned cs
where
  unsigned (cs : List Char) : Option Float :=
    let word := String.ofList (cs.map Char.toLower)
    if word = "inf" || word = "infinity" then some (1.0 / 0.0)
    else if word = "nan" then some (0.0 / 0.0)
    else match Decimal.scan? cs with
      | some (d, []) => some d.toFloat
      | _ => none

end DesignLoads
