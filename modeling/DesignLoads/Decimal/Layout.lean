import DesignLoads.Decimal.Shortest

/-! The texts of floating-point numbers. -/

namespace DesignLoads

/-- How the shortest digits of a number are laid out. -/
structure Layout where
  /-- The scientific exponents that are written positionally. -/
  positional : Int → Bool
  /-- A whole number ends in `.0`. -/
  keepsPoint : Bool
  /-- Which way a tie between two shortest decimals goes. -/
  tie : Tie

namespace Layout

/-- The layout of every text that a person reads: no exponent and no idle point. -/
def plain : Layout := ⟨fun _ => true, false, .up⟩

/-- The layout of a number in JSON, where `1.0`, `1e-6` and `1e+16` are floating-point numbers. -/
def json : Layout := ⟨fun e => -5 ≤ e && e < 16, true, .even⟩

/-- Digits with a point after the first `whole` of them; missing places are filled by zeros. -/
def point (l : Layout) (ds : List Char) (whole : Int) : List Char :=
  if whole ≤ 0 then '0' :: '.' :: (List.replicate (-whole).toNat '0' ++ ds)
  else if ds.length ≤ whole.toNat then
    ds ++ List.replicate (whole.toNat - ds.length) '0' ++ (if l.keepsPoint then ['.', '0'] else [])
  else ds.take whole.toNat ++ '.' :: ds.drop whole.toNat

def scientific (ds : List Char) (e : Int) : List Char :=
  let fraction := match ds.drop 1 with
    | [] => []
    | r => '.' :: r
  ds.take 1 ++ fraction ++ 'e' :: (if e < 0 then '-' else '+') :: Nat.toDigits 10 e.natAbs

def decimal (l : Layout) (d : Decimal) : List Char :=
  let ds := Nat.toDigits 10 d.digits
  let e : Int := ds.length - 1 + d.exponent
  if l.positional e then l.point ds (e + 1) else scientific ds e

def magnitude (l : Layout) (x : Float) : List Char :=
  if x.isNaN then ['N', 'a', 'N']
  else if x.isInf then ['i', 'n', 'f']
  else
    let b := Binary.ofFloat x
    if b.mantissa = 0 then '0' :: (if l.keepsPoint then ['.', '0'] else [])
    else l.decimal (b.shortest l.tie)

/-- The text of a number. Every negative number, minus zero among them, has a sign. -/
def chars (l : Layout) (x : Float) : List Char :=
  if !x.isNaN && Nat.pow 2 63 ≤ x.toBits.toNat then '-' :: l.magnitude x else l.magnitude x

def text (l : Layout) (x : Float) : String := String.ofList (l.chars x)

end Layout

end DesignLoads
