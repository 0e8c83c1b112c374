import DesignLoads.Decimal.Basic

/-! The shortest decimal number that reads back as a given floating-point number.

A floating-point number is read from every decimal in an interval around it. The shortest decimal is
a point of the coarsest grid `10 ^ k` that has one in the interval, and of the grid's points the one
nearest to the number. -/

namespace DesignLoads

/-- Which of two equally near grid points is taken. -/
inductive Tie where
  | up
  | even
deriving DecidableEq, Repr

/-- The number `mantissa * 2 ^ exponent`. In quarters of `2 ^ exponent`, the numbers that round to
it reach from `4 * mantissa - below` to `4 * mantissa + 2`. -/
structure Binary where
  mantissa : Nat
  exponent : Int
  below : Nat
deriving DecidableEq, Repr

namespace Binary

/-- The magnitude of a finite floating-point number. Below a power of two the next number is only
half as far away as above it. -/
def ofFloat (x : Float) : Binary :=
  let bits := x.toBits.toNat
  let e : Nat := bits / Nat.pow 2 52 % Nat.pow 2 11
  let f := bits % Nat.pow 2 52
  if e = 0 then ⟨f, -1074, 2⟩
  else ⟨f + Nat.pow 2 52, (e : Int) - 1075, if f = 0 ∧ 1 < e then 1 else 2⟩

def toDecimal (b : Binary) : Decimal :=
  if 0 ≤ b.exponent then ⟨b.mantissa * Nat.pow 2 b.exponent.toNat, 0⟩
  else ⟨b.mantissa * Nat.pow 5 b.exponent.natAbs, b.exponent⟩

/-- Of the two multiples of `10 ^ k` around the number, the nearest that rounds to it, if one
does. The ends of the interval round to an even mantissa. -/
def onGrid? (tie : Tie) (b : Binary) (k : Int) : Option Nat :=
  let quarter := b.exponent - 2
  let unit := Nat.pow 10 k.toNat * Nat.pow 2 (-quarter).toNat
  let scale := Nat.pow 2 quarter.toNat * Nat.pow 10 (-k).toNat
  let value := 4 * b.mantissa * scale
  let least := (4 * b.mantissa - b.below) * scale
  let greatest := (4 * b.mantissa + 2) * scale
  let inside (n : Nat) : Bool :=
    if b.mantissa % 2 = 0 then least ≤ n && n ≤ greatest else least < n && n < greatest
  let d := value / unit
  match inside (d * unit), inside ((d + 1) * unit) with
  | false, false => none
  | true, false => some d
  | false, true => some (d + 1)
  | true, true =>
    match compare (value - d * unit) ((d + 1) * unit - value) with
    | .lt => some d
    | .gt => some (d + 1)
    | .eq => match tie with
      | .up => some (d + 1)
      | .even => some (if d % 2 = 0 then d else d + 1)

/-- The first grid with a hit among `10 ^ k, 10 ^ (k - 1), …`, `fuel` of them. -/
def search (tie : Tie) (b : Binary) : Nat → Int → Option Decimal
  | 0, _ => none
  | fuel + 1, k =>
    match b.onGrid? tie k with
    | some d => some ⟨d, k⟩
    | none => search tie b fuel (k - 1)

/-- The shortest decimal that rounds to the number. The search starts at a power of ten above the
number, and seventeen digits always suffice. -/
def shortest (tie : Tie) (b : Binary) : Decimal :=
  let start := ((b.mantissa.log2 + 1 : Nat) + b.exponent) * 30103 / 100000 + 1
  (b.search tie 24 start).getD b.toDecimal

end Binary

end DesignLoads
