import DesignLoads.Alternative
import DesignLoads.Formula.Basic

/-! Expansion of a formula into the ordered list of its alternatives.

Sums and products combine every alternative of the left operand with every one of the right, the
left one outermost; a zip pairs them by position; a choice lists first the left ones, then the right
ones. What a name stands for is left to the surroundings of the formula.

The number of pairs is the product of two natural numbers. A machine that counts up to `2 ^ 64 - 1`,
and stays there, reports another number from `2 ^ 64` pairs on, for operands that no memory holds. -/

namespace DesignLoads

namespace Alternative

/-- Lets a number of alternatives pass that is within the limit. -/
def checkCount (limit : Option Nat) (count : Nat) : Except Failure Unit :=
  match limit with
  | some l => if l < count then .error (.tooManyAlternatives count l) else .ok ()
  | none => .ok ()

/-- Every pair of an item of `as` and an item of `bs`, in the order of `as` first. -/
def pairs {α : Type} (as bs : List α) : List (α × α) := as.flatMap fun a => bs.map fun b => (a, b)

def sums (limit : Option Nat) (as bs : List Alternative) : Except Failure (List Alternative) := do
  checkCount limit (as.length * bs.length)
  return (pairs as bs).map fun (a, b) => a.merged b

def products (limit : Option Nat) (rule : String) (as bs : List Alternative) :
    Except Failure (List Alternative) := do
  checkCount limit (as.length * bs.length)
  (pairs as bs).mapM fun (a, b) =>
    match a.product? b with
    | some p => .ok p
    | none => .error (.nonLinearProduct rule)

/-- The alternatives of two operands added position by position. A single one is added to each of
the other side. -/
def zips (as bs : List Alternative) : Except Failure (List Alternative) :=
  if as.length = bs.length then .ok (as.zipWith merged bs)
  else match as, bs with
    | [a], bs => .ok (bs.map a.merged)
    | as, [b] => .ok (as.map (merged · b))
    | as, bs => .error (.incompatibleZip as.length bs.length)

def choices (limit : Option Nat) (as bs : List Alternative) :
    Except Failure (List Alternative) := do
  checkCount limit (as.length + bs.length)
  return as ++ bs

end Alternative

/-- What a formula is expanded in: the limit, the name of the rule for complaints, the members of a
family, and the alternatives that a name stands for. -/
structure Surroundings (m : Type → Type) where
  limit : Option Nat
  rule : String
  family : String → List String
  refer : String → m (List Alternative)

namespace Formula

variable {m : Type → Type} [Monad m] [MonadExceptOf Failure m]

def expandNames (env : Surroundings m) : List Alternative → List String → m (List Alternative)
  | before, [] => pure before
  | before, name :: names => do
    let next ← env.refer name
    let all ← liftExcept (Alternative.choices env.limit before next)
    expandNames env all names

/-- The alternatives of a formula. Operands are expanded before they are combined, the left one
first; a factor is evaluated before the formula it scales is expanded. -/
def expand (env : Surroundings m) : Formula → m (List Alternative)
  | ref name => env.refer name
  | family stem => expandNames env [] (env.family stem)
  | number f => do
    let x ← liftExcept f.value
    return [.scalar x]
  | scale e f => do
    let x ← liftExcept f.value
    let as ← e.expand env
    return as.map (Alternative.scaled · x)
  | neg e => do
    let as ← e.expand env
    return as.map (Alternative.scaled · (-1))
  | sum a b => do
    let as ← a.expand env
    let bs ← b.expand env
    liftExcept (Alternative.sums env.limit as bs)
  | product a b => do
    let as ← a.expand env
    let bs ← b.expand env
    liftExcept (Alternative.products env.limit env.rule as bs)
  | zip a b => do
    let as ← a.expand env
    let bs ← b.expand env
    liftExcept (Alternative.zips as bs)
  | choice a b => do
    let as ← a.expand env
    let bs ← b.expand env
    liftExcept (Alternative.choices env.limit as bs)

end Formula

end DesignLoads
