import DesignLoads.Formula.Reading
import DesignLoads.Proofs.Decimal.Numerals

/-! The grammar of formulas, its derivations, and the formula that a derivation stands for. -/

namespace DesignLoads

inductive Operator where
  | choice
  | zip
  | add
  | sub
  | mul
  | div
deriving DecidableEq

def Operator.symbol : Operator → Char
  | choice => '|'
  | zip => '&'
  | add => '+'
  | sub => '-'
  | mul => '*'
  | div => '/'

/-- A derivation of a formula, without its blanks. -/
inductive Tree where
  | name (name : String)
  | family (stem : String)
  | number (text : String) (value : Decimal)
  | group (inner : Tree)
  | neg (inner : Tree)
  | binary (operator : Operator) (left right : Tree)

namespace Grammar

/-- The levels of binary operators, the loosest first. -/
inductive Level where
  | choice
  | zip
  | sum
  | product

inductive Part where
  | chain (level : Level)
  | signed
  | atom

end Grammar

open Grammar

def Operator.level : Operator → Level
  | choice => .choice
  | zip => .zip
  | add | sub => .sum
  | mul | div => .product

/-- What the operators of a level stand between. -/
def Grammar.Level.operand : Level → Part
  | choice => .chain .zip
  | zip => .chain .sum
  | sum => .chain .product
  | product => .signed

namespace Grammar

/-- What is derived: a part of a formula, or the operators of a level with their right operands that
go on after `left`. -/
inductive Phrase where
  | part (part : Part)
  | more (level : Level) (left : Tree)

/-- A text of blanks alone. -/
def Blank (cs : List Char) : Prop := ∀ c ∈ cs, isBlank c

/-- The atoms without parentheses: `NAME`, `NAME$` and `NUMBER`. -/
inductive Leaf : List Char → Tree → Prop where
  | name {s : List Char} (h : isName s) : Leaf s (.name (String.ofList s))
  | family {s : List Char} (h : isName s) : Leaf (s ++ ['$']) (.family (String.ofList s))
  | number {s : List Char} {d : Decimal} (h : Decimal.Numeral s d) :
      Leaf s (.number (String.ofList s) d)

/-- The derivations of the texts of formulas. With `level := operand (operator operand)*` for every
level, `signed := '-' signed | atom` and `atom := '(' choice ')' | leaf`; blanks may stand before
every token but the `$` of a leaf. -/
inductive Derives : Phrase → List Char → Tree → Prop where
  | chain {k : Level} {s s' : List Char} {t u : Tree} (first : Derives (.part k.operand) s t)
      (more : Derives (.more k t) s' u) : Derives (.part (.chain k)) (s ++ s') u
  | last {k : Level} {t : Tree} : Derives (.more k t) [] t
  | step {k : Level} {b s s' : List Char} {left t u : Tree} {op : Operator} (hop : op.level = k)
      (hb : Blank b) (operand : Derives (.part k.operand) s t)
      (more : Derives (.more k (.binary op left t)) s' u) :
      Derives (.more k left) (b ++ op.symbol :: (s ++ s')) u
  | negative {b s : List Char} {t : Tree} (hb : Blank b) (operand : Derives (.part .signed) s t) :
      Derives (.part .signed) (b ++ '-' :: s) (.neg t)
  | plain {b s : List Char} {t : Tree} (hb : Blank b) (atom : Derives (.part .atom) s t) :
      Derives (.part .signed) (b ++ s) t
  | group {b s : List Char} {t : Tree} (inner : Derives (.part (.chain .choice)) s t)
      (hb : Blank b) : Derives (.part .atom) ('(' :: (s ++ (b ++ [')']))) (.group t)
  | leaf {s : List Char} {t : Tree} (h : Leaf s t) : Derives (.part .atom) s t

/-- A whole text: a choice, and blanks after it. -/
def Writes (cs : List Char) (t : Tree) : Prop :=
  ∃ s b, cs = s ++ b ∧ Blank b ∧ Derives (.part (.chain .choice)) s t

end Grammar

namespace Tree

/-- Whether no name, no choice and no zip stands in a tree. -/
def isNumeric : Tree → Bool
  | name _ | family _ => false
  | number .. => true
  | group t | neg t => t.isNumeric
  | binary op l r => op != .choice && op != .zip && l.isNumeric && r.isNumeric

def divisorsNumeric : Tree → Bool
  | name _ | family _ | number .. => true
  | group t | neg t => t.divisorsNumeric
  | binary op l r => l.divisorsNumeric && r.divisorsNumeric && (op != .div || r.isNumeric)

/-- The factor of a numeric tree. -/
def factor? : Tree → Option Factor
  | name _ | family _ => none
  | number _ d => some (.number d.toFloat)
  | group t => t.factor?
  | neg t => t.factor?.map .neg
  | binary op l r =>
    match op, l.factor?, r.factor? with
    | .add, some f, some g => some (.add f g)
    | .sub, some f, some g => some (.sub f g)
    | .mul, some f, some g => some (.mul f g)
    | .div, some f, some g => some (.div f g)
    | _, _, _ => none

/-- The formula that a tree stands for. A numeric tree is one number, a difference the sum with the
negated right operand. A number scales what it multiplies, and what it divides by its reciprocal. -/
def formula (t : Tree) : Formula :=
  match t.factor? with
  | some f => .number f
  | none =>
    match t with
    | name n => .ref n
    | family stem => .family stem
    | number _ d => .number (.number d.toFloat)
    | group t => t.formula
    | neg t => .neg t.formula
    | binary .choice l r => .choice l.formula r.formula
    | binary .zip l r => .zip l.formula r.formula
    | binary .add l r => .sum l.formula r.formula
    | binary .sub l r => .sum l.formula (.neg r.formula)
    | binary .mul l r =>
      match l.factor?, r.factor? with
      | some f, _ => .scale r.formula f
      | none, some g => .scale l.formula g
      | none, none => .product l.formula r.formula
    | binary .div l r =>
      match r.factor? with
      | some g => .scale l.formula (.div (.number 1) g)
      | none => .product l.formula r.formula

end Tree

end DesignLoads
