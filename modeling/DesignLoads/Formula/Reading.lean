import DesignLoads.Formula.Operand
import DesignLoads.Formula.Fault

/-! Reading formulas.

A formula is a choice of zips of sums of products of signed atoms, each operator associating to the
left; an atom is a name, a family, a number or a formula in parentheses. Spaces, tabs and line ends
may stand between any two of these. An operator whose right operand does not begin is left unread,
and so ends the formula; inside parentheses nothing is left unread. -/

namespace DesignLoads

/-- A character that may stand between the parts of a formula. -/
def isBlank (c : Char) : Bool := c = ' ' || c = '\t' || c = '\r' || c = '\n'

def skipBlanks (cs : List Char) : List Char := cs.dropWhile isBlank

def isNameHead (c : Char) : Bool := c.isAlpha || c = '_'

def isNameTail (c : Char) : Bool := c.isAlphanum || c = '_' || c = '.' || c = '\x27'

/-- Names of rules and of base load cases. -/
def isName : List Char → Bool
  | [] => false
  | c :: cs => isNameHead c && cs.all isNameTail

namespace Reading

/-- The outcome of reading a part of a formula from the head of a text. -/
inductive Outcome (α : Type) where
  /-- The part was read; no blank follows it. -/
  | done (value : α) (rest : List Char)
  /-- No such part begins here; `place` is what follows the place to report. -/
  | absent (place : List Char)
  /-- The part began and cannot be ended, whatever surrounds it. -/
  | broken (what : Expected) (place : List Char)

/-- An atom at the head of a text that begins with no blank. -/
def atom (formula : List Char → Outcome Operand) (cs : List Char) : Outcome Operand :=
  match cs with
  | [] => .absent []
  | c :: r =>
    if c = '(' then
      match formula r with
      | .done v (')' :: r') => .done v (skipBlanks r')
      | .done _ r' => .broken .closing r'
      | .absent place => .broken .operand place
      | .broken what place => .broken what place
    else if isNameHead c then
      let name := String.ofList (c :: r.takeWhile isNameTail)
      match r.dropWhile isNameTail with
      | '$' :: r' => .done (.symbolic (.family name)) (skipBlanks r')
      | r' => .done (.symbolic (.ref name)) (skipBlanks r')
    else match Decimal.scan? cs with
      | some (d, r') => .done (.numeric (.number d.toFloat)) (skipBlanks r')
      | none => .absent (if c = '.' then r else cs)

/-- An atom with any number of minus signs before it. A sign without an operand is itself the place
to report. -/
def signed (formula : List Char → Outcome Operand) : List Char → Outcome Operand
  | [] => atom formula []
  | c :: r =>
    if isBlank c then signed formula r
    else if c = '-' then
      match signed formula r with
      | .done v r' => .done v.neg r'
      | .absent _ => .absent (c :: r)
      | .broken what place => .broken what place
    else atom formula (c :: r)

/-- An operator with its right operand, and the text from that operand on. -/
structure Step where
  operator : Char
  operand : Operand
  place : List Char

/-- As many operators with right operands as there are, at most `fuel` of them. -/
def steps (operator : Char → Bool) (part : List Char → Outcome Operand) :
    Nat → List Char → Outcome (List Step)
  | 0, cs => .done [] cs
  | _ + 1, [] => .done [] []
  | fuel + 1, c :: r =>
    if operator c then
      match part r with
      | .done v r' =>
        match steps operator part fuel r' with
        | .done tail rest => .done (⟨c, v, skipBlanks r⟩ :: tail) rest
        | .absent place => .absent place
        | .broken what place => .broken what place
      | .absent _ => .done [] (c :: r)
      | .broken what place => .broken what place
    else .done [] (c :: r)

/-- A left-associative chain of parts. An operand that `combine` refuses breaks the chain, once all
of it has been read. -/
def chain (operator : Char → Bool) (combine : Operand → Step → Except (List Char) Operand)
    (part : List Char → Outcome Operand) (cs : List Char) : Outcome Operand :=
  match part cs with
  | .done first r =>
    match steps operator part r.length r with
    | .done tail rest =>
      match tail.foldlM combine first with
      | .ok v => .done v rest
      | .error place => .broken .numericDivisor place
    | .absent place => .absent place
    | .broken what place => .broken what place
  | .absent place => .absent place
  | .broken what place => .broken what place

def isFactorOperator (c : Char) : Bool := c = '*' || c = '/'

def isTermOperator (c : Char) : Bool := c = '+' || c = '-'

def applyFactor (a : Operand) (s : Step) : Except (List Char) Operand :=
  if s.operator = '*' then .ok (a.mul s.operand)
  else match a.div? s.operand with
    | some v => .ok v
    | none => .error s.place

def applyTerm (a : Operand) (s : Step) : Except (List Char) Operand :=
  .ok (if s.operator = '+' then a.add s.operand else a.sub s.operand)

def applyZip (a : Operand) (s : Step) : Except (List Char) Operand := .ok (a.zip s.operand)

def applyChoice (a : Operand) (s : Step) : Except (List Char) Operand := .ok (a.choice s.operand)

/-- A formula with at most `depth` levels of parentheses. -/
def formula : Nat → List Char → Outcome Operand
  | 0 => fun cs => .absent cs
  | depth + 1 =>
    chain (· = '|') applyChoice <|
      chain (· = '&') applyZip <|
        chain isTermOperator applyTerm <|
          chain isFactorOperator applyFactor <|
            signed (formula depth)

/-- Reads the whole of `cs` as a formula. Places are counted in `source`, which ends with `cs`. -/
def operand (source cs : List Char) : Except Fault Operand :=
  match formula (cs.length + 1) cs with
  | .done v [] => .ok v
  | .done _ rest =>
    let (found, column) := Fault.locate source rest
    .error (.leftover found column)
  | .absent place =>
    let (found, column) := Fault.locate source place
    .error (.expected .operand found column)
  | .broken what place =>
    let (found, column) := Fault.locate source place
    .error (.expected what found column)

end Reading

def Formula.parse (text : String) : Except Fault Formula :=
  (Reading.operand text.toList text.toList).map Operand.toFormula

/-- Reads a formula without loads. -/
def Factor.parse (text : String) : Except Failure Factor :=
  match Reading.operand text.toList text.toList with
  | .ok (.numeric f) => .ok f
  | .ok (.symbolic _) => .error (.parse text Fault.notNumeric.message)
  | .error fault => .error (.parse text fault.message)

end DesignLoads
