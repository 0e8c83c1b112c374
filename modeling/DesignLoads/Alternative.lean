import DesignLoads.LoadCase

/-! Alternatives: load cases together with a number that multiplies no load yet. -/

namespace DesignLoads

/-- A number plus a load case. -/
structure Alternative where
  constant : Float
  case : LoadCase
deriving DecidableEq

/-- Zero for either zero, so that equal numbers are the same. -/
def unsignedZero (x : Float) : Float := if x == 0 then 0 else x

namespace Alternative

def load (case : LoadCase) : Alternative := ⟨0, case⟩

def scalar (value : Float) : Alternative := ⟨unsignedZero value, .empty⟩

/-- The alternative of a name that stands for itself. -/
def atomic (name : String) : Alternative := load (.single name 1)

instance : Inhabited Alternative := ⟨load .empty⟩

def isScalar (a : Alternative) : Bool := a.case.isEmpty

def scaled (a : Alternative) (k : Float) : Alternative :=
  ⟨unsignedZero (a.constant * k), a.case.scaled k⟩

def merged (a b : Alternative) : Alternative :=
  ⟨unsignedZero (a.constant + b.constant), a.case.merged b.case⟩

/-- The product, unless both sides carry loads. -/
def product? (a b : Alternative) : Option Alternative :=
  if a.isScalar then some (b.scaled a.constant)
  else if b.isScalar then some (a.scaled b.constant)
  else none

/-- Equality of numbers; NaN equals nothing. -/
def agrees (a b : Alternative) : Bool := a.constant == b.constant && a.case.agrees b.case

def comparable (a : Alternative) : Bool := a.agrees a

/-- What an alternative is hashed by. -/
def fingerprint (a : Alternative) : UInt64 × List (String × UInt64) :=
  (a.constant.toBits, a.case.fingerprint)

instance : Hashable Alternative := ⟨fun a => hash a.fingerprint⟩

def distinct (as : List Alternative) : List Alternative := DesignLoads.distinct comparable as

end Alternative

end DesignLoads
