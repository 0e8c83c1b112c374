import DesignLoads.Failure
import DesignLoads.Json.Source
import Std.Data.HashSet.Basic

/-! Load cases: linear combinations of base load cases; and lists without repetitions. -/

namespace DesignLoads

section Distinct

variable {α : Type} [DecidableEq α] [Hashable α]

/-- The items that are kept after those in `seen`. -/
def distinctFrom (comparable : α → Bool) (seen : Std.HashSet α) : List α → List α
  | [] => []
  | x :: xs =>
    if comparable x && seen.contains x then distinctFrom comparable seen xs
    else x :: distinctFrom comparable (seen.insert x) xs

/-- A list without the later of equal items. Items that are not comparable, not even to themselves,
are all kept. -/
def distinct (comparable : α → Bool) (xs : List α) : List α := distinctFrom comparable ∅ xs

end Distinct

def distinctNames (names : List String) : List String := distinct (fun _ => true) names

structure Term where
  name : String
  coefficient : Float
deriving DecidableEq

/-- A linear combination of base load cases. No coefficient is zero. -/
structure LoadCase where
  coefficients : NameMap Float
  nonzero : ∀ e ∈ coefficients.entries, (e.2 == 0) = false
deriving DecidableEq

namespace LoadCase

def empty : LoadCase := ⟨.empty, by simp [NameMap.empty]⟩

instance : Inhabited LoadCase := ⟨empty⟩

def entries (c : LoadCase) : List (String × Float) := c.coefficients.entries

/-- The coefficient of a base load case; zero if it takes no part. -/
def get (c : LoadCase) (name : String) : Float := (c.coefficients.get? name).getD 0

def has (c : LoadCase) (name : String) : Bool := c.coefficients.contains name

def size (c : LoadCase) : Nat := c.coefficients.size

def isEmpty (c : LoadCase) : Bool := c.coefficients.isEmpty

/-- Adds a term. A coefficient that becomes zero is dropped. -/
def add (c : LoadCase) (name : String) (k : Float) : LoadCase :=
  let sum := c.get name + k
  if h : (sum == 0) = true then
    ⟨c.coefficients.erase name, fun e he => c.nonzero e ((List.mem_filter.mp he).1)⟩
  else
    ⟨c.coefficients.insert name sum, fun e he => by
      rcases NameMap.mem_insertEntry he with rfl | he
      · simpa using h
      · exact c.nonzero e he⟩

def addAll (c : LoadCase) (es : List (String × Float)) : LoadCase :=
  es.foldl (fun c e => c.add e.1 e.2) c

/-- The sum of terms, added one after the other. -/
def ofEntries (es : List (String × Float)) : LoadCase := empty.addAll es

def single (name : String) (k : Float) : LoadCase := empty.add name k

def terms (c : LoadCase) : List Term := c.entries.map fun e => ⟨e.1, e.2⟩

def scaled (c : LoadCase) (k : Float) : LoadCase :=
  ofEntries (c.entries.map fun e => (e.1, e.2 * k))

/-- The sum of two load cases, term by term. -/
def merged (a b : LoadCase) : LoadCase := a.addAll b.entries

/-- A load case built again from its own terms. The program asserts in a debug build that nothing
has changed; a coefficient that is NaN differs from itself and fails that assertion. Here, as in a
release build, nothing is asserted. -/
def rebuilt (c : LoadCase) : LoadCase := ofEntries c.entries

/-- Equality of numbers, coefficient by coefficient; NaN equals nothing. -/
def agrees (a b : LoadCase) : Bool :=
  a.size == b.size && (a.entries.zip b.entries).all fun (x, y) => x.1 == y.1 && x.2 == y.2

def comparable (c : LoadCase) : Bool := c.agrees c

/-- What a load case is hashed by: its names with the bits of their coefficients. -/
def fingerprint (c : LoadCase) : List (String × UInt64) :=
  c.entries.map fun e => (e.1, e.2.toBits)

instance : Hashable LoadCase := ⟨fun c => hash c.fingerprint⟩

def distinct (cs : List LoadCase) : List LoadCase := DesignLoads.distinct comparable cs

/-- The load cases, each built again from its terms, without the later of equal ones. -/
def canonical (cs : List LoadCase) : List LoadCase := distinct (cs.map rebuilt)

/-- The sum of the coefficients times the results of the base load cases. -/
def superpose (c : LoadCase) (results : NameMap Float) : Except Failure Float :=
  c.entries.foldlM (fun total e =>
    match results.get? e.1 with
    | some x => .ok (total + e.2 * x)
    | none => .error (.missingBaseResult e.1)) 0

/-- A term without its sign; a coefficient of one is not written. -/
def termChars (e : String × Float) : List Char :=
  if e.2.abs == 1 then e.1.toList else Layout.plain.chars e.2.abs ++ '*' :: e.1.toList

def laterTermChars (e : String × Float) : List Char :=
  ' ' :: (if e.2 < 0 then '-' else '+') :: ' ' :: termChars e

def chars (c : LoadCase) : List Char :=
  match c.entries with
  | [] => ['0']
  | e :: es =>
    (if e.2 < 0 then ['-'] else []) ++ termChars e ++ es.flatMap laterTermChars

def text (c : LoadCase) : String := String.ofList c.chars

end LoadCase

instance : Json.Form LoadCase where
  toJson c := .object (c.entries.map fun e => (e.1, .ofFloat e.2))
  ofSource? _ s := (s.map? Json.Source.float?).map fun m => .ofEntries m.entries

instance : Json.Form Term where
  toJson t := .object [("name", .string t.name), ("coefficient", .ofFloat t.coefficient)]
  ofSource? _ s := do
    let [name, coefficient] ← s.fields? ["name", "coefficient"] | none
    let name ← Json.required Json.Source.string? name
    let coefficient ← Json.required Json.Source.float? coefficient
    return ⟨name, coefficient⟩

end DesignLoads
