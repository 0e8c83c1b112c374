import DesignLoads.Json.Source

/-! The greatest and the least of a number of responses, with the places they were found at. -/

namespace DesignLoads

structure Response (ι : Type) where
  value : Float
  place : ι
deriving DecidableEq

structure Extremes (ι : Type) where
  max : Response ι
  min : Response ι
deriving DecidableEq

namespace Extremes

variable {ι κ : Type}

def single (r : Response ι) : Extremes ι := ⟨r, r⟩

/-- The extremes of the responses of both. Of equal ones the earlier stays. -/
def merge (a b : Extremes ι) : Extremes ι :=
  ⟨if a.max.value < b.max.value then b.max else a.max,
    if b.min.value < a.min.value then b.min else a.min⟩

def ofList? : List (Extremes ι) → Option (Extremes ι)
  | [] => none
  | e :: es => some (es.foldl merge e)

def mapPlace (f : ι → κ) (e : Extremes ι) : Extremes κ :=
  ⟨⟨e.max.value, f e.max.place⟩, ⟨e.min.value, f e.min.place⟩⟩

end Extremes

/-- The extremes among the alternatives of one combination, by index. -/
abbrev Envelope := Extremes Nat

/-- The extremes among combinations, by combination and index. -/
abbrev Governing := Extremes (String × Nat)

instance : Json.Form Envelope where
  toJson e := .object [
    ("max_value", .ofFloat e.max.value), ("max_index", .ofNat e.max.place),
    ("min_value", .ofFloat e.min.value), ("min_index", .ofNat e.min.place)]
  ofSource? _ s := do
    let [maxValue, maxIndex, minValue, minIndex] ←
      s.fields? ["max_value", "max_index", "min_value", "min_index"] | none
    let maxValue ← Json.required Json.Source.float? maxValue
    let maxIndex ← Json.required Json.Source.nat? maxIndex
    let minValue ← Json.required Json.Source.float? minValue
    let minIndex ← Json.required Json.Source.nat? minIndex
    return ⟨⟨maxValue, maxIndex⟩, ⟨minValue, minIndex⟩⟩

namespace Governing

/-- A place among combinations: a name and an index, in that order. -/
def placeToJson (p : String × Nat) : Json := .array [.string p.1, .ofNat p.2]

def place? : Json.Source → Option (String × Nat)
  | .array [name, index] => do
    let name ← name.string?
    let index ← index.nat?
    return (name, index)
  | _ => none

end Governing

instance : Json.Form Governing where
  toJson g := .object [
    ("max_value", .ofFloat g.max.value), ("max_combo", Governing.placeToJson g.max.place),
    ("min_value", .ofFloat g.min.value), ("min_combo", Governing.placeToJson g.min.place)]
  ofSource? _ s := do
    let [maxValue, maxPlace, minValue, minPlace] ←
      s.fields? ["max_value", "max_combo", "min_value", "min_combo"] | none
    let maxValue ← Json.required Json.Source.float? maxValue
    let maxPlace ← Json.required Governing.place? maxPlace
    let minValue ← Json.required Json.Source.float? minValue
    let minPlace ← Json.required Governing.place? minPlace
    return ⟨⟨maxValue, maxPlace⟩, ⟨minValue, minPlace⟩⟩

end DesignLoads
