import DesignLoads.Pattern
import DesignLoads.Regex.Reading
import DesignLoads.Regex.Search

/-! The library of regular expressions that the program runs with. It knows no classes of characters
by their Unicode properties, and gives reasons in words of its own. Nothing is proved about patterns
with it but what some of them choose. -/

namespace DesignLoads.Regex

@[reducible]
def library : RegexLibrary where
  compile source :=
    match Regex.parse source with
    | .ok r => .ok r.found
    | .error fault => .error fault.message

/-- The empty expression is found in every name. -/
theorem found_empty (name : String) : found .empty name = true := by
  unfold found
  cases name.toList <;> rfl

theorem library_findsEmpty : @RegexLibrary.FindsEmpty library := ⟨found .empty, rfl, found_empty⟩

end DesignLoads.Regex
