import DesignLoads.Rulebook.Resolution

/-! Sessions: a rule book in use. -/

namespace DesignLoads

structure Session where
  book : Rulebook
  progress : Progress

namespace Session

/-- Opens a rule book. If its settings are eager, all of its rules are resolved. -/
def ofBook (book : Rulebook) : Except Failure Session :=
  if book.settings.eager then
    match book.resolveAll.ask .start with
    | (.ok _, p) => .ok ⟨book, p⟩
    | (.error e, _) => .error e
  else .ok ⟨book, .start⟩

def ofLines (lines baseCases : List String) (settings : Settings) : Except Failure Session := do
  let rules ← Rule.parseLines lines
  let book ← Rulebook.ofRules rules baseCases settings
  ofBook book

def ask {α : Type} (s : Session) (q : Rulebook → Query α) : Except Failure α × Session :=
  let (r, p) := (q s.book).ask s.progress
  (r, { s with progress := p })

def attach [RegexLibrary] (s : Session) (pattern : String) (options : Options) :
    Except Failure Session := do
  let book ← s.book.attach pattern options
  return { s with book }

def status (s : Session) (name : String) : Status := s.progress.status name

end Session

end DesignLoads
