import DesignLoads.Proofs.Session.Canonical

/-! Expansions of formulas in a session. A formula is expanded as if nothing had been asked before;
after an expansion that succeeds, the alternatives of every rule in the formula are kept. -/

namespace DesignLoads

open Query

namespace Session

variable {s : Session} {lines baseCases : List String} {settings : Settings}

/-- The alternatives of a formula, where `rule` is the name that a complaint gives. -/
def expansion (s : Session) (rule : String) (f : Formula) : Except Failure (List Alternative) :=
  (s.ask fun b => b.expand rule f).1

/-- The alternatives that are kept of a name. A name without a rule stands for itself. -/
def kept (s : Session) (name : String) : List Alternative :=
  if s.book.isRule name then (s.progress.known? name).getD [] else [.atomic name]

/-- A formula is expanded to what is computed without a memory. -/
theorem expansion_after [RegexLibrary] (h : ofLines lines baseCases settings = .ok s)
    (calls : List Call) (rule : String) (f : Formula) : (s.after calls).expansion rule f =
      f.expand (s.book.surroundings rule (s.book.recompute [])) :=
  (((sound_of_ofLines h).after calls).expand_eq rule f).trans (expand_after s calls rule f)

/-- After an expansion, the names in the formula stand for what is kept of them. -/
theorem Sound.recompute_kept [RegexLibrary] {rule : String} {f : Formula}
    {as : List Alternative} (h : s.Sound) (hclosed : s.book.Closed s.progress)
    (has : s.expansion rule f = .ok as) :
    ∀ n ∈ f.names s.book.extending,
      s.book.recompute [] n = .ok ((s.perform (.expand rule f)).kept n) := by
  intro n hn
  have hbook : (s.perform (.expand rule f)).book = s.book := rfl
  have hsettles : s.book.Settles (f.names s.book.extending) (s.book.expand rule f) :=
    Rulebook.expand_settles Rulebook.alternatives_settles f
  rw [kept, hbook]
  split
  · rename_i hrule
    obtain ⟨bs, hknown, hnew⟩ :=
      h.known_of_settles hclosed (Rulebook.expand_composed rule f) hsettles has hn hrule
    have hafter : (s.perform (.expand rule f)).progress.known? n = some bs := hknown
    rw [hafter, hnew]
    rfl
  · rename_i hrule
    exact Rulebook.recompute_of_none (by simpa [Rulebook.isRule_eq] using hrule)

end Session

end DesignLoads
