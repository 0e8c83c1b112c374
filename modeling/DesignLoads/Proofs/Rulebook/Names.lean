import DesignLoads.Proofs.Combination.Expansion
import DesignLoads.Proofs.Session.History

/-! The names in an alternative. No operation brings in a name, so that each of them stands in a
formula; and a name that stands for itself is no rule. -/

namespace DesignLoads

namespace Rule

variable {lines : List String} {rules : List Rule}

theorem exists_parse_of_mem (h : parseLines lines = .ok rules) {rule : Rule} (hm : rule ∈ rules) :
    ∃ text, parse text = .ok rule := by
  have hmem : Except.ok rule ∈ (lines.filter fun line => !isIgnored line).map parse :=
    mapM_eq_ok_iff.mp h ▸ List.mem_map_of_mem hm
  obtain ⟨text, _, htext⟩ := List.mem_map.mp hmem
  exact ⟨text, htext⟩

end Rule

namespace Rulebook

variable {book : Rulebook} {name : String} {as : List Alternative}

/-- An atom of a rule: a name that can be read and is no rule, in the formula of the rule or of one
that it reaches. -/
structure Atom (book : Rulebook) (name n : String) : Prop where
  isName : isName n.toList
  noRule : book.isRule n = false
  written : ∃ r rule, book.Reaches name r ∧ book.rule? r = some rule ∧ n ∈ rule.formula.refs

theorem Atom.ne {n : String} (h : book.Atom name n) (hrule : book.isRule name) : n ≠ name := by
  rintro rfl
  rw [h.noRule] at hrule
  cases hrule

/-- Nothing but atoms of a rule gets into its alternatives. -/
theorem atoms_of_recompute {lines : List String} (hlines : Rule.parseLines lines = .ok book.rules)
    (hrule : book.isRule name) (h : book.recompute [] name = .ok as) :
    ∀ a ∈ as, ∀ e ∈ a.case.entries, book.Atom name e.1 := by
  apply recompute_forall (Alternative.stable_names (book.Atom name)) _ _ h
  · intro r rule hreach hr n hn hnone e he
    have hentries : (Alternative.atomic n).case.entries = [(n, 1)] :=
      LoadCase.entries_single (by decide)
    rw [hentries] at he
    rw [List.mem_singleton.mp he]
    obtain ⟨text, htext⟩ := Rule.exists_parse_of_mem hlines (rule?_eq_some_iff.mp hr).1
    refine ⟨(Rule.isName_of_parse htext).2 n hn, ?_, r, rule, hreach, hr, hn⟩
    rw [isRule_eq, hnone, Option.isSome_none]
  · intro hnone
    rw [isRule_eq, hnone] at hrule
    cases hrule

end Rulebook

namespace Session

variable {s : Session}

/-- After any calls, the alternatives of a rule have no names but atoms of it: names that can be
read, that are no rules, and that stand in the formula of the rule or of one that it reaches by name
or through a family. So a rule does not turn up in its own alternatives. -/
theorem alternatives_atoms [RegexLibrary] {lines baseCases : List String} {settings : Settings}
    (h : ofLines lines baseCases settings = .ok s) (calls : List Call) {name : String}
    {as : List Alternative} (hrule : s.book.isRule name)
    (has : ((s.after calls).ask fun b => b.alternatives name).1 = .ok as) :
    ∀ a ∈ as, ∀ e ∈ a.case.entries, s.book.Atom name e.1 ∧ e.1 ≠ name := by
  rw [((sound_of_ofLines h).after calls).alternatives_eq, recompute_after] at has
  intro a ha e he
  have hatom := Rulebook.atoms_of_recompute (opened h).rules hrule has a ha e he
  exact ⟨hatom, hatom.ne hrule⟩

attribute [local instance] Regex.library

/-- A load and the two of a family: none of them is a rule, and one stands in another formula. -/
theorem alternatives_atoms_of_family : ∃ s as,
    ofLines ["U = g + w$", "w1 = q | a"] ["g"] .standard = .ok s ∧ s.book.isRule "U" ∧
    ((s.after [.resolve "w1"]).ask fun b => b.alternatives "U").1 = .ok as ∧
    (∃ a ∈ as, a.case.has "q") ∧
    ∀ a ∈ as, ∀ e ∈ a.case.entries, s.book.Atom "U" e.1 ∧ e.1 ≠ "U" := by
  obtain ⟨s, hs, hrules⟩ : ∃ s, ofLines ["U = g + w$", "w1 = q | a"] ["g"] .standard = .ok s ∧
      s.book.rules = [⟨"U", "U = g + w$", .sum (.ref "g") (.family "w")⟩,
        ⟨"w1", "w1 = q | a", .choice (.ref "q") (.ref "a")⟩] :=
    exists_of_opensWith (by decide +kernel)
  have hlimit : s.book.settings.maxAlternatives = some 100000 := by
    rw [(opened hs).settings]
    rfl
  have hfamily : s.book.extending "w" = ["w1"] := by
    rw [Rulebook.extending, Rulebook.ruleNames, hrules]
    decide
  have hU : s.book.rule? "U" = some ⟨"U", "U = g + w$", .sum (.ref "g") (.family "w")⟩ := by
    rw [Rulebook.rule?_eq_find?, hrules]
    rfl
  have hw : s.book.rule? "w1" = some ⟨"w1", "w1 = q | a", .choice (.ref "q") (.ref "a")⟩ := by
    rw [Rulebook.rule?_eq_find?, hrules]
    rfl
  have hbase (stack : List String) : ∀ n ∈ ["g", "q", "a"],
      s.book.recompute stack n = .ok [.atomic n] := by
    intro n hn
    apply Rulebook.recompute_of_none
    rw [Rulebook.rule?_eq_find?, hrules]
    revert n
    decide
  have hinner : s.book.recompute ["U"] "w1" =
      .ok (Alternative.distinct [.atomic "q", .atomic "a"]) := by
    rw [Rulebook.recompute_of_not_mem hw (by decide), Rulebook.surroundings, hlimit]
    simp only [Formula.expand, hbase _ "q" (by simp), hbase _ "a" (by simp)]
    rfl
  -- neither alternative of the family repeats the other
  have hdistinct : Alternative.distinct [.atomic "q", .atomic "a"] =
      [.atomic "q", .atomic "a"] := by
    have hcomparable : ∀ a ∈ [Alternative.atomic "q", .atomic "a"], a.comparable := by decide
    rw [Alternative.distinct_eq fun a ha => Alternative.comparable_iff.mp (hcomparable a ha)]
    decide
  have hrule : s.book.isRule "U" := Rulebook.isRule_iff.mpr ⟨_, hU⟩
  have has : ((s.after [.resolve "w1"]).ask fun b => b.alternatives "U").1 =
      .ok (Alternative.distinct [(Alternative.atomic "g").merged (.atomic "q"),
        (Alternative.atomic "g").merged (.atomic "a")]) := by
    rw [((sound_of_ofLines hs).after [.resolve "w1"]).alternatives_eq, recompute_after,
      Rulebook.recompute_of_not_mem hU (by simp), Rulebook.surroundings, hlimit]
    simp only [Formula.expand, Formula.expandNames, hfamily, hbase _ "g" (by simp), hinner,
      hdistinct]
    rfl
  refine ⟨s, _, hs, hrule, has, ?_, alternatives_atoms hs [.resolve "w1"] hrule has⟩
  exact ⟨(Alternative.atomic "g").merged (.atomic "q"), mem_distinct.mpr List.mem_cons_self,
    by decide +kernel⟩

end Session

end DesignLoads
