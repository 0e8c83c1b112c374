import DesignLoads.Proofs.Session.History
import Mathlib.Data.List.Perm.Subperm

/-! Resolution is local. What a name stands for depends on the formulas of the names that it reaches
and on the order within the families in them, and on nothing else of a rule book. -/

namespace DesignLoads

namespace Rulebook

variable {book book' : Rulebook} {name n m : String} {rule : Rule}

/-- Two rule books agree below a name: on the formula of every name that it involves, or that there
is none, and on the families of these formulas. -/
structure AgreesBelow (book book' : Rulebook) (name : String) : Prop where
  formula : ∀ n, book.Involves name n →
    (book'.rule? n).map (·.formula) = (book.rule? n).map (·.formula)
  family : ∀ n rule, book.Involves name n → book.rule? n = some rule →
    ∀ stem ∈ rule.formula.stems, book'.extending stem = book.extending stem

namespace AgreesBelow

theorem of_mentions (h : book.AgreesBelow book' name) (hm : book.Mentions name m) :
    book.AgreesBelow book' m :=
  ⟨fun n hn => h.formula n (Relation.ReflTransGen.head hm hn),
    fun n rule hn => h.family n rule (Relation.ReflTransGen.head hm hn)⟩

theorem rule?_of_some (h : book.AgreesBelow book' name) (hr : book.rule? name = some rule) :
    ∃ rule', book'.rule? name = some rule' ∧ rule'.formula = rule.formula := by
  have hself := h.formula name Relation.ReflTransGen.refl
  rw [hr] at hself
  exact Option.map_eq_some_iff.mp hself

theorem rule?_of_none (h : book.AgreesBelow book' name) (hr : book.rule? name = none) :
    book'.rule? name = none := by
  have hself := h.formula name Relation.ReflTransGen.refl
  rw [hr] at hself
  exact Option.map_eq_none_iff.mp hself

theorem isRule_eq (h : book.AgreesBelow book' name) : book'.isRule name = book.isRule name := by
  cases hr : book.rule? name with
  | none => rw [Rulebook.isRule_eq, Rulebook.isRule_eq, hr, h.rule?_of_none hr]
  | some rule =>
    obtain ⟨rule', hr', _⟩ := h.rule?_of_some hr
    rw [Rulebook.isRule_eq, Rulebook.isRule_eq, hr, hr']
    rfl

end AgreesBelow

/-- Rule books that agree below a name compute the same for it, circles included. -/
theorem recompute_of_agreesBelow
    (hlimit : book'.settings.maxAlternatives = book.settings.maxAlternatives)
    (h : book.AgreesBelow book' name) (stack : List String) :
    book'.recompute stack name = book.recompute stack name := by
  induction stack, name using recompute.induct book with
  | case1 stack name hr => rw [recompute_of_none hr, recompute_of_none (h.rule?_of_none hr)]
  | case2 stack name rule hr hs =>
    obtain ⟨rule', hr', _⟩ := h.rule?_of_some hr
    rw [recompute_of_mem hr hs, recompute_of_mem hr' hs]
  | case3 stack name rule hr hs ih =>
    obtain ⟨rule', hr', hformula⟩ := h.rule?_of_some hr
    rw [recompute_of_not_mem hr hs, recompute_of_not_mem hr' hs, hformula]
    congr 1
    refine Formula.expand_congr hlimit (by rfl) ?_ fun n hn => ih n (h.of_mentions ⟨rule, hr, hn⟩)
    exact h.family name rule Relation.ReflTransGen.refl hr

/-- Rules in another order are found alike, as their names are different. -/
theorem rule?_of_perm (h : book'.rules.Perm book.rules) (name : String) :
    book'.rule? name = book.rule? name := by
  apply Option.ext
  intro rule
  rw [rule?_eq_some_iff, rule?_eq_some_iff, h.mem_iff]

theorem agreesBelow_of_perm (h : book'.rules.Perm book.rules)
    (hfamily : ∀ rule ∈ book.rules, ∀ stem ∈ rule.formula.stems,
      book'.extending stem = book.extending stem) (name : String) :
    book.AgreesBelow book' name := by
  refine ⟨?_, ?_⟩
  · intro n _
    rw [rule?_of_perm h]
  · intro n rule _ hr
    exact hfamily rule (rule?_eq_some_iff.mp hr).1

/-- Rules that a name does not involve may be left out. -/
theorem agreesBelow_of_sublist (h : book'.rules.Sublist book.rules)
    (hnew : ∀ rule ∈ book.rules, rule ∉ book'.rules → ¬ book.Involves name rule.name) :
    book.AgreesBelow book' name := by
  have hold : ∀ n rule, book.Involves name n → book.rule? n = some rule → rule ∈ book'.rules := by
    intro n rule hn hr
    obtain ⟨hm, rfl⟩ := rule?_eq_some_iff.mp hr
    by_contra hout
    exact hnew rule hm hout hn
  refine ⟨?_, ?_⟩
  · intro n hn
    congr 1
    apply Option.ext
    intro rule
    constructor
    · intro hr
      obtain ⟨hm, rfl⟩ := rule?_eq_some_iff.mp hr
      exact rule?_eq_some_iff.mpr ⟨h.subset hm, rfl⟩
    · intro hr
      have hname := (rule?_eq_some_iff.mp hr).2
      exact rule?_eq_some_iff.mpr ⟨hold n rule hn hr, hname⟩
  · intro n rule hn hr stem hstem
    have hsub : (book'.extending stem).Sublist (book.extending stem) := (h.map _).filter _
    have hnodup : (book.extending stem).Nodup := book.distinct.filter _
    apply hsub.eq_of_length_le
    apply (List.subperm_of_subset hnodup ?_).length_le
    -- a member of the family is mentioned by a rule that the name involves, so it is no new rule
    intro m hm
    have hmentions : book.Mentions n m :=
      ⟨rule, hr, Formula.mem_names_iff.mpr (.inr ⟨stem, hstem, hm⟩)⟩
    obtain ⟨hrule, hlonger⟩ := mem_extending_iff.mp hm
    obtain ⟨other, hother⟩ := isRule_iff.mp hrule
    have hkept := hold m other (hn.tail hmentions) hother
    obtain ⟨_, rfl⟩ := rule?_eq_some_iff.mp hother
    exact mem_extending_iff.mpr ⟨isRule_iff_mem_ruleNames.mpr (List.mem_map_of_mem hkept), hlonger⟩

theorem loadCasesAnew_of_agreesBelow
    (hlimit : book'.settings.maxAlternatives = book.settings.maxAlternatives)
    (h : book.AgreesBelow book' name) : book'.loadCasesAnew name = book.loadCasesAnew name := by
  rw [loadCasesAnew, loadCasesAnew, h.isRule_eq, recompute_of_agreesBelow hlimit h]

end Rulebook

namespace Rule

variable {lines lines' : List String} {rules rules' : List Rule}

theorem map_ok_injective {ε α : Type} : Function.Injective (Except.ok : α → Except ε α) :=
  fun _ _ h => Except.ok.inj h

theorem parseLines_perm (h : parseLines lines = .ok rules) (h' : parseLines lines' = .ok rules')
    (hlines : lines'.Perm lines) : rules'.Perm rules := by
  have hparsed := (hlines.filter fun line => !isIgnored line).map parse
  rw [mapM_eq_ok_iff.mp h, mapM_eq_ok_iff.mp h'] at hparsed
  exact (List.map_perm_map_iff map_ok_injective).mp hparsed

theorem parseLines_sublist (h : parseLines lines = .ok rules) (h' : parseLines lines' = .ok rules')
    (hlines : lines'.Sublist lines) : rules'.Sublist rules := by
  have hparsed := (hlines.filter fun line => !isIgnored line).map parse
  rw [mapM_eq_ok_iff.mp h, mapM_eq_ok_iff.mp h', List.sublist_map_iff] at hparsed
  obtain ⟨kept, hkept, heq⟩ := hparsed
  rwa [List.map_injective_iff.mpr map_ok_injective heq]

end Rule

namespace Session

variable {s t : Session}

/-- Resolution is local. Two sessions with the same settings and no attached options, after any
calls, resolve a name to the same combination, or fail alike, if their rules agree on the formulas
and the families below that name: so if the lines are in another order that keeps the order within
each family that is used, if lines are added or removed whose rules the name does not involve, or if
other base load cases are declared. -/
theorem resolve_local [RegexLibrary] {lines lines' baseCases baseCases' : List String}
    {settings : Settings} (h : ofLines lines baseCases settings = .ok s)
    (h' : ofLines lines' baseCases' settings = .ok t)
    {calls calls' : List Call} (hnone : (s.after calls).book.attachments = [])
    (hnone' : (t.after calls').book.attachments = []) :
    (∀ name, s.book.AgreesBelow t.book name →
      ((t.after calls').ask fun b => b.resolve name).1 =
        ((s.after calls).ask fun b => b.resolve name).1) ∧
    (lines'.Perm lines → (∀ rule ∈ s.book.rules, ∀ stem ∈ rule.formula.stems,
        t.book.extending stem = s.book.extending stem) →
      ∀ name, ((t.after calls').ask fun b => b.resolve name).1 =
        ((s.after calls).ask fun b => b.resolve name).1) ∧
    (lines'.Sublist lines → ∀ name, (∀ rule ∈ s.book.rules, rule ∉ t.book.rules →
        ¬ s.book.Involves name rule.name) →
      ((t.after calls').ask fun b => b.resolve name).1 =
        ((s.after calls).ask fun b => b.resolve name).1) ∧
    (lines' = lines → ∀ name, ((t.after calls').ask fun b => b.resolve name).1 =
      ((s.after calls).ask fun b => b.resolve name).1) := by
  have hs := (sound_of_ofLines h).after calls
  have ht := (sound_of_ofLines h').after calls'
  obtain ⟨hrules, hsettings, _, _⟩ := opened h
  obtain ⟨hrules', hsettings', _, _⟩ := opened h'
  have hlocal (name : String) (hagree : s.book.AgreesBelow t.book name) :
      ((t.after calls').ask fun b => b.resolve name).1 =
        ((s.after calls).ask fun b => b.resolve name).1 := by
    have hlimit : t.book.settings.maxAlternatives = s.book.settings.maxAlternatives := by
      rw [hsettings, hsettings']
    rw [hs.resolve_eq, ht.resolve_eq, loadCasesAnew_after, loadCasesAnew_after,
      Rulebook.loadCasesAnew_of_agreesBelow hlimit hagree, Rulebook.optionsFor,
      Rulebook.optionsFor, hnone, hnone']
  refine ⟨hlocal, ?_, ?_, ?_⟩
  · intro hlines hfamily name
    apply hlocal
    exact Rulebook.agreesBelow_of_perm (Rule.parseLines_perm hrules hrules' hlines) hfamily name
  · intro hlines name hnew
    apply hlocal
    exact Rulebook.agreesBelow_of_sublist (Rule.parseLines_sublist hrules hrules' hlines) hnew
  · intro hlines name
    apply hlocal
    have heq : t.book.rules = s.book.rules := by
      rw [hlines, hrules] at hrules'
      exact (Except.ok.inj hrules').symm
    apply Rulebook.agreesBelow_of_perm (heq ▸ List.Perm.refl _)
    intro rule _ stem _
    rw [Rulebook.extending_of_rules heq]

attribute [local instance] Regex.library

/-- With all lines in another order, and after calls that run into the circle of `V`, nothing
resolves otherwise; without that circle, which `U` does not involve, `U` does not. -/
theorem resolve_local_of_circle : ∃ s t u,
    ofLines ["U = 1.35*g + w$", "w1 = q | a", "w2 = w1", "V = U + x$", "x1 = V"] [] .standard =
      .ok s ∧
    ofLines ["x1 = V", "w1 = q | a", "V = U + x$", "w2 = w1", "U = 1.35*g + w$"] ["g"] .standard =
      .ok t ∧
    ofLines ["U = 1.35*g + w$", "w1 = q | a", "w2 = w1"] ["q"] .standard = .ok u ∧
    (∀ name, ((t.after [.resolve "x1", .ordered]).ask fun b => b.resolve name).1 =
      (s.ask fun b => b.resolve name).1) ∧
    (u.ask fun b => b.resolve "U").1 = (s.ask fun b => b.resolve "U").1 := by
  have hopen : (match
      ofLines ["U = 1.35*g + w$", "w1 = q | a", "w2 = w1", "V = U + x$", "x1 = V"] [] .standard,
      ofLines ["x1 = V", "w1 = q | a", "V = U + x$", "w2 = w1", "U = 1.35*g + w$"] ["g"] .standard,
      ofLines ["U = 1.35*g + w$", "w1 = q | a", "w2 = w1"] ["q"] .standard with
    | .ok s, .ok t, .ok u =>
      (s.book.rules.all fun rule => rule.formula.stems.all fun stem =>
        t.book.extending stem = s.book.extending stem) &&
      s.book.rules.all fun rule => rule.name ∉ ["U", "w1", "w2", "g", "q", "a"] ||
        rule ∈ u.book.rules &&
          (rule.formula.names s.book.extending).all (· ∈ ["U", "w1", "w2", "g", "q", "a"])
    | _, _, _ => false) = true := by decide +kernel
  cases hs : ofLines ["U = 1.35*g + w$", "w1 = q | a", "w2 = w1", "V = U + x$", "x1 = V"] []
      .standard with
  | error e => simp [hs] at hopen
  | ok s =>
    cases ht : ofLines ["x1 = V", "w1 = q | a", "V = U + x$", "w2 = w1", "U = 1.35*g + w$"] ["g"]
        .standard with
    | error e => simp [hs, ht] at hopen
    | ok t =>
      cases hu : ofLines ["U = 1.35*g + w$", "w1 = q | a", "w2 = w1"] ["q"] .standard with
      | error e => simp [hs, ht, hu] at hopen
      | ok u =>
        obtain ⟨hfamily, hclosed⟩ : _ ∧ _ := by
          simpa only [hs, ht, hu, Bool.and_eq_true] using hopen
        have hnone : (s.after []).book.attachments = [] := (opened hs).attachments
        have hnone' : (t.after [.resolve "x1", .ordered]).book.attachments = [] :=
          (opened ht).attachments
        have hnone'' : (u.after []).book.attachments = [] := (opened hu).attachments
        refine ⟨s, t, u, rfl, rfl, rfl, ?_, ?_⟩
        · apply (resolve_local hs ht hnone hnone').2.1 (by decide)
          simpa using hfamily
        · apply (resolve_local hs hu hnone hnone'').2.2.1 (by decide)
          intro rule hm hout hinvolved
          have hinside : ∀ r ∈ s.book.rules, r.name ∈ ["U", "w1", "w2", "g", "q", "a"] →
              r ∈ u.book.rules ∧ ∀ n ∈ r.formula.names s.book.extending,
                n ∈ ["U", "w1", "w2", "g", "q", "a"] := by
            intro r hr hname
            have hall := List.all_eq_true.mp hclosed r hr
            simpa only [hname, not_true, decide_false, Bool.false_or, Bool.and_eq_true,
              List.all_eq_true, decide_eq_true_eq] using hall
          have hname := hinvolved.mem_of_closed (fun r hr hn => (hinside r hr hn).2) (by simp)
          exact hout (hinside rule hm hname).1

end Session

end DesignLoads
