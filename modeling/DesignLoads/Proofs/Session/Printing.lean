import DesignLoads.Proofs.Rulebook.Names
import DesignLoads.Proofs.Session.Canonical

/-! A combination is resolved again from its own text. Its base load cases are no rules of the book,
so that none of them has the name of the combination itself; and its alternatives are different, so
that none of them is lost. -/

namespace DesignLoads

namespace Rule

variable {name : String}

/-- What ends in a character that is no white space ends in it without white space too. -/
theorem exists_trimStart_concat {c : Char} (hc : Unicode.isWhiteSpace c = false) (cs : List Char) :
    ∃ ds, Unicode.trimStart (cs ++ [c]) = ds ++ [c] := by
  induction cs with
  | nil => exact ⟨[], Unicode.trimStart_cons hc []⟩
  | cons d ds ih =>
    rw [Unicode.trimStart, List.cons_append, List.dropWhile_cons]
    split
    · exact ih
    · exact ⟨d :: ds, rfl⟩

/-- A line that begins with a name is not ignored. -/
theorem isIgnored_of_isName (h : isName name.toList) (rest : List Char) :
    isIgnored (String.ofList (name.toList ++ rest)) = false := by
  cases hcs : name.toList with
  | nil =>
    rw [hcs] at h
    cases h
  | cons c cs =>
    have htail := isNameTail_of_isName h c (by simp [hcs])
    have hwhite := isWhiteSpace_of_isNameTail htail
    have hhash : c ≠ '#' := by
      rintro rfl
      exact absurd htail (by decide)
    obtain ⟨ds, hds⟩ := exists_trimStart_concat hwhite (cs ++ rest).reverse
    have htrim : Unicode.trim (c :: (cs ++ rest)) = c :: ds.reverse := by
      rw [Unicode.trim, Unicode.trimStart_cons hwhite, List.reverse_cons, hds]
      simp
    rw [isIgnored, String.toList_ofList, List.cons_append, htrim]
    simpa using hhash

end Rule

namespace Combination.Printable

variable {limit : Option Nat} {c : Combination}

theorem not_hasNaN (h : c.Printable limit) : ∀ a ∈ c.alternatives, ¬ a.HasNaN := by
  rintro a ha ⟨e, he, hnan⟩
  exact not_isNaN_of_isFinite (h.terms a ha e he).finite hnan

/-- The alternatives are different, with a number beside them or without. -/
theorem distinct_load (h : c.Printable limit) :
    Alternative.distinct (c.alternatives.map .load) = c.alternatives.map .load := by
  have hinjective : Function.Injective Alternative.load := fun a b hab => congrArg (·.case) hab
  have hzero : (0 : Float).isNaN = false := by decide
  have hnone : ∀ a ∈ c.alternatives.map Alternative.load, ¬ a.HasNaN := by
    intro a ha
    obtain ⟨b, hb, rfl⟩ := List.mem_map.mp ha
    rintro (hconstant | hcase)
    · exact Bool.false_ne_true (hzero.symm.trans hconstant)
    · exact h.not_hasNaN b hb hcase
  rw [Alternative.distinct_eq hnone, eraseDups_eq_self (h.nodup.map hinjective)]

theorem loadCases_load (h : c.Printable limit) :
    Alternative.loadCases c.name (c.alternatives.map .load) = .ok c.alternatives := by
  have hzero : ∀ a ∈ c.alternatives.map Alternative.load, (a.constant == 0) = true := by
    intro a ha
    obtain ⟨b, _, rfl⟩ := List.mem_map.mp ha
    have hself : ((0 : Float) == 0) = true := by decide
    exact hself
  have hcases : (c.alternatives.map Alternative.load).map (·.case) = c.alternatives := by
    rw [List.map_map]
    exact List.map_id' _
  rw [Alternative.loadCases_ok hzero, hcases, LoadCase.canonical, LoadCase.map_rebuilt,
    LoadCase.distinct, distinct_eq_eraseDups fun a ha =>
      LoadCase.comparable_iff.mpr (h.not_hasNaN a ha), eraseDups_eq_self h.nodup]

/-- A book whose only rule is read from the text of a combination gives the combination back. -/
theorem loadCasesAnew_eq {book : Rulebook} {source : String}
    (h : c.Printable book.settings.maxAlternatives)
    (hrules : book.rules = [⟨c.name, source, formula c.alternatives⟩]) :
    book.loadCasesAnew c.name = .ok c.alternatives := by
  have hrule : book.rule? c.name = some ⟨c.name, source, formula c.alternatives⟩ := by
    rw [Rulebook.rule?_eq_find?, hrules]
    simp
  have hrefer : ∀ a ∈ c.alternatives, ∀ e ∈ a.entries,
      book.recompute [c.name] e.1 = .ok [.atomic e.1] := by
    intro a ha e he
    apply Rulebook.recompute_of_none
    rw [Rulebook.rule?_eq_find?, hrules]
    simpa using (h.others a ha e he).symm
  have hnew : book.recompute [] c.name = .ok (c.alternatives.map Alternative.load) := by
    have hexpand : (formula c.alternatives).expand
        (book.surroundings c.name (book.recompute [c.name])) =
          .ok (c.alternatives.map Alternative.load) :=
      Printable.expand_formula h hrefer
    rw [Rulebook.recompute_of_not_mem hrule (by simp), hexpand]
    exact congrArg Except.ok h.distinct_load
  rw [Rulebook.loadCasesAnew, Rulebook.isRule_eq, hrule, Option.isSome_some, if_pos rfl, hnew]
  exact h.loadCases_load

/-- A line with the text of a combination opens a book, eager or not, that gives the combination
back. -/
theorem exists_ofLines (h : c.Printable limit) (baseCases : List String) (eager : Bool) :
    ∃ t, Session.ofLines [c.text] baseCases ⟨limit, eager⟩ = .ok t ∧
      (t.ask fun b => b.resolve c.name).1.map (·.alternatives) = .ok c.alternatives := by
  obtain ⟨source, hparse⟩ := h.parse_chars
  have hlines : Rule.parseLines [c.text] = .ok [⟨c.name, source, formula c.alternatives⟩] := by
    have hignored : Rule.isIgnored c.text = false := Rule.isIgnored_of_isName h.name _
    rw [Rule.parseLines, List.filter_cons_of_pos (by rw [hignored]; rfl), List.filter_nil,
      List.mapM_cons, hparse]
    rfl
  have hrules {eager : Bool} {t : Session}
      (ht : Session.ofLines [c.text] baseCases ⟨limit, eager⟩ = .ok t) :
      t.book.rules = [⟨c.name, source, formula c.alternatives⟩] :=
    (Except.ok.inj (hlines.symm.trans (Session.opened ht).rules)).symm
  have hresolve {eager : Bool} {t : Session}
      (ht : Session.ofLines [c.text] baseCases ⟨limit, eager⟩ = .ok t) :
      (t.ask fun b => b.resolve c.name).1.map (·.alternatives) = .ok c.alternatives := by
    have hsettings : t.book.settings.maxAlternatives = limit := by rw [(Session.opened ht).settings]
    rw [(Session.sound_of_ofLines ht).alternatives_resolve]
    rw [← hsettings] at h
    exact h.loadCasesAnew_eq (hrules ht)
  obtain ⟨t, ht⟩ : ∃ t, Session.ofLines [c.text] baseCases ⟨limit, false⟩ = .ok t := by
    rw [Session.ofLines, hlines]
    exact ⟨_, rfl⟩
  cases eager with
  | false => exact ⟨t, ht, hresolve ht⟩
  | true =>
    -- the only rule can be resolved, so that it can be resolved at once
    obtain ⟨u, hu⟩ : ∃ u, (t.ask fun b => b.resolveAll).1 = .ok u := by
      rw [(Session.sound_of_ofLines ht).exists_resolveAll_iff]
      intro name hname
      rw [Rulebook.isRule_iff_mem_ruleNames, Rulebook.ruleNames, hrules ht] at hname
      rw [List.mem_singleton.mp hname]
      exact .inr (exists_map_ok_iff.mp ⟨_, hresolve ht⟩)
    obtain ⟨t', ht'⟩ := Session.exists_ofLines_eager_iff.mpr ⟨t, u, ht, hu⟩
    exact ⟨t', ht', hresolve ht'⟩

end Combination.Printable

namespace Session

variable {s : Session}

/-- What a rule resolves to is printable, if it has an alternative and finite coefficients alone. -/
theorem Sound.printable [RegexLibrary] {lines : List String} {name : String} {c : Combination}
    (h : s.Sound) (hclosed : s.book.Closed s.progress)
    (hlines : Rule.parseLines lines = .ok s.book.rules)
    (hlimit : ∀ l, s.book.settings.maxAlternatives = some l → 1 ≤ l) (hrule : s.book.isRule name)
    (hc : (s.ask fun b => b.resolve name).1 = .ok c) (hne : c.alternatives ≠ [])
    (hfin : ∀ a ∈ c.alternatives, ∀ e ∈ a.entries, e.2.isFinite) :
    c.Printable s.book.settings.maxAlternatives := by
  have hy := Yields.resolve hrule hc
  have hname : c.name = name := Rulebook.name_of_combinationAnew ((h.resolve_eq _).symm.trans hc)
  obtain ⟨as, hknown, has⟩ := hy.known h hclosed
  rw [hname] at hknown has
  have hnum : ∀ a ∈ c.alternatives, ¬ a.HasNaN := by
    rintro a ha ⟨e, he, hnan⟩
    exact not_isNaN_of_isFinite (hfin a ha e he) hnan
  obtain ⟨hsame, hnodup⟩ :=
    Rulebook.loadCases_of_recompute has (h.loadCases_of_resolve hrule hc has) hnum
  have hnames : ∀ a ∈ c.alternatives, ∀ e ∈ a.entries,
      isName e.1.toList ∧ s.book.isRule e.1 = false := by
    intro a ha e he
    rw [hsame] at ha
    obtain ⟨b, hb, rfl⟩ := List.mem_map.mp ha
    have hatom := Rulebook.atoms_of_recompute hlines hrule has b hb e he
    exact ⟨hatom.isName, hatom.noRule⟩
  refine ⟨?_, hne, ?_, ?_, hsame ▸ hnodup, ?_⟩
  · obtain ⟨rule, hr⟩ := Rulebook.isRule_iff.mp hrule
    obtain ⟨hm, rfl⟩ := Rulebook.rule?_eq_some_iff.mp hr
    obtain ⟨text, htext⟩ := Rule.exists_parse_of_mem hlines hm
    rw [hname]
    exact (Rule.isName_of_parse htext).1
  · exact fun a ha e he => ⟨(hnames a ha e he).1, hfin a ha e he, a.nonzero e he⟩
  · -- a base load case of the combination is no rule, but the combination is
    intro a ha e he heq
    have hnone := (hnames a ha e he).2
    rw [heq, hname, hrule] at hnone
    cases hnone
  · intro l hl
    have hbook : (s.perform (.resolve name)).book = s.book := rfl
    have hbounded := (h.perform (.resolve name)).bounded (hlimit l hl) (hbook ▸ hl)
    rw [hsame, List.length_map]
    exact hbounded name as hknown

/-- A combination with an alternative, and with finite coefficients alone, is a rule when it is
printed. A book of this one line, with any base load cases and the same limit, resolves it to the
same alternatives. -/
theorem resolve_text [RegexLibrary] {lines baseCases : List String} {settings : Settings}
    (h : ofLines lines baseCases settings = .ok s)
    (hlimit : ∀ l, settings.maxAlternatives = some l → 1 ≤ l) (calls : List Call) {name : String}
    {c : Combination} (hrule : s.book.isRule name)
    (hc : ((s.after calls).ask fun b => b.resolve name).1 = .ok c) (hne : c.alternatives ≠ [])
    (hfin : ∀ a ∈ c.alternatives, ∀ e ∈ a.entries, e.2.isFinite) :
    (∃ rule, Rule.parse c.text = .ok rule ∧ rule.name = c.name) ∧
    ∀ baseCases' eager, ∃ t,
      ofLines [c.text] baseCases' ⟨settings.maxAlternatives, eager⟩ = .ok t ∧
      (t.ask fun b => b.resolve c.name).1.map (·.alternatives) = .ok c.alternatives := by
  have hs := (sound_of_ofLines h).after calls
  have hclosed := closed_after h calls
  have hprintable : c.Printable settings.maxAlternatives := by
    obtain ⟨as, hbook⟩ := after_book s calls
    have hopened := opened h
    have hlines : Rule.parseLines lines = .ok (s.after calls).book.rules := by
      rw [hbook]
      exact hopened.rules
    have hsettings : (s.after calls).book.settings = settings := by
      rw [hbook]
      exact hopened.settings
    have hname : (s.after calls).book.isRule name := by
      rw [hbook]
      exact hrule
    rw [← hsettings] at hlimit ⊢
    exact hs.printable hclosed hlines hlimit hname hc hne hfin
  obtain ⟨source, hparse⟩ := hprintable.parse_chars
  exact ⟨⟨_, hparse, rfl⟩, hprintable.exists_ofLines⟩

attribute [local instance] Regex.library

/-- A difference of two loads, and one that leaves no load. -/
theorem resolve_text_of_difference : ∃ s c,
    ofLines ["U = 1.5*g - q | q - q"] ["g"] .standard = .ok s ∧
    (s.ask fun b => b.resolve "U").1 = .ok c ∧
    (∃ rule, Rule.parse c.text = .ok rule ∧ rule.name = c.name) ∧
    ∃ t, ofLines [c.text] [] ⟨some 100000, true⟩ = .ok t ∧
      (t.ask fun b => b.resolve c.name).1.map (·.alternatives) = .ok c.alternatives := by
  let f : Formula := .choice (.sum (.scale (.ref "g") (.number 1.5)) (.neg (.ref "q")))
    (.sum (.ref "q") (.neg (.ref "q")))
  let a := ((Alternative.atomic "g").scaled 1.5).merged ((Alternative.atomic "q").scaled (-1))
  let b := (Alternative.atomic "q").merged ((Alternative.atomic "q").scaled (-1))
  obtain ⟨s, hs, hrules⟩ := exists_of_opensWith
    (show opensWith ["U = 1.5*g - q | q - q"] ["g"] .standard
      [⟨"U", "U = 1.5*g - q | q - q", f⟩] = true by decide +kernel)
  have hfind (name : String) := (s.book.rule?_eq_find? name).trans (by rw [hrules])
  have hU : s.book.rule? "U" = some ⟨"U", "U = 1.5*g - q | q - q", f⟩ := hfind "U"
  have hrule : s.book.isRule "U" := Rulebook.isRule_iff.mpr ⟨_, hU⟩
  have hnew : s.book.recompute [] "U" = .ok (Alternative.distinct [a, b]) := by
    have hlimit : s.book.settings.maxAlternatives = some 100000 := by
      rw [(opened hs).settings]
      rfl
    have hbase : ∀ n ∈ ["g", "q"], s.book.recompute ["U"] n = .ok [.atomic n] := by
      intro n hn
      obtain rfl | rfl : n = "g" ∨ n = "q" := by simpa using hn
      · exact Rulebook.recompute_of_none (hfind "g")
      · exact Rulebook.recompute_of_none (hfind "q")
    rw [Rulebook.recompute_of_not_mem hU (by simp), Rulebook.surroundings, hlimit]
    simp only [f, Formula.expand, hbase "g" (by simp), hbase "q" (by simp)]
    rfl
  have hcases : s.book.loadCasesAnew "U" =
      .ok (LoadCase.canonical ((Alternative.distinct [a, b]).map (·.case))) := by
    rw [Rulebook.loadCasesAnew, if_pos hrule, hnew]
    apply Alternative.loadCases_ok
    intro x hx
    obtain rfl | rfl : x = a ∨ x = b := by simpa using mem_distinct.mp hx
    · decide +kernel
    · decide +kernel
  obtain ⟨c, hc, halt⟩ : ∃ c, (s.ask fun b => b.resolve "U").1 = .ok c ∧ c.alternatives =
      LoadCase.canonical ((Alternative.distinct [a, b]).map (·.case)) := by
    rw [(sound_of_ofLines hs).resolve_eq, hcases]
    exact ⟨_, rfl, rfl⟩
  have hmem (x : LoadCase) : x ∈ c.alternatives ↔ x = a.case ∨ x = b.case := by
    rw [halt, LoadCase.canonical, LoadCase.map_rebuilt, LoadCase.distinct, mem_distinct,
      List.mem_map]
    simp [Alternative.distinct, mem_distinct, eq_comm]
  have hne : c.alternatives ≠ [] := List.ne_nil_of_mem ((hmem a.case).mpr (.inl rfl))
  have hfin : ∀ x ∈ c.alternatives, ∀ e ∈ x.entries, e.2.isFinite := by
    intro x hx
    obtain hx | hx := (hmem x).mp hx <;> rw [hx]
    · decide +kernel
    · decide +kernel
  obtain ⟨hparse, hall⟩ := resolve_text hs (by simp [Settings.standard]) [] hrule hc hne hfin
  exact ⟨s, c, hs, hc, hparse, hall [] true⟩

end Session

end DesignLoads
