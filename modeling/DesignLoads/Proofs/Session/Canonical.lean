import DesignLoads.Proofs.Hashing
import DesignLoads.Proofs.Session.Bulk
import DesignLoads.Proofs.Session.States

/-! Combinations are in canonical form. The alternatives of a rule are different, and so are their
load cases when no number is left; so a combination lists the load cases of the alternatives that
are kept, one for one. -/

namespace DesignLoads

namespace Rulebook

variable {book : Rulebook} {name : String} {as : List Alternative} {cases' : List LoadCase}

/-- The load cases of alternatives that keep no number are different if these are. -/
theorem loadCases_of_recompute (has : book.recompute [] name = .ok as)
    (hcases : Alternative.loadCases name as = .ok cases') (hnum : ∀ c ∈ cases', ¬ c.HasNaN) :
    cases' = as.map (·.case) ∧ (as.map (·.case)).Nodup := by
  obtain ⟨hzero, rfl⟩ := Alternative.loadCases_eq_ok_iff.mp hcases
  rw [LoadCase.canonical, LoadCase.map_rebuilt] at hnum ⊢
  have hcase : ∀ c ∈ as.map (·.case), ¬ c.HasNaN := fun c hc => hnum c (mem_distinct.mpr hc)
  have hunsigned : ∀ a ∈ as, a.constant = 0 := by
    intro a ha
    have hatomic (n : String) : (Alternative.atomic n).Unsigned := fun _ => rfl
    exact recompute_forall Alternative.stable_unsigned (fun _ _ _ _ n _ _ => hatomic n)
      (fun _ => hatomic name) has a ha (hzero a ha)
  -- without a NaN, alternatives that do not agree are those that differ
  have hnodup : as.Nodup := by
    have hnone : ∀ a ∈ as, ¬ a.HasNaN := by
      rintro a ha (hconstant | hc)
      · rw [hunsigned a ha] at hconstant
        exact absurd hconstant (by decide)
      · exact hcase a.case (List.mem_map_of_mem ha) hc
    rw [← recompute_eraseDups has hnone]
    exact nodup_eraseDups as
  -- no two alternatives differ by their number alone, as all of these are the same zero
  have hcases : (as.map (·.case)).Nodup := by
    apply hnodup.map_on
    intro a ha b hb hab
    obtain ⟨k, c⟩ := a
    obtain ⟨l, d⟩ := b
    have hk : k = 0 := hunsigned _ ha
    have hl : l = 0 := hunsigned _ hb
    cases hab
    rw [hk, hl]
  refine ⟨?_, hcases⟩
  rw [LoadCase.distinct, distinct_eq_eraseDups fun c hc => LoadCase.comparable_iff.mpr (hcase c hc),
    eraseDups_eq_self hcases]

end Rulebook

namespace Session

variable {s : Session}

/-- A call gives a combination of a rule. -/
inductive Yields [RegexLibrary] (s : Session) : Call → Combination → Prop
  | resolve {name : String} {c : Combination} (hrule : s.book.isRule name)
      (h : (s.ask fun b => b.resolve name).1 = .ok c) : Yields s (.resolve name) c
  | ordered {cs : List Combination} {c : Combination}
      (h : (s.ask fun b => b.ordered).1 = .ok cs) (hc : c ∈ cs) : Yields s .ordered c
  | select {patterns : List String} {cs : List Combination} {c : Combination}
      (h : (s.ask fun b => b.select patterns).1 = .ok cs) (hc : c ∈ cs) :
      Yields s (.select patterns) c

theorem Yields.resolve_eq [RegexLibrary] {call : Call} {c : Combination} (h : s.Sound)
    (hy : s.Yields call c) :
    s.book.isRule c.name ∧ (s.ask fun b => b.resolve c.name).1 = .ok c := by
  cases hy with
  | resolve hrule hc =>
    have hname : c.name = _ := Rulebook.name_of_combinationAnew ((h.resolve_eq _).symm.trans hc)
    rw [hname]
    exact ⟨hrule, hc⟩
  | ordered hcs hc =>
    obtain ⟨_, hnames, hresolve⟩ := h.of_ordered hcs
    exact ⟨((hnames c.name).mp (List.mem_map_of_mem hc)).1, hresolve c hc⟩
  | select hcs hc =>
    obtain ⟨ps, names, _, hnames, hsame, hresolve⟩ := h.of_select hcs
    have hfilter : c.name ∈ names.filter _ := hsame ▸ List.mem_map_of_mem hc
    have hmem := (List.mem_filter.mp hfilter).1
    exact ⟨Rulebook.isRule_of_select hnames _ hmem, hresolve c hc⟩

/-- After a call, the alternatives of every rule that it gives a combination of are kept. -/
theorem Yields.known [RegexLibrary] {call : Call} {c : Combination} (h : s.Sound)
    (hclosed : s.book.Closed s.progress) (hy : s.Yields call c) :
    ∃ as, (s.perform call).progress.known? c.name = some as ∧
      s.book.recompute [] c.name = .ok as := by
  have hrule := (hy.resolve_eq h).1
  cases hy with
  | resolve hname hc =>
    have hsame : c.name = _ := Rulebook.name_of_combinationAnew ((h.resolve_eq _).symm.trans hc)
    rw [hsame] at hrule ⊢
    exact h.known_of_settles hclosed (Rulebook.resolve_composed _)
      (Rulebook.resolve_settles hname) hc (List.mem_singleton.mpr rfl) hrule
  | ordered hcs hc =>
    apply h.known_of_settles hclosed (Rulebook.combinations_composed _ _)
      (Rulebook.combinations_settles _ _) hcs _ hrule
    exact List.mem_mergeSort.mpr (Rulebook.isRule_iff_mem_ruleNames.mp hrule)
  | @select patterns cs _ hcs hc =>
    obtain ⟨ps, names, hps, hnames, hsame, _⟩ := h.of_select hcs
    -- the patterns and the chosen names need no memory, so that only the combinations are left
    have hquery : s.book.select patterns =
        s.book.combinations (fun n => ps.any fun p => p.names n) names := by
      rw [Rulebook.select, hps]
      change (liftExcept (Pattern.select ps s.book.sortedNames) >>= _ : Query _) = _
      rw [hnames]
      rfl
    have hfilter : c.name ∈ names.filter _ := hsame ▸ List.mem_map_of_mem hc
    have hmem := (List.mem_filter.mp hfilter).1
    have hcomposed : s.book.Composed (s.book.select patterns) := Rulebook.select_composed patterns
    have hsettles : s.book.Settles names
        (s.book.combinations (fun n => ps.any fun p => p.names n) names) :=
      Rulebook.combinations_settles _ names
    rw [← hquery] at hsettles
    exact h.known_of_settles hclosed hcomposed hsettles hcs hmem hrule

theorem Sound.loadCases_of_resolve {name : String} {c : Combination} {as : List Alternative}
    (h : s.Sound) (hrule : s.book.isRule name)
    (hc : (s.ask fun b => b.resolve name).1 = .ok c) (has : s.book.recompute [] name = .ok as) :
    Alternative.loadCases name as = .ok c.alternatives := by
  have halt := h.alternatives_resolve name
  rw [hc, Rulebook.loadCasesAnew, if_pos hrule, has] at halt
  exact halt.symm

theorem Sound.exists_resolve_iff [RegexLibrary] (h : s.Sound) (hclosed : s.book.Closed s.progress)
    {name : String} (hrule : s.book.isRule name) :
    (∃ c, (s.ask fun b => b.resolve name).1 = .ok c) ↔
      ∃ as, (s.perform (.resolve name)).progress.known? name = some as ∧
        ∀ a ∈ as, (a.constant == 0) = true := by
  constructor
  · rintro ⟨c, hc⟩
    have hy := Yields.resolve hrule hc
    obtain ⟨as, hknown, has⟩ := hy.known h hclosed
    have hname : c.name = name := Rulebook.name_of_combinationAnew ((h.resolve_eq _).symm.trans hc)
    rw [hname] at hknown has
    have hcases := h.loadCases_of_resolve hrule hc has
    exact ⟨as, hknown, (Alternative.loadCases_eq_ok_iff.mp hcases).1⟩
  · rintro ⟨as, hknown, hzero⟩
    have hsound := h.perform (.resolve name)
    have has : s.book.recompute [] name = .ok as := (hsound.known name as hknown).2
    have hcases : s.book.loadCasesAnew name = Alternative.loadCases name as := by
      rw [Rulebook.loadCasesAnew, if_pos hrule, has]
      rfl
    rw [h.resolve_eq, hcases, Alternative.loadCases_ok hzero]
    exact ⟨_, rfl⟩

/-- Every combination is in canonical form, by whichever call it is given: no coefficient is zero,
no two alternatives are equal, and they are the load cases of the alternatives that are kept of the
rule, one for one. A rule can be resolved exactly if alternatives of it are kept and no number is
left in them. -/
theorem yields_canonical [RegexLibrary] {lines baseCases : List String} {settings : Settings}
    (h : ofLines lines baseCases settings = .ok s) (calls : List Call) :
    (∀ call c, (s.after calls).Yields call c → (∀ a ∈ c.alternatives, ¬ a.HasNaN) →
      (∀ a ∈ c.alternatives, ∀ e ∈ a.entries, (e.2 == 0) = false) ∧
      c.alternatives.Pairwise (fun a b => a.agrees b = false) ∧
      ∃ as, ((s.after calls).perform call).progress.known? c.name = some as ∧
        c.alternatives = as.map (·.case)) ∧
    ∀ name, (s.after calls).book.isRule name →
      ((∃ c, ((s.after calls).ask fun b => b.resolve name).1 = .ok c) ↔
        ∃ as, ((s.after calls).perform (.resolve name)).progress.known? name = some as ∧
          ∀ a ∈ as, (a.constant == 0) = true) := by
  have hs := (sound_of_ofLines h).after calls
  have hclosed := closed_after h calls
  refine ⟨?_, fun name hrule => hs.exists_resolve_iff hclosed hrule⟩
  intro call c hy hnum
  obtain ⟨hrule, hc⟩ := hy.resolve_eq hs
  obtain ⟨as, hknown, has⟩ := hy.known hs hclosed
  have hcases := hs.loadCases_of_resolve hrule hc has
  obtain ⟨hsame, hnodup⟩ := Rulebook.loadCases_of_recompute has hcases hnum
  refine ⟨fun a _ => a.nonzero, ?_, as, hknown, hsame⟩
  rw [hsame]
  refine hnodup.imp ?_
  intro a b hne
  by_contra hagrees
  exact hne (LoadCase.eq_of_agrees (by simpa using hagrees))

attribute [local instance] Regex.library

/-- A load and its opposite, the latter twice. -/
theorem yields_canonical_of_opposite : ∃ s c,
    ofLines ["U = g | -g | g*(-1)"] ["g"] .standard = .ok s ∧
    (s.after [.ordered]).Yields (.resolve "U") c ∧
    (∀ a ∈ c.alternatives, ∀ e ∈ a.entries, (e.2 == 0) = false) ∧
    c.alternatives.Pairwise (fun a b => a.agrees b = false) ∧
    ∃ as, ((s.after [.ordered]).perform (.resolve "U")).progress.known? c.name = some as ∧
      c.alternatives = as.map (·.case) := by
  obtain ⟨s, hs, hrules⟩ := exists_of_opensWith
    (show opensWith ["U = g | -g | g*(-1)"] ["g"] .standard
      [⟨"U", "U = g | -g | g*(-1)", .choice (.choice (.ref "g") (.neg (.ref "g")))
        (.scale (.ref "g") (.neg (.number 1)))⟩] = true by decide +kernel)
  have hfind (name : String) := (s.book.rule?_eq_find? name).trans (by rw [hrules])
  have hU : s.book.rule? "U" = some ⟨"U", "U = g | -g | g*(-1)",
      .choice (.choice (.ref "g") (.neg (.ref "g")))
        (.scale (.ref "g") (.neg (.number 1)))⟩ := hfind "U"
  have hg : s.book.rule? "g" = none := hfind "g"
  -- a load is negated by a product, so that its opposite comes twice
  have hnew : s.book.recompute [] "U" = .ok (Alternative.distinct
      [.atomic "g", (Alternative.atomic "g").scaled (-1),
        (Alternative.atomic "g").scaled (-1)]) := by
    have hlimit : s.book.settings.maxAlternatives = some 100000 := by
      rw [(opened hs).settings]
      rfl
    have hname : s.book.recompute ["U"] "g" = .ok [.atomic "g"] :=
      Rulebook.recompute_of_none hg
    rw [Rulebook.recompute_of_not_mem hU (by simp), Rulebook.surroundings, hlimit]
    simp only [Formula.expand, hname]
    rfl
  have hsound := (sound_of_ofLines hs).after [.ordered]
  have hcases : (s.after [.ordered]).book.loadCasesAnew "U" =
      .ok (LoadCase.canonical ((Alternative.distinct [.atomic "g",
        (Alternative.atomic "g").scaled (-1), (Alternative.atomic "g").scaled (-1)]).map
          (·.case))) := by
    rw [loadCasesAnew_after, Rulebook.loadCasesAnew, Rulebook.isRule_eq, hU, Option.isSome_some,
      if_pos rfl, hnew]
    apply Alternative.loadCases_ok
    intro a ha
    obtain rfl | rfl : a = .atomic "g" ∨ a = (Alternative.atomic "g").scaled (-1) := by
      simpa using mem_distinct.mp ha
    · rfl
    · decide
  obtain ⟨c, hc, halt⟩ : ∃ c, ((s.after [.ordered]).ask fun b => b.resolve "U").1 = .ok c ∧
      (s.after [.ordered]).book.loadCasesAnew "U" = .ok c.alternatives := by
    rw [hsound.resolve_eq, hcases]
    exact ⟨_, rfl, rfl⟩
  have hrule : (s.after [.ordered]).book.isRule "U" := by
    obtain ⟨as, has⟩ := after_book s [.ordered]
    rw [has]
    exact Rulebook.isRule_iff.mpr ⟨_, hU⟩
  have hnum : ∀ a ∈ c.alternatives, ¬ a.HasNaN := by
    intro a ha
    rw [hcases, LoadCase.canonical, LoadCase.map_rebuilt] at halt
    rw [← Except.ok.inj halt] at ha
    obtain ⟨b, hb, rfl⟩ := List.mem_map.mp (mem_distinct.mp ha)
    apply LoadCase.comparable_iff.mp
    obtain rfl | rfl : b = .atomic "g" ∨ b = (Alternative.atomic "g").scaled (-1) := by
      simpa using mem_distinct.mp hb
    · decide
    · decide
  obtain ⟨hzero, hdiffer, hkept⟩ :=
    (yields_canonical hs [.ordered]).1 _ c (.resolve hrule hc) hnum
  exact ⟨s, c, hs, .resolve hrule hc, hzero, hdiffer, hkept⟩

end Session

end DesignLoads
