import DesignLoads.Proofs.Rulebook.Bulk

/-! Queries for many rules at once, and what they have to do with the resolution of single ones. -/

namespace DesignLoads

namespace Session

variable {s : Session}

/-- Whether the alternatives of a name are numbers alone, and not only zeros. -/
def isFactorSet (s : Session) (name : String) : Bool :=
  match (s.ask fun b => b.alternatives name).1 with
  | .ok as => Alternative.isFactorSet as
  | .error _ => false

/-- The queries for many rules agree with the resolution of each of them, whatever library reads the
regular expressions. Of the library it is only asked that it finds the empty expression, and only
where a selection is made by that. -/
structure Agrees [RegexLibrary] (s : Session) : Prop where
  ordered_iff : (∃ cs, (s.ask fun b => b.ordered).1 = .ok cs) ↔
    ∃ u, (s.ask fun b => b.resolveAll).1 = .ok u
  resolveAll_iff : (∃ u, (s.ask fun b => b.resolveAll).1 = .ok u) ↔
    ∀ name, s.book.isRule name →
      s.isFactorSet name ∨ ∃ c, (s.ask fun b => b.resolve name).1 = .ok c
  ordered : ∀ cs, (s.ask fun b => b.ordered).1 = .ok cs →
    (cs.map (·.name)).Pairwise (· < ·) ∧
    (∀ name, name ∈ cs.map (·.name) ↔ s.book.isRule name ∧ s.isFactorSet name = false) ∧
    ∀ c ∈ cs, (s.ask fun b => b.resolve c.name).1 = .ok c
  select : ∀ patterns cs, (s.ask fun b => b.select patterns).1 = .ok cs → ∃ ps names,
    patterns.mapM Pattern.parse = .ok ps ∧ Pattern.select ps s.book.sortedNames = .ok names ∧
    cs.map (·.name) = names.filter (fun name => !s.isFactorSet name) ∧
    ∀ c ∈ cs, (s.ask fun b => b.resolve c.name).1 = .ok c
  literal : ∀ patterns ps before name rest, patterns.mapM Pattern.parse = .ok ps →
    Pattern.select ps s.book.sortedNames = .ok (before ++ name :: rest) →
    (ps.any fun p => p.names name) = true → s.isFactorSet name = true →
    (∀ m ∈ before, (∃ c, (s.ask fun b => b.resolve m).1 = .ok c) ∨
      s.isFactorSet m = true ∧ (ps.any fun p => p.names m) = false) →
    ∃ k, (k == 0) = false ∧
      (s.ask fun b => b.select patterns).1 = .error (.constantTerm name k)
  every : RegexLibrary.FindsEmpty →
    (s.ask fun b => b.select ["&"]) = s.ask fun b => b.ordered

theorem Sound.isFactorSet_eq (h : s.Sound) (name : String) :
    s.isFactorSet name = s.book.isFactors name := by
  rw [isFactorSet, h.alternatives_eq]
  rfl

/-- What is resolved one after the other are the combinations of the names. -/
theorem Sound.of_mapM (h : s.Sound) {names : List String} {cs : List Combination}
    (hcs : names.mapM s.book.combinationAnew = .ok cs) :
    cs.map (·.name) = names ∧ ∀ c ∈ cs, (s.ask fun b => b.resolve c.name).1 = .ok c := by
  induction names generalizing cs with
  | nil =>
    cases hcs
    simp
  | cons n ns ih =>
    rw [List.mapM_cons] at hcs
    obtain ⟨c, hc, hcs⟩ := bind_eq_ok_iff.mp hcs
    obtain ⟨ds, hds, hcs⟩ := bind_eq_ok_iff.mp hcs
    cases hcs
    obtain ⟨hnames, hresolve⟩ := ih hds
    have hname := Rulebook.name_of_combinationAnew hc
    refine ⟨by rw [List.map_cons, hname, hnames], ?_⟩
    intro d hd
    obtain rfl | hd := List.mem_cons.mp hd
    · rw [hname]
      exact (h.resolve_eq n).trans hc
    · exact hresolve d hd

/-- Rules can be resolved one after the other if each of them can, or is passed over. -/
theorem Sound.exists_mapM_resolved_iff (h : s.Sound) (names : List String) :
    (∃ cs, (s.book.resolved (fun _ => false) names).mapM s.book.combinationAnew = .ok cs) ↔
      ∀ n ∈ names, s.isFactorSet n ∨ ∃ c, (s.ask fun b => b.resolve n).1 = .ok c := by
  have hone (n : String) : (∃ c, s.book.combinationAnew n = .ok c) ↔
      ∃ c, (s.ask fun b => b.resolve n).1 = .ok c := by
    rw [h.resolve_eq]
    rfl
  rw [exists_mapM_ok_iff]
  constructor
  · intro hall n hn
    cases hf : s.isFactorSet n with
    | true => exact .inl rfl
    | false =>
      rw [h.isFactorSet_eq] at hf
      exact .inr ((hone n).mp (hall n (Rulebook.mem_resolved.mpr ⟨hn, .inr hf⟩)))
  · intro hall n hn
    obtain ⟨hin, hkept⟩ := Rulebook.mem_resolved.mp hn
    have hf : s.book.isFactors n = false := hkept.resolve_left Bool.false_ne_true
    obtain hset | hc := hall n hin
    · rw [h.isFactorSet_eq, hf] at hset
      cases hset
    · exact (hone n).mpr hc

theorem Sound.ordered_eq (h : s.Sound) : (s.ask fun b => b.ordered).1 =
    (s.book.resolved (fun _ => false) s.book.sortedNames).mapM s.book.combinationAnew :=
  (Rulebook.ordered_answers s.progress h).1

theorem Sound.select_eq [RegexLibrary] (h : s.Sound) (patterns : List String) :
    (s.ask fun b => b.select patterns).1 = (do
      let ps ← patterns.mapM Pattern.parse
      let names ← Pattern.select ps s.book.sortedNames
      (s.book.resolved (fun n => ps.any fun p => p.names n) names).mapM s.book.combinationAnew) :=
  (Rulebook.select_answers patterns s.progress h).1

theorem Sound.exists_resolveAll_iff (h : s.Sound) :
    (∃ u, (s.ask fun b => b.resolveAll).1 = .ok u) ↔ ∀ name, s.book.isRule name →
      s.isFactorSet name ∨ ∃ c, (s.ask fun b => b.resolve name).1 = .ok c := by
  have hanswer : (s.ask fun b => b.resolveAll).1 = _ :=
    (Rulebook.resolveAll_answers s.progress h).1
  rw [hanswer, exists_map_ok_iff, h.exists_mapM_resolved_iff]
  simp only [Rulebook.isRule_iff_mem_ruleNames]

theorem Sound.exists_ordered_iff (h : s.Sound) :
    (∃ cs, (s.ask fun b => b.ordered).1 = .ok cs) ↔ ∀ name, s.book.isRule name →
      s.isFactorSet name ∨ ∃ c, (s.ask fun b => b.resolve name).1 = .ok c := by
  rw [h.ordered_eq, h.exists_mapM_resolved_iff]
  simp only [Rulebook.isRule_iff_mem_ruleNames, Rulebook.sortedNames, List.mem_mergeSort]

theorem Sound.of_ordered (h : s.Sound) {cs : List Combination}
    (hcs : (s.ask fun b => b.ordered).1 = .ok cs) :
    (cs.map (·.name)).Pairwise (· < ·) ∧
    (∀ name, name ∈ cs.map (·.name) ↔ s.book.isRule name ∧ s.isFactorSet name = false) ∧
    ∀ c ∈ cs, (s.ask fun b => b.resolve c.name).1 = .ok c := by
  rw [h.ordered_eq] at hcs
  obtain ⟨hnames, hresolve⟩ := h.of_mapM hcs
  rw [hnames]
  refine ⟨s.book.sortedNames_sorted.filter _, fun name => ?_, hresolve⟩
  rw [Rulebook.mem_resolved, Rulebook.isRule_iff_mem_ruleNames, h.isFactorSet_eq,
    Rulebook.sortedNames, List.mem_mergeSort]
  simp

theorem Sound.of_select [RegexLibrary] (h : s.Sound) {patterns : List String} {cs : List Combination}
    (hcs : (s.ask fun b => b.select patterns).1 = .ok cs) : ∃ ps names,
      patterns.mapM Pattern.parse = .ok ps ∧ Pattern.select ps s.book.sortedNames = .ok names ∧
      cs.map (·.name) = names.filter (fun name => !s.isFactorSet name) ∧
      ∀ c ∈ cs, (s.ask fun b => b.resolve c.name).1 = .ok c := by
  rw [h.select_eq] at hcs
  obtain ⟨ps, hps, hcs⟩ := bind_eq_ok_iff.mp hcs
  obtain ⟨names, hnames, hcs⟩ := bind_eq_ok_iff.mp hcs
  obtain ⟨hsame, hresolve⟩ := h.of_mapM hcs
  refine ⟨ps, names, hps, hnames, ?_, hresolve⟩
  rw [hsame]
  apply List.filter_congr
  intro n hn
  rw [h.isFactorSet_eq]
  cases hf : s.book.isFactors n with
  | false => exact Bool.or_true _
  | true =>
    rw [Bool.not_true, Bool.or_false]
    by_contra hwanted
    -- a set of factors that is selected by name would have failed
    have hkept : n ∈ s.book.resolved (fun n => ps.any fun p => p.names n) names :=
      Rulebook.mem_resolved.mpr ⟨hn, .inl (by simpa using hwanted)⟩
    obtain ⟨c, hc⟩ := mapM_ok_of_mem hcs n hkept
    obtain ⟨k, _, herror⟩ := Rulebook.combinationAnew_of_isFactors
      (Rulebook.isRule_of_select hnames n hn) hf
    rw [herror] at hc
    cases hc

theorem Sound.select_constantTerm [RegexLibrary] (h : s.Sound) {patterns before rest : List String}
    {ps : List Pattern} {name : String} (hps : patterns.mapM Pattern.parse = .ok ps)
    (hnames : Pattern.select ps s.book.sortedNames = .ok (before ++ name :: rest))
    (hwanted : (ps.any fun p => p.names name) = true) (hset : s.isFactorSet name = true)
    (hbefore : ∀ m ∈ before, (∃ c, (s.ask fun b => b.resolve m).1 = .ok c) ∨
      s.isFactorSet m = true ∧ (ps.any fun p => p.names m) = false) :
    ∃ k, (k == 0) = false ∧
      (s.ask fun b => b.select patterns).1 = .error (.constantTerm name k) := by
  rw [h.isFactorSet_eq] at hset
  have hrule := Rulebook.isRule_of_select hnames name (by simp)
  obtain ⟨k, hk, herror⟩ := Rulebook.combinationAnew_of_isFactors hrule hset
  refine ⟨k, hk, ?_⟩
  rw [h.select_eq, hps]
  change (Pattern.select ps s.book.sortedNames >>= _) = _
  rw [hnames]
  apply mapM_error_of_split (Rulebook.resolved_append_cons hwanted before rest) _ herror
  intro m hm
  obtain ⟨hin, hkept⟩ := Rulebook.mem_resolved.mp hm
  obtain ⟨c, hc⟩ | ⟨hf, hn⟩ := hbefore m hin
  · exact ⟨c, (h.resolve_eq m).symm.trans hc⟩
  · rw [h.isFactorSet_eq] at hf
    simp [hf, hn] at hkept

theorem Sound.agrees [RegexLibrary] (h : s.Sound) : s.Agrees where
  ordered_iff := h.exists_ordered_iff.trans h.exists_resolveAll_iff.symm
  resolveAll_iff := h.exists_resolveAll_iff
  ordered _ hcs := h.of_ordered hcs
  select _ _ hcs := h.of_select hcs
  literal _ _ _ _ _ hps hnames hwanted hset hbefore :=
    h.select_constantTerm hps hnames hwanted hset hbefore
  every hempty := by simp only [Rulebook.select_empty_regex hempty]

/-- To open a rule book eagerly is to open it and to resolve all of its rules; it fails as the first
of these does that fails. -/
theorem ofLines_eager (lines baseCases : List String) (limit : Option Nat) :
    (ofLines lines baseCases ⟨limit, true⟩).map (fun _ => ()) =
      ofLines lines baseCases ⟨limit, false⟩ >>= fun s => (s.ask fun b => b.resolveAll).1 := by
  have hbook (rules : List Rule) : Rulebook.ofRules rules baseCases ⟨limit, true⟩ =
      (Rulebook.ofRules rules baseCases ⟨limit, false⟩).map fun b =>
        { b with settings := { b.settings with eager := true } } := by
    unfold Rulebook.ofRules
    split <;> rfl
  unfold ofLines
  cases Rule.parseLines lines with
  | error e => rfl
  | ok rules =>
    change (Rulebook.ofRules rules baseCases ⟨limit, true⟩ >>= ofBook).map _ =
      Rulebook.ofRules rules baseCases ⟨limit, false⟩ >>= ofBook >>= _
    rw [hbook]
    cases hlazy : Rulebook.ofRules rules baseCases ⟨limit, false⟩ with
    | error e => rfl
    | ok book =>
      have hsettings : book.settings.eager = false := by
        unfold Rulebook.ofRules at hlazy
        split at hlazy <;> cases hlazy
        rfl
      have hstart : ofBook book = .ok ⟨book, .start⟩ := by
        rw [ofBook, hsettings]
        rfl
      change (ofBook { book with settings := { book.settings with eager := true } }).map _ =
        ofBook book >>= _
      rw [hstart, ofBook, if_pos rfl, Rulebook.resolveAll_eager]
      change _ = (book.resolveAll.ask .start).1
      rcases book.resolveAll.ask .start with ⟨_ | u, p⟩ <;> rfl

theorem exists_ofLines_eager_iff {lines baseCases : List String} {limit : Option Nat} :
    (∃ s, ofLines lines baseCases ⟨limit, true⟩ = .ok s) ↔
      ∃ s u, ofLines lines baseCases ⟨limit, false⟩ = .ok s ∧
        (s.ask fun b => b.resolveAll).1 = .ok u := by
  rw [← exists_map_ok_iff, ofLines_eager]
  simp only [bind_eq_ok_iff]
  exact exists_comm

/-- All queries for many rules agree with the resolution of each rule, after any calls. Of the sets
of factors, only those that are selected by name are resolved, and fail. -/
theorem queries_agree [RegexLibrary] (lines baseCases : List String) (limit : Option Nat) :
    (∀ eager s, ofLines lines baseCases ⟨limit, eager⟩ = .ok s →
      ∀ calls, (s.after calls).Agrees) ∧
    ((∃ s, ofLines lines baseCases ⟨limit, true⟩ = .ok s) ↔
      ∃ s u, ofLines lines baseCases ⟨limit, false⟩ = .ok s ∧
        (s.ask fun b => b.resolveAll).1 = .ok u) :=
  ⟨fun _ _ h calls => ((sound_of_ofLines h).after calls).agrees, exists_ofLines_eager_iff⟩

attribute [local instance] Regex.library

/-- A set of factors beside a rule with loads: it cannot be selected by name, whatever options are
attached to it. -/
theorem queries_agree_of_factors : ∃ s,
    ofLines ["G = 1.35", "U = 2*g"] ["g"] ⟨none, false⟩ = .ok s ∧
    (s.after [.attach "&G" .empty]).Agrees ∧
    (∃ k, ((s.after [.attach "&G" .empty]).ask fun b => b.select ["G", "U"]).1 =
      .error (.constantTerm "G" k)) ∧
    ((s.after [.attach "&G" .empty]).ask fun b => b.select ["&"]) =
      (s.after [.attach "&G" .empty]).ask fun b => b.ordered := by
  have hrun : (match ofLines ["G = 1.35", "U = 2*g"] ["g"] ⟨none, false⟩ with
      | .error _ => false
      | .ok s => s.book.rules = [⟨"G", "G = 1.35", .number (.number 1.35)⟩,
          ⟨"U", "U = 2*g", .scale (.ref "g") (.number 2)⟩] &&
        (s.after [.attach "&G" .empty]).book.ruleNames = ["G", "U"]) = true := by
    decide +kernel
  cases hs : ofLines ["G = 1.35", "U = 2*g"] ["g"] ⟨none, false⟩ with
  | error e => simp [hs] at hrun
  | ok s =>
    obtain ⟨hrules, hnames⟩ : _ ∧ _ := by
      simpa only [hs, Bool.and_eq_true, decide_eq_true_eq] using hrun
    have hsound := (sound_of_ofLines hs).after [.attach "&G" .empty]
    have hafter := (queries_agree ["G = 1.35", "U = 2*g"] ["g"] none).1 false s hs
      [.attach "&G" .empty]
    have hset : (s.after [.attach "&G" .empty]).isFactorSet "G" = true := by
      have hr : s.book.rule? "G" = some ⟨"G", "G = 1.35", .number (.number 1.35)⟩ := by
        rw [Rulebook.rule?_eq_find?, hrules]
        rfl
      rw [hsound.isFactorSet_eq, Rulebook.isFactors, recompute_after,
        Rulebook.recompute_of_not_mem hr (by simp)]
      change Alternative.isFactorSet (Alternative.distinct [.scalar 1.35]) = true
      rw [Alternative.distinct_eq fun a ha => Alternative.comparable_iff.mp (by
        rw [List.mem_singleton.mp ha]
        decide)]
      decide
    have hchoice : Pattern.select [.literal "G", .literal "U"]
        (s.after [.attach "&G" .empty]).book.sortedNames = .ok ([] ++ "G" :: ["U"]) := by
      rw [Rulebook.sortedNames, hnames, List.mergeSort_of_pairwise (by decide)]
      exact Pattern.select_eq_ok_iff.mpr ⟨by simp, by decide⟩
    obtain ⟨k, _, hk⟩ := hafter.literal ["G", "U"] _ [] "G" ["U"] rfl hchoice rfl hset (by simp)
    exact ⟨s, rfl, hafter, ⟨k, hk⟩, hafter.every Regex.library_findsEmpty⟩

end Session

end DesignLoads
