import DesignLoads.Proofs.Formula.Commutation
import DesignLoads.Proofs.Session.Expansion

/-! Operands in the other order, in a session. A formula with the operands of its outermost operator
in the other order has the same alternatives in another order, and a rule with such a formula has
the same alternatives. -/

namespace DesignLoads

namespace Alternative

/-- Load cases are those of the alternatives, whatever the order of these. -/
theorem loadCases_together {as bs : List Alternative} (rule : String)
    (h : ∀ a, a ∈ as ↔ a ∈ bs) : Together (fun cs ds => ∀ c, c ∈ cs ↔ c ∈ ds)
      (loadCases rule as) (loadCases rule bs) := by
  have hmem (cs : List LoadCase) (c : LoadCase) : c ∈ LoadCase.canonical cs ↔ c ∈ cs := by
    rw [LoadCase.canonical, LoadCase.map_rebuilt]
    exact mem_distinct
  apply Together.intro
  · intro cs hcs
    obtain ⟨hzero, rfl⟩ := loadCases_eq_ok_iff.mp hcs
    refine ⟨_, loadCases_ok fun b hb => hzero b ((h b).mpr hb), fun c => ?_⟩
    rw [hmem, hmem, List.mem_map, List.mem_map]
    simp only [h]
  · intro ds hds
    obtain ⟨hzero, rfl⟩ := loadCases_eq_ok_iff.mp hds
    exact ⟨_, loadCases_ok fun a ha => hzero a ((h a).mp ha)⟩

end Alternative

namespace Rulebook

variable {book book' : Rulebook} {name : String}

/-- The rules of `book'` are those of `book`, but for one name whose formula has the operands of
its outermost operator in the other order. -/
structure Swaps (book book' : Rulebook) (name : String) : Prop where
  rules : book.rules.Forall₂ (fun r r' => r'.name = r.name ∧
    r'.formula = if r.name = name then r.formula.swapped else r.formula) book'.rules
  limit : book'.settings.maxAlternatives = book.settings.maxAlternatives

namespace Swaps

theorem symm (h : book.Swaps book' name) : book'.Swaps book name := by
  refine ⟨(h.rules.imp ?_).flip, h.limit.symm⟩
  rintro r r' ⟨hname, hformula⟩
  refine ⟨hname.symm, ?_⟩
  rw [hformula, hname]
  split
  · exact (Formula.swapped_swapped r.formula).symm
  · rfl

/-- Below the name itself the rules are the same, as what has alternatives there does not reach
back to the name. -/
theorem recompute_below (h : book.Swaps book' name) {stack : List String} (hs : name ∈ stack)
    {n : String} {as : List Alternative} (has : book.recompute stack n = .ok as) :
    book'.recompute stack n = .ok as := by
  induction stack, n using recompute.induct book generalizing as with
  | case1 stack n hr =>
    rw [recompute_of_none hr] at has
    obtain ⟨_, hr'⟩ | ⟨_, _, hrule, _⟩ := rule?_of_forall₂ h.rules n
    · rw [recompute_of_none hr', has]
    · rw [hr] at hrule
      cases hrule
  | case2 stack n rule hr hn =>
    rw [recompute_of_mem hr hn] at has
    cases has
  | case3 stack n rule hr hn ih =>
    obtain ⟨hnone, _⟩ | ⟨_, rule', hrule, hr', hformula⟩ := rule?_of_forall₂ h.rules n
    · rw [hr] at hnone
      cases hnone
    rw [hr] at hrule
    cases hrule
    have hother : ¬ rule.name = name := by
      rw [name_of_rule? hr]
      rintro rfl
      exact hn hs
    rw [if_neg hother] at hformula
    have hnames := (recompute_names hr has).2
    rw [recompute_of_not_mem hr hn] at has
    rw [recompute_of_not_mem hr' hn, hformula, ← has]
    congr 1
    refine Formula.expand_congr h.limit (by rfl)
      (fun stem _ => congrFun (extending_of_forall₂ h.rules) stem) ?_
    intro m hm
    obtain ⟨bs, hbs⟩ := hnames m hm
    exact (ih m (List.mem_cons_of_mem n hs) hbs).trans hbs.symm

theorem exists_recompute (h : book.Swaps book' name) {as : List Alternative}
    (has : book.recompute [] name = .ok as) :
    ∃ bs, book'.recompute [] name = .ok bs ∧ ∀ a, a ∈ as ↔ a ∈ bs := by
  obtain ⟨hr, hr'⟩ | ⟨rule, rule', hr, hr', hformula⟩ := rule?_of_forall₂ h.rules name
  · rw [recompute_of_none hr] at has
    exact ⟨as, (recompute_of_none hr').trans has, fun _ => Iff.rfl⟩
  rw [if_pos (name_of_rule? hr)] at hformula
  rw [recompute_of_not_mem hr (by simp)] at has
  rw [recompute_of_not_mem hr' (by simp), hformula]
  cases he : rule.formula.expand (book.surroundings name (book.recompute [name])) with
  | error e =>
    rw [he] at has
    cases has
  | ok cs =>
    rw [he] at has
    cases has
    have hswap : Together List.Perm (.ok cs) (rule.formula.swapped.expand _) :=
      he ▸ Formula.expand_swapped rule.formula
    obtain ⟨ds, hds, hperm⟩ := hswap.of_ok
    -- the names of the formula have the same alternatives in both books
    have hnew : rule.formula.swapped.expand
        (book'.surroundings name (book'.recompute [name])) = .ok ds := by
      rw [← hds]
      refine Formula.expand_congr h.limit (by rfl)
        (fun stem _ => congrFun (extending_of_forall₂ h.rules) stem) ?_
      intro m hm
      obtain ⟨bs, hbs⟩ := Formula.expand_refers hds m hm
      exact (h.recompute_below List.mem_cons_self hbs).trans hbs.symm
    refine ⟨Alternative.distinct ds, by rw [hnew]; rfl, fun a => ?_⟩
    exact mem_distinct.trans (hperm.mem_iff.trans mem_distinct.symm)

theorem recompute_together (h : book.Swaps book' name) :
    Together (fun as bs => ∀ a, a ∈ as ↔ a ∈ bs) (book.recompute [] name)
      (book'.recompute [] name) := by
  apply Together.intro
  · intro as has
    exact h.exists_recompute has
  · intro bs hbs
    obtain ⟨as, has, _⟩ := h.symm.exists_recompute hbs
    exact ⟨as, has⟩

theorem loadCases_together (h : book.Swaps book' name) :
    Together (fun cs ds => ∀ c, c ∈ cs ↔ c ∈ ds) (book.loadCasesAnew name)
      (book'.loadCasesAnew name) := by
  have hrule : book'.isRule name = book.isRule name := by
    obtain ⟨hr, hr'⟩ | ⟨_, _, hr, hr', _⟩ := rule?_of_forall₂ h.rules name
    · rw [isRule_eq, isRule_eq, hr, hr']
    · rw [isRule_eq, isRule_eq, hr, hr']
      rfl
  rw [loadCasesAnew, loadCasesAnew, hrule]
  split
  · exact h.recompute_together.bind fun as bs hab => Alternative.loadCases_together name hab
  · exact .ok fun _ => Iff.rfl

end Swaps

end Rulebook

namespace Session

variable {s : Session}

/-- The order of two operands does not matter, but for the order of the alternatives. Sums, products
and choices of two formulas in either order succeed together, with the same alternatives in some
other order; zips succeed together with the same alternatives in the same order. And two rules that
differ in the order of the operands of their outermost operator succeed together, with the same
alternatives and with the same load cases. -/
theorem operands_commute [RegexLibrary] {lines baseCases : List String} {settings : Settings}
    (h : ofLines lines baseCases settings = .ok s) (calls : List Call) :
    (∀ rule a b,
      (∀ op ∈ [Formula.sum, .product, .choice], Together List.Perm
        ((s.after calls).expansion rule (op a b)) ((s.after calls).expansion rule (op b a))) ∧
      Together Eq ((s.after calls).expansion rule (.zip a b))
        ((s.after calls).expansion rule (.zip b a))) ∧
    ∀ lines' baseCases' settings' t, ofLines lines' baseCases' settings' = .ok t →
      ∀ name, s.book.Swaps t.book name → ∀ calls',
        Together (fun as bs => ∀ a, a ∈ as ↔ a ∈ bs)
          ((s.after calls).ask fun b => b.alternatives name).1
          ((t.after calls').ask fun b => b.alternatives name).1 ∧
        Together (fun cs ds => ∀ c, c ∈ cs ↔ c ∈ ds)
          (((s.after calls).ask fun b => b.resolve name).1.map (·.alternatives))
          (((t.after calls').ask fun b => b.resolve name).1.map (·.alternatives)) := by
  refine ⟨fun rule a b => ⟨fun op hop => ?_, ?_⟩, ?_⟩
  · rw [expansion_after h, expansion_after h]
    simp only [List.mem_cons, List.not_mem_nil, or_false] at hop
    obtain rfl | rfl | rfl := hop
    · exact Formula.expand_swapped (.sum a b)
    · exact Formula.expand_swapped (.product a b)
    · exact Formula.expand_swapped (.choice a b)
  · rw [expansion_after h, expansion_after h]
    exact Formula.expand_comm rfl rfl Alternative.zips_comm
  · intro lines' baseCases' settings' t ht name hswap calls'
    have hs := (sound_of_ofLines h).after calls
    have ht := (sound_of_ofLines ht).after calls'
    refine ⟨?_, ?_⟩
    · rw [hs.alternatives_eq, ht.alternatives_eq, recompute_after, recompute_after]
      exact hswap.recompute_together
    · rw [hs.alternatives_resolve, ht.alternatives_resolve, loadCasesAnew_after,
        loadCasesAnew_after]
      exact hswap.loadCases_together

attribute [local instance] Regex.library

/-- A load and a choice, some of whose sums cancel out. -/
theorem operands_commute_of_cancellation : ∃ s t,
    ofLines ["U = g + (q | -g)", "V = U & U"] ["g"] ⟨some 4, false⟩ = .ok s ∧
    ofLines ["U = (q | -g) + g", "V = U & U"] [] ⟨some 4, false⟩ = .ok t ∧
    Together List.Perm
      ((s.after [.resolve "V"]).expansion "T" (.product (.ref "U") (.number (.number 2))))
      ((s.after [.resolve "V"]).expansion "T" (.product (.number (.number 2)) (.ref "U"))) ∧
    Together (fun cs ds => ∀ c, c ∈ cs ↔ c ∈ ds)
      (((s.after [.resolve "V"]).ask fun b => b.resolve "U").1.map (·.alternatives))
      (((t.after []).ask fun b => b.resolve "U").1.map (·.alternatives)) := by
  obtain ⟨s, hs, hrules⟩ : ∃ s,
      ofLines ["U = g + (q | -g)", "V = U & U"] ["g"] ⟨some 4, false⟩ = .ok s ∧
      s.book.rules = [⟨"U", "U = g + (q | -g)",
          .sum (.ref "g") (.choice (.ref "q") (.neg (.ref "g")))⟩,
        ⟨"V", "V = U & U", .zip (.ref "U") (.ref "U")⟩] := exists_of_opensWith (by decide +kernel)
  obtain ⟨t, ht, hrules'⟩ : ∃ t,
      ofLines ["U = (q | -g) + g", "V = U & U"] [] ⟨some 4, false⟩ = .ok t ∧
      t.book.rules = [⟨"U", "U = (q | -g) + g",
          .sum (.choice (.ref "q") (.neg (.ref "g"))) (.ref "g")⟩,
        ⟨"V", "V = U & U", .zip (.ref "U") (.ref "U")⟩] := exists_of_opensWith (by decide +kernel)
  have hswap : s.book.Swaps t.book "U" := by
    refine ⟨?_, by rw [(opened hs).settings, (opened ht).settings]⟩
    rw [hrules, hrules']
    exact .cons ⟨rfl, rfl⟩ (.cons ⟨rfl, rfl⟩ .nil)
  obtain ⟨hformulas, hbooks⟩ := operands_commute hs [.resolve "V"]
  exact ⟨s, t, hs, ht, (hformulas "T" _ _).1 _ (by simp), (hbooks _ _ _ t ht "U" hswap []).2⟩

end Session

end DesignLoads
