import DesignLoads.Proofs.Session.Expansion

/-! Families. A family stands for the choice between its members, in the order of their lines: to
write the choice in its place changes no alternatives and no failure. A family without members has
no alternatives. -/

namespace DesignLoads

namespace Alternative

variable {limit : Option Nat} {rule : String} {as : List Alternative}

theorem sums_nil_left (as : List Alternative) : sums limit [] as = .ok [] := by
  rw [sums, List.length_nil, Nat.zero_mul]
  cases limit <;> rfl

theorem sums_nil_right (as : List Alternative) : sums limit as [] = .ok [] := by
  have hpairs : pairs as ([] : List Alternative) = [] := by simp [pairs]
  rw [sums, hpairs, List.length_nil, Nat.mul_zero]
  cases limit <;> rfl

theorem products_nil_left (as : List Alternative) : products limit rule [] as = .ok [] := by
  rw [products, List.length_nil, Nat.zero_mul]
  cases limit <;> rfl

theorem products_nil_right (as : List Alternative) : products limit rule as [] = .ok [] := by
  have hpairs : pairs as ([] : List Alternative) = [] := by simp [pairs]
  rw [products, hpairs, List.length_nil, Nat.mul_zero]
  cases limit <;> rfl

theorem choices_nil_left (h : checkCount limit as.length = .ok ()) :
    choices limit [] as = .ok as := by
  rw [choices, List.length_nil, Nat.zero_add, h]
  rfl

theorem choices_nil_right (h : checkCount limit as.length = .ok ()) :
    choices limit as [] = .ok as := by
  rw [choices, List.length_nil, Nat.add_zero, h, List.append_nil]
  rfl

end Alternative

namespace Formula

/-- The choice between names, of which `n` is the first. -/
def anyOf (n : String) (ns : List String) : Formula := (ns.map ref).foldl choice (ref n)

/-- A formula, and the formula with the choice between its members in place of some families that
have members. -/
inductive Unfolds (members : String → List String) : Formula → Formula → Prop
  | refl (f : Formula) : Unfolds members f f
  | family {stem n : String} {ns : List String} (h : members stem = n :: ns) :
      Unfolds members (family stem) (anyOf n ns)
  | scale {a a' : Formula} (f : Factor) (ha : Unfolds members a a') :
      Unfolds members (scale a f) (scale a' f)
  | neg {a a' : Formula} (ha : Unfolds members a a') : Unfolds members (neg a) (neg a')
  | sum {a a' b b' : Formula} (ha : Unfolds members a a') (hb : Unfolds members b b') :
      Unfolds members (sum a b) (sum a' b')
  | product {a a' b b' : Formula} (ha : Unfolds members a a') (hb : Unfolds members b b') :
      Unfolds members (product a b) (product a' b')
  | zip {a a' b b' : Formula} (ha : Unfolds members a a') (hb : Unfolds members b b') :
      Unfolds members (zip a b) (zip a' b')
  | choice {a a' b b' : Formula} (ha : Unfolds members a a') (hb : Unfolds members b b') :
      Unfolds members (choice a b) (choice a' b')

variable {env : Surroundings (Except Failure)}

/-- A choice onto which names are added one by one goes on as a list of names does. -/
theorem expand_foldl_choice (ns : List String) (f : Formula) :
    ((ns.map ref).foldl choice f).expand env =
      f.expand env >>= fun before => expandNames env before ns := by
  induction ns generalizing f with
  | nil => exact (bind_pure (f.expand env)).symm
  | cons n ns ih =>
    rw [List.map_cons, List.foldl_cons, ih, expand]
    simp only [bind_assoc, expandNames]
    rfl

/-- The first name of a family passes a check that the choice between names does not make. -/
theorem expand_anyOf {n : String} (ns : List String)
    (hcount : ∀ as, env.refer n = .ok as → Alternative.checkCount env.limit as.length = .ok ()) :
    (anyOf n ns).expand env = expandNames env [] (n :: ns) := by
  rw [anyOf, expand_foldl_choice, expand, expandNames]
  cases hn : env.refer n with
  | error e => rfl
  | ok as =>
    change expandNames env as ns =
      liftExcept (Alternative.choices env.limit [] as) >>= fun all => expandNames env all ns
    rw [Alternative.choices_nil_left (hcount as hn)]
    rfl

/-- To write out families makes no difference if the alternatives of every name pass the check. -/
theorem Unfolds.expand {f g : Formula} (h : Unfolds env.family f g)
    (hcount : ∀ n as, env.refer n = .ok as →
      Alternative.checkCount env.limit as.length = .ok ()) : g.expand env = f.expand env := by
  induction h with
  | refl f => rfl
  | family h =>
    rw [expand_anyOf _ (hcount _), Formula.expand, h]
  | scale f _ ih | neg _ ih => simp only [Formula.expand, ih]
  | sum _ _ iha ihb | product _ _ iha ihb | zip _ _ iha ihb | choice _ _ iha ihb =>
    simp only [Formula.expand, iha, ihb]

/-- What the operators give when one of their operands, `e`, has no alternatives. -/
structure Void (expand : Formula → Except Failure (List Alternative)) (e f : Formula) : Prop where
  nil : expand e = .ok []
  sum_left : expand (sum e f) = (expand f).map fun _ => []
  sum_right : expand (sum f e) = (expand f).map fun _ => []
  product_left : expand (product e f) = (expand f).map fun _ => []
  product_right : expand (product f e) = (expand f).map fun _ => []
  zip_left : ∀ a, expand f = .ok [a] → expand (zip e f) = .ok []
  zip_right : ∀ a, expand f = .ok [a] → expand (zip f e) = .ok []
  choice_left : expand (choice e f) = expand f
  choice_right : expand (choice f e) = expand f

theorem void_of_nil {e f : Formula} (he : e.expand env = .ok [])
    (hcount : ∀ as, f.expand env = .ok as →
      Alternative.checkCount env.limit as.length = .ok ()) : Void (·.expand env) e f where
  nil := he
  sum_left := expand_of_left rfl he fun as _ => Alternative.sums_nil_left as
  sum_right := expand_of_right rfl he fun as _ => Alternative.sums_nil_right as
  product_left := expand_of_left rfl he fun as _ => Alternative.products_nil_left as
  product_right := expand_of_right rfl he fun as _ => Alternative.products_nil_right as
  zip_left := by
    intro a ha
    rw [expand, he, ha]
    rfl
  zip_right := by
    intro a ha
    rw [expand, he, ha]
    rfl
  choice_left := by
    have hall := expand_of_left (f := choice e f) (k := id) rfl he fun as has =>
      Alternative.choices_nil_left (hcount as has)
    rwa [Except.map_id] at hall
  choice_right := by
    have hall := expand_of_right (f := choice f e) (k := id) rfl he fun as has =>
      Alternative.choices_nil_right (hcount as has)
    rwa [Except.map_id] at hall

end Formula

namespace Rulebook

variable {book book' : Rulebook} {name : String}

/-- The rules of `book'` are those of `book`, with the choice between its members in place of some
families. -/
structure Unfolds (book book' : Rulebook) : Prop where
  rules : book.rules.Forall₂ (fun r r' => r'.name = r.name ∧
    r.formula.Unfolds book.extending r'.formula) book'.rules
  limit : book'.settings.maxAlternatives = book.settings.maxAlternatives

theorem Unfolds.extending (h : book.Unfolds book') : book'.extending = book.extending :=
  extending_of_forall₂ h.rules

theorem Unfolds.rule?_cases (h : book.Unfolds book') (name : String) :
    (book.rule? name = none ∧ book'.rule? name = none) ∨
    ∃ rule rule', book.rule? name = some rule ∧ book'.rule? name = some rule' ∧
      rule.formula.Unfolds book.extending rule'.formula :=
  rule?_of_forall₂ h.rules name

/-- To write out families does not change what a name stands for, nor how it fails. -/
theorem Unfolds.recompute (h : book.Unfolds book')
    (hlimit : ∀ l, book.settings.maxAlternatives = some l → 1 ≤ l) (stack : List String)
    (name : String) : book'.recompute stack name = book.recompute stack name := by
  induction stack, name using recompute.induct book with
  | case1 stack name hr =>
    obtain ⟨_, hr'⟩ | ⟨rule, _, hrule, _⟩ := h.rule?_cases name
    · rw [recompute_of_none hr, recompute_of_none hr']
    · rw [hr] at hrule
      cases hrule
  | case2 stack name rule hr hs =>
    obtain ⟨hnone, _⟩ | ⟨_, rule', _, hr', _⟩ := h.rule?_cases name
    · rw [hr] at hnone
      cases hnone
    · rw [recompute_of_mem hr hs, recompute_of_mem hr' hs]
  | case3 stack name rule hr hs ih =>
    obtain ⟨hnone, _⟩ | ⟨_, rule', hrule, hr', hf⟩ := h.rule?_cases name
    · rw [hr] at hnone
      cases hnone
    · rw [hr] at hrule
      cases hrule
      rw [recompute_of_not_mem hr hs, recompute_of_not_mem hr' hs]
      congr 1
      -- the names of the new formula mean what they did; then its choices are families again
      have hnew : rule'.formula.expand
          (book'.surroundings name (book'.recompute (name :: stack))) =
          rule'.formula.expand (book.surroundings name (book.recompute (name :: stack))) :=
        Formula.expand_congr h.limit (by rfl) (fun stem _ => congrFun h.extending stem)
          fun n _ => ih n
      rw [hnew]
      exact hf.expand fun n as has => checkCount_expand (f := .ref n) hlimit has

end Rulebook

namespace Session

variable {s : Session}

/-- A family is the choice it stands for. With a limit of one or more, or none, a formula has the
alternatives, or fails with the failure, that it has with choices in place of families, and that it
has in a book with choices in place of families in its rules; and a rule of such a book resolves to
the same. A family without members has no alternatives, and leaves none in a sum, in a product or in
a zip with a single one. -/
theorem expansion_unfolds [RegexLibrary] {lines baseCases : List String} {settings : Settings}
    (h : ofLines lines baseCases settings = .ok s)
    (hlimit : ∀ l, settings.maxAlternatives = some l → 1 ≤ l) (calls : List Call) :
    (∀ rule f g, f.Unfolds s.book.extending g →
      (s.after calls).expansion rule g = (s.after calls).expansion rule f) ∧
    (∀ lines' baseCases' settings' t, ofLines lines' baseCases' settings' = .ok t →
      s.book.Unfolds t.book → ∀ calls',
      (∀ rule f g, f.Unfolds s.book.extending g →
        (t.after calls').expansion rule g = (s.after calls).expansion rule f) ∧
      ∀ name, ((t.after calls').ask fun b => b.resolve name).1.map (·.alternatives) =
        ((s.after calls).ask fun b => b.resolve name).1.map (·.alternatives)) ∧
    ∀ stem, s.book.extending stem = [] → ∀ rule f,
      Formula.Void ((s.after calls).expansion rule) (.family stem) f := by
  have hbook : ∀ l, s.book.settings.maxAlternatives = some l → 1 ≤ l := by
    rwa [(opened h).settings]
  have hunfold (rule : String) {f g : Formula} (hfg : f.Unfolds s.book.extending g) :
      g.expand (s.book.surroundings rule (s.book.recompute [])) =
        f.expand (s.book.surroundings rule (s.book.recompute [])) :=
    hfg.expand fun n as has => Rulebook.checkCount_expand (f := .ref n) hbook has
  refine ⟨?_, ?_, ?_⟩
  · intro rule f g hfg
    rw [expansion_after h, expansion_after h, hunfold rule hfg]
  · intro lines' baseCases' settings' t ht hst calls'
    have hnew : t.book.recompute [] = s.book.recompute [] := funext (hst.recompute hbook [])
    refine ⟨?_, ?_⟩
    · intro rule f g hfg
      rw [expansion_after ht, expansion_after h, ← hunfold rule hfg, hnew]
      exact Formula.expand_congr hst.limit (by rfl) (fun stem _ => congrFun hst.extending stem)
        fun _ _ => rfl
    · intro name
      have hrule : t.book.isRule name = s.book.isRule name := by
        obtain ⟨hr, hr'⟩ | ⟨_, _, hr, hr', _⟩ := hst.rule?_cases name
        · rw [Rulebook.isRule_eq, hr', Rulebook.isRule_eq, hr]
        · rw [Rulebook.isRule_eq, hr', Rulebook.isRule_eq, hr]
          rfl
      rw [((sound_of_ofLines ht).after calls').alternatives_resolve, loadCasesAnew_after,
        ((sound_of_ofLines h).after calls).alternatives_resolve, loadCasesAnew_after,
        Rulebook.loadCasesAnew, Rulebook.loadCasesAnew, hrule, hnew]
  · intro stem hnone rule f
    have hexp : (s.after calls).expansion rule =
        (·.expand (s.book.surroundings rule (s.book.recompute []))) :=
      funext (expansion_after h calls rule)
    rw [hexp]
    apply Formula.void_of_nil
    · have hmembers : (s.book.surroundings rule (s.book.recompute [])).family stem = [] := hnone
      rw [Formula.expand, hmembers]
      rfl
    · exact fun as has => Rulebook.checkCount_expand hbook has

attribute [local instance] Regex.library

/-- A family with a member that leads back to it, and the same with the choice in its place. -/
theorem expansion_unfolds_of_circle : ∃ s t,
    ofLines ["w1 = q | a", "w2 = U", "U = g + w$"] ["g"] ⟨some 3, false⟩ = .ok s ∧
    ofLines ["w1 = q | a", "w2 = U", "U = g + (w1 | w2)"] [] ⟨some 3, false⟩ = .ok t ∧
    ((t.after [.ordered]).ask fun b => b.resolve "U").1.map (·.alternatives) =
      ((s.after [.resolve "w1"]).ask fun b => b.resolve "U").1.map (·.alternatives) ∧
    (s.after [.resolve "w1"]).expansion "T" (.sum (.ref "g") (.choice (.ref "w1") (.ref "w2"))) =
      (s.after [.resolve "w1"]).expansion "T" (.sum (.ref "g") (.family "w")) ∧
    Formula.Void ((s.after [.resolve "w1"]).expansion "T") (.family "z") (.ref "w1") := by
  obtain ⟨s, hs, hrules⟩ : ∃ s,
      ofLines ["w1 = q | a", "w2 = U", "U = g + w$"] ["g"] ⟨some 3, false⟩ = .ok s ∧
      s.book.rules = [⟨"w1", "w1 = q | a", .choice (.ref "q") (.ref "a")⟩,
        ⟨"w2", "w2 = U", .ref "U"⟩, ⟨"U", "U = g + w$", .sum (.ref "g") (.family "w")⟩] :=
    exists_of_opensWith (by decide +kernel)
  obtain ⟨t, ht, hrules'⟩ : ∃ t,
      ofLines ["w1 = q | a", "w2 = U", "U = g + (w1 | w2)"] [] ⟨some 3, false⟩ = .ok t ∧
      t.book.rules = [⟨"w1", "w1 = q | a", .choice (.ref "q") (.ref "a")⟩,
        ⟨"w2", "w2 = U", .ref "U"⟩,
        ⟨"U", "U = g + (w1 | w2)", .sum (.ref "g") (.choice (.ref "w1") (.ref "w2"))⟩] :=
    exists_of_opensWith (by decide +kernel)
  have hmembers : s.book.extending "w" = ["w1", "w2"] ∧ s.book.extending "z" = [] := by
    rw [Rulebook.extending, Rulebook.extending, Rulebook.ruleNames, hrules]
    decide
  have hformula : (Formula.sum (.ref "g") (.family "w")).Unfolds s.book.extending
      (.sum (.ref "g") (.choice (.ref "w1") (.ref "w2"))) :=
    .sum (.refl _) (.family hmembers.1)
  have hst : s.book.Unfolds t.book := by
    refine ⟨?_, by rw [(opened hs).settings, (opened ht).settings]⟩
    rw [hrules, hrules']
    exact .cons ⟨rfl, .refl _⟩ (.cons ⟨rfl, .refl _⟩ (.cons ⟨rfl, hformula⟩ .nil))
  have hlimit : ∀ l, (some 3 : Option Nat) = some l → 1 ≤ l := by
    rintro l ⟨⟩
    decide
  obtain ⟨hformulas, hbooks, hvoid⟩ := expansion_unfolds hs hlimit [.resolve "w1"]
  exact ⟨s, t, hs, ht, (hbooks _ _ _ t ht hst [.ordered]).2 "U", hformulas "T" _ _ hformula,
    hvoid "z" hmembers.2 "T" (.ref "w1")⟩

end Session

end DesignLoads
