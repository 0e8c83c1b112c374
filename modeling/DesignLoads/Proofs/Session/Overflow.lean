import DesignLoads.Proofs.Finiteness
import DesignLoads.Proofs.Rulebook.Limits
import DesignLoads.Proofs.Session.Expansion

/-! Overflow in a session. Only the value of a factor is checked to be finite: where finite loads are
scaled, multiplied or added, the result may be infinite. As long as no part of a rule overflows in
this way, all its coefficients are finite; and an overflow shows in the coefficients, unless the
alternatives with it are lost. -/

namespace DesignLoads

/-- Every alternative is finite, if there are any. -/
def FiniteResult (x : Except Failure (List Alternative)) : Prop :=
  ∀ as, x = .ok as → ∀ a ∈ as, a.Finite

theorem finiteResult_of_ok {x : Except Failure (List Alternative)} {as : List Alternative}
    (h : x = .ok as) (has : ∀ a ∈ as, a.Finite) : FiniteResult x := by
  intro bs hbs
  rw [h] at hbs
  cases hbs
  exact has

namespace Alternative

variable {limit : Option Nat} {rule : String} {as bs cs : List Alternative}

theorem finite_of_map_scaled {k : Float} (h : ∀ a ∈ as.map (·.scaled k), a.Finite) :
    ∀ a ∈ as, a.Finite :=
  fun _ ha => (h _ (List.mem_map_of_mem ha)).of_scaled.1

theorem finite_of_pairs (hleft : as ≠ []) (hright : bs ≠ [])
    (h : ∀ a ∈ as, ∀ b ∈ bs, a.Finite ∧ b.Finite) :
    (∀ a ∈ as, a.Finite) ∧ ∀ b ∈ bs, b.Finite := by
  obtain ⟨a, ha⟩ := List.exists_mem_of_ne_nil as hleft
  obtain ⟨b, hb⟩ := List.exists_mem_of_ne_nil bs hright
  exact ⟨fun a ha => (h a ha b hb).1, fun b hb => (h a ha b hb).2⟩

theorem finite_of_sums (hleft : as ≠ []) (hright : bs ≠ []) (h : sums limit as bs = .ok cs)
    (hc : ∀ c ∈ cs, c.Finite) : (∀ a ∈ as, a.Finite) ∧ ∀ b ∈ bs, b.Finite := by
  obtain ⟨_, _, h⟩ := bind_eq_ok_iff.mp h
  cases h
  apply finite_of_pairs hleft hright
  intro a ha b hb
  exact (hc _ (List.mem_map_of_mem (mem_pairs.mpr ⟨ha, hb⟩))).of_merged

theorem finite_of_products (hleft : as ≠ []) (hright : bs ≠ [])
    (h : products limit rule as bs = .ok cs) (hc : ∀ c ∈ cs, c.Finite) :
    (∀ a ∈ as, a.Finite) ∧ ∀ b ∈ bs, b.Finite := by
  obtain ⟨_, _, h⟩ := bind_eq_ok_iff.mp h
  apply finite_of_pairs hleft hright
  intro a ha b hb
  have hmem : productOf rule (a, b) ∈ cs.map .ok :=
    mapM_eq_ok_iff.mp h ▸ List.mem_map_of_mem (mem_pairs.mpr ⟨ha, hb⟩)
  obtain ⟨p, hp, hproduct⟩ := List.mem_map.mp hmem
  unfold productOf at hproduct
  split at hproduct
  · rename_i q hq
    cases hproduct
    exact (hc p hp).of_product hq
  · cases hproduct

theorem finite_of_zips (hleft : as ≠ []) (hright : bs ≠ []) (h : zips as bs = .ok cs)
    (hc : ∀ c ∈ cs, c.Finite) : (∀ a ∈ as, a.Finite) ∧ ∀ b ∈ bs, b.Finite := by
  obtain ⟨hlen, rfl⟩ | ⟨_, a, rfl, rfl⟩ | ⟨_, _, b, rfl, rfl⟩ := zips_cases h
  · rw [← List.map_uncurry_zip_eq_zipWith] at hc
    have hpair : ∀ x ∈ as.zip bs, x.1.Finite ∧ x.2.Finite :=
      fun x hx => (hc _ (List.mem_map_of_mem hx)).of_merged
    constructor
    · intro a ha
      rw [← List.map_fst_zip hlen.le] at ha
      obtain ⟨x, hx, rfl⟩ := List.mem_map.mp ha
      exact (hpair x hx).1
    · intro b hb
      rw [← List.map_snd_zip hlen.ge] at hb
      obtain ⟨x, hx, rfl⟩ := List.mem_map.mp hb
      exact (hpair x hx).2
  · apply finite_of_pairs hleft hright
    intro d hd b hb
    rw [List.mem_singleton.mp hd]
    exact (hc _ (List.mem_map_of_mem hb)).of_merged
  · apply finite_of_pairs hleft hright
    intro a ha d hd
    rw [List.mem_singleton.mp hd]
    exact (hc _ (List.mem_map_of_mem (f := (merged · b)) ha)).of_merged

theorem finite_of_choices (h : choices limit as bs = .ok cs) (hc : ∀ c ∈ cs, c.Finite) :
    (∀ a ∈ as, a.Finite) ∧ ∀ b ∈ bs, b.Finite := by
  obtain ⟨_, _, h⟩ := bind_eq_ok_iff.mp h
  cases h
  exact List.forall_mem_append.mp hc

end Alternative

namespace Formula

/-- The formulas that a part calculates with: what is scaled, added or multiplied. -/
def arguments : Formula → List Formula
  | scale a _ => [a]
  | sum a b | product a b | zip a b => [a, b]
  | _ => []

/-- A part that calculates something which is not finite, with arguments that are. -/
def Overflows (expand : Formula → Except Failure (List Alternative)) (g : Formula) : Prop :=
  g.arguments ≠ [] ∧ (∀ a ∈ g.arguments, FiniteResult (expand a)) ∧ ¬ FiniteResult (expand g)

variable {env : Surroundings (Except Failure)} {f : Formula} {as : List Alternative}

theorem Overflows.finite {expand : Formula → Except Failure (List Alternative)} {g : Formula}
    (h : ¬ g.Overflows expand) (hne : g.arguments ≠ [])
    (hargs : ∀ a ∈ g.arguments, FiniteResult (expand a)) : FiniteResult (expand g) := by
  by_contra hg
  exact h ⟨hne, hargs, hg⟩

/-- Without an overflow, a formula of finite names is finite. -/
theorem expand_finite (hrefer : ∀ n ∈ f.names env.family, FiniteResult (env.refer n))
    (hparts : ∀ g ∈ f.parts, ¬ g.Overflows (expand env)) : FiniteResult (f.expand env) := by
  have hself := hparts f f.self_mem_parts
  induction f using operand_induction with
  | ref name => exact hrefer name (List.mem_singleton.mpr rfl)
  | family stem => exact fun as has => expandNames_forall (by simp) hrefer has
  | number f =>
    intro as has
    obtain ⟨x, hx, has⟩ := bind_eq_ok_iff.mp has
    rw [liftExcept_eq_self] at hx
    cases has
    exact List.forall_mem_singleton.mpr (Alternative.finite_scalar (Factor.isFinite_value hx))
  | scale a f ih =>
    have hinner := fun g hg => hparts g (List.mem_cons_of_mem _ hg)
    have ha := ih hrefer hinner (hinner a a.self_mem_parts)
    exact Overflows.finite hself (List.cons_ne_nil _ _) (List.forall_mem_singleton.mpr ha)
  | neg a ih =>
    have hinner := fun g hg => hparts g (List.mem_cons_of_mem _ hg)
    have ha := ih hrefer hinner (hinner a a.self_mem_parts)
    intro as has
    obtain ⟨bs, hbs, has⟩ := bind_eq_ok_iff.mp has
    cases has
    exact List.forall_mem_map.mpr fun b hb => (ha bs hbs b hb).opposite
  | binary f a b hab iha ihb =>
    rw [names_of_operands _ hab] at hrefer
    rw [parts_of_operands hab] at hparts
    have hleft := fun g hg => hparts g (List.mem_cons_of_mem _ (List.mem_append_left _ hg))
    have hright := fun g hg => hparts g (List.mem_cons_of_mem _ (List.mem_append_right _ hg))
    have ha := iha (fun n hn => hrefer n (List.mem_append_left _ hn)) hleft
      (hleft a a.self_mem_parts)
    have hb := ihb (fun n hn => hrefer n (List.mem_append_right _ hn)) hright
      (hright b b.self_mem_parts)
    have hargs : ∀ g ∈ [a, b], FiniteResult (g.expand env) :=
      List.forall_mem_cons.mpr ⟨ha, List.forall_mem_singleton.mpr hb⟩
    cases f with
    | sum | product | zip =>
      cases hab
      exact Overflows.finite hself (List.cons_ne_nil _ _) hargs
    | choice =>
      -- a choice calculates nothing
      cases hab
      intro as has
      obtain ⟨bs, hbs, has⟩ := bind_eq_ok_iff.mp has
      obtain ⟨cs, hcs, has⟩ := bind_eq_ok_iff.mp has
      rw [liftExcept_eq_self] at has
      exact Alternative.forall_choices (ha bs hbs) (hb cs hcs) has
    | _ => cases hab

theorem finite_of_combine {f a b : Formula} (hab : f.operands = some (a, b)) {limit : Option Nat}
    {rule : String} {as bs cs : List Alternative} (hleft : as ≠ []) (hright : bs ≠ [])
    (h : f.combine limit rule as bs = .ok cs) (hc : ∀ c ∈ cs, c.Finite) :
    (∀ a ∈ as, a.Finite) ∧ ∀ b ∈ bs, b.Finite := by
  cases f with
  | sum => exact Alternative.finite_of_sums hleft hright h hc
  | product => exact Alternative.finite_of_products hleft hright h hc
  | zip => exact Alternative.finite_of_zips hleft hright h hc
  | choice => exact Alternative.finite_of_choices h hc
  | _ => cases hab

theorem finite_of_expandNames {names : List String} {before : List Alternative}
    (h : expandNames env before names = .ok as) (has : ∀ a ∈ as, a.Finite) :
    (∀ a ∈ before, a.Finite) ∧ ∀ n ∈ names, FiniteResult (env.refer n) := by
  induction names generalizing before with
  | nil =>
    cases h
    exact ⟨has, by simp⟩
  | cons n ns ih =>
    obtain ⟨next, hn, h⟩ := bind_eq_ok_iff.mp h
    obtain ⟨all, hall, h⟩ := bind_eq_ok_iff.mp h
    rw [liftExcept_eq_self] at hall
    obtain ⟨hfirst, hrest⟩ := ih h
    obtain ⟨hbefore, hnext⟩ := Alternative.finite_of_choices hall hfirst
    exact ⟨hbefore, List.forall_mem_cons.mpr ⟨finiteResult_of_ok hn hnext, hrest⟩⟩

/-- If every part of a formula has alternatives, nothing that is not finite is lost. -/
theorem expand_finite_parts (hsome : ∀ g ∈ f.parts, g.expand env ≠ .ok [])
    (h : f.expand env = .ok as) (has : ∀ a ∈ as, a.Finite) :
    (∀ g ∈ f.parts, FiniteResult (g.expand env)) ∧
      ∀ n ∈ f.names env.family, FiniteResult (env.refer n) := by
  have hself := finiteResult_of_ok h has
  induction f using operand_induction generalizing as with
  | ref name => exact ⟨List.forall_mem_singleton.mpr hself, List.forall_mem_singleton.mpr hself⟩
  | family stem => exact ⟨List.forall_mem_singleton.mpr hself, (finite_of_expandNames h has).2⟩
  | number f => exact ⟨List.forall_mem_singleton.mpr hself, by simp [names]⟩
  | scale a f ih =>
    obtain ⟨x, _, h⟩ := bind_eq_ok_iff.mp h
    obtain ⟨bs, hbs, h⟩ := bind_eq_ok_iff.mp h
    cases h
    have hb : ∀ b ∈ bs, b.Finite := Alternative.finite_of_map_scaled has
    obtain ⟨hparts, hnames⟩ := ih (fun g hg => hsome g (List.mem_cons_of_mem _ hg)) hbs hb
      (finiteResult_of_ok hbs hb)
    exact ⟨List.forall_mem_cons.mpr ⟨hself, hparts⟩, hnames⟩
  | neg a ih =>
    obtain ⟨bs, hbs, h⟩ := bind_eq_ok_iff.mp h
    cases h
    have hb : ∀ b ∈ bs, b.Finite := Alternative.finite_of_map_scaled has
    obtain ⟨hparts, hnames⟩ := ih (fun g hg => hsome g (List.mem_cons_of_mem _ hg)) hbs hb
      (finiteResult_of_ok hbs hb)
    exact ⟨List.forall_mem_cons.mpr ⟨hself, hparts⟩, hnames⟩
  | binary f a b hab iha ihb =>
    rw [parts_of_operands hab] at hsome ⊢
    rw [names_of_operands _ hab]
    rw [expand_of_operands _ hab] at h
    obtain ⟨bs, hbs, h⟩ := bind_eq_ok_iff.mp h
    obtain ⟨cs, hcs, h⟩ := bind_eq_ok_iff.mp h
    rw [liftExcept_eq_self] at h
    have hleft := fun g hg => hsome g (List.mem_cons_of_mem _ (List.mem_append_left _ hg))
    have hright := fun g hg => hsome g (List.mem_cons_of_mem _ (List.mem_append_right _ hg))
    have hbne : bs ≠ [] := by
      rintro rfl
      exact hleft a a.self_mem_parts hbs
    have hcne : cs ≠ [] := by
      rintro rfl
      exact hright b b.self_mem_parts hcs
    obtain ⟨hb, hc⟩ := finite_of_combine hab hbne hcne h has
    obtain ⟨hparts, hnames⟩ := iha hleft hbs hb (finiteResult_of_ok hbs hb)
    obtain ⟨hparts', hnames'⟩ := ihb hright hcs hc (finiteResult_of_ok hcs hc)
    exact ⟨List.forall_mem_cons.mpr ⟨hself, List.forall_mem_append.mpr ⟨hparts, hparts'⟩⟩,
      List.forall_mem_append.mpr ⟨hnames, hnames'⟩⟩

end Formula

namespace Rulebook

variable {book : Rulebook} {stack : List String} {name : String} {rule : Rule}

/-- What holds of every part of the formulas of the rules that a name reaches, together with the
name of the rule. -/
def Throughout (book : Rulebook) (name : String) (P : String → Formula → Prop) : Prop :=
  ∀ r rule, book.Reaches name r → book.rule? r = some rule → ∀ g ∈ rule.formula.parts, P r g

theorem Throughout.of_mem {P : String → Formula → Prop} (h : book.Throughout name P)
    (hr : book.rule? name = some rule) {n : String} (hn : n ∈ rule.formula.names book.extending) :
    book.Throughout n P := by
  intro r below hreach hbelow
  have hrule : book.isRule r := isRule_iff.mpr ⟨below, hbelow⟩
  exact h r below (hreach.head_of_mem hr hn hrule) hbelow

/-- A name without a rule reaches no parts. -/
theorem throughout_of_none {P : String → Formula → Prop} (h : book.rule? name = none) :
    book.Throughout name P := by
  intro r rule hreach hr
  have hname : book.isRule name := hreach.isRule (isRule_iff.mpr ⟨rule, hr⟩)
  rw [isRule_eq, h] at hname
  cases hname

/-- Without an overflow in the rules that a name reaches, its alternatives are finite. -/
theorem recompute_finite (hparts : book.Throughout name fun r g =>
      ¬ g.Overflows (Formula.expand (book.surroundings r (book.recompute [])))) :
    FiniteResult (book.recompute stack name) := by
  intro as has
  induction stack, name using recompute.induct book generalizing as with
  | case1 stack name hr =>
    rw [recompute_of_none hr] at has
    cases has
    exact List.forall_mem_singleton.mpr (Alternative.finite_atomic name)
  | case2 stack name rule hr hs =>
    rw [recompute_of_mem hr hs] at has
    cases has
  | case3 stack name rule hr hs ih =>
    obtain ⟨bs, hstack, hbs, rfl⟩ := expand_of_recompute hr has
    have hrefer : ∀ n ∈ rule.formula.names book.extending,
        FiniteResult (book.recompute [] n) := by
      intro n hn
      obtain ⟨cs, hcs⟩ := Formula.expand_refers hstack n hn
      -- the name has the same alternatives whatever is being resolved
      exact finiteResult_of_ok (recompute_of_clear hcs (by simp)) (ih n (hparts.of_mem hr hn) cs hcs)
    have hfin := Formula.expand_finite hrefer (hparts name rule Relation.ReflTransGen.refl hr)
    intro a ha
    exact hfin bs hbs a (mem_distinct.mp ha)

/-- If every part of the rules that a name with finite alternatives reaches has alternatives, then
all of these are finite. -/
theorem recompute_finite_parts (hsome : book.Throughout name fun r g =>
      g.expand (book.surroundings r (book.recompute [])) ≠ .ok [])
    {as : List Alternative} (h : book.recompute [] name = .ok as) (has : ∀ a ∈ as, a.Finite) :
    book.Throughout name fun r g =>
      FiniteResult (g.expand (book.surroundings r (book.recompute []))) := by
  intro r rule hreach hr
  induction hreach using Relation.ReflTransGen.head_induction_on generalizing as with
  | refl =>
    obtain ⟨bs, _, hbs, rfl⟩ := expand_of_recompute hr h
    exact (Formula.expand_finite_parts (hsome r rule Relation.ReflTransGen.refl hr) hbs
      fun b hb => has b (mem_distinct.mpr hb)).1
  | @head m n hstep hrest ih =>
    obtain ⟨above, habove, _, hn⟩ := refers_iff.mp hstep
    obtain ⟨bs, _, hbs, rfl⟩ := expand_of_recompute habove h
    obtain ⟨cs, hcs⟩ := Formula.expand_refers hbs n hn
    have hnames := (Formula.expand_finite_parts
      (hsome m above Relation.ReflTransGen.refl habove) hbs
      fun b hb => has b (mem_distinct.mpr hb)).2
    exact ih (hsome.of_mem habove hn) hcs (hnames n hn cs hcs)

/-- Load cases that are taken are finite if the alternatives are, as these have no number left. -/
theorem finite_loadCases_iff {as : List Alternative} {cases : List LoadCase}
    (h : Alternative.loadCases name as = .ok cases) :
    (∀ c ∈ cases, c.Finite) ↔ ∀ a ∈ as, a.Finite := by
  obtain ⟨hzero, rfl⟩ := Alternative.loadCases_eq_ok_iff.mp h
  rw [LoadCase.canonical, LoadCase.map_rebuilt]
  constructor
  · intro hc a ha
    exact ⟨isFinite_of_beq_zero (hzero a ha), hc _ (mem_distinct.mpr (List.mem_map_of_mem ha))⟩
  · intro ha c hc
    obtain ⟨a, hmem, rfl⟩ := List.mem_map.mp (mem_distinct.mp hc)
    exact (ha a hmem).case

end Rulebook

namespace Session

variable {s : Session}

/-- A rule resolves if its formula can be expanded with no number left, and to the load cases of
its alternatives. -/
theorem exists_resolve_of_expansion {lines baseCases : List String} {settings : Settings}
    (h : ofLines lines baseCases settings = .ok s) {name : String} {rule : Rule}
    (hr : s.book.rule? name = some rule) {as : List Alternative}
    (has : s.expansion name rule.formula = .ok as) (hzero : ∀ a ∈ as, (a.constant == 0) = true) :
    ∃ c, (s.ask fun b => b.resolve name).1 = .ok c ∧
      ∀ d, d ∈ c.alternatives ↔ d ∈ as.map (·.case) := by
  have hexpand : rule.formula.expand (s.book.surroundings name (s.book.recompute [])) = .ok as :=
    ((sound_of_ofLines h).expand_eq name rule.formula).symm.trans has
  have hcases : s.book.loadCasesAnew name =
      .ok (LoadCase.canonical ((Alternative.distinct as).map (·.case))) := by
    rw [Rulebook.loadCasesAnew, Rulebook.isRule_eq, hr, Option.isSome_some, if_pos rfl,
      Rulebook.recompute_of_expand hr hexpand]
    exact Alternative.loadCases_ok fun a ha => hzero a (mem_distinct.mp ha)
  refine ⟨_, by rw [(sound_of_ofLines h).resolve_eq, hcases]; rfl, fun d => ?_⟩
  dsimp only
  rw [LoadCase.canonical, LoadCase.map_rebuilt, LoadCase.distinct, mem_distinct, List.mem_map,
    List.mem_map]
  simp only [Alternative.distinct, mem_distinct]

theorem loadCasesAnew_of_resolve [RegexLibrary] {lines baseCases : List String}
    {settings : Settings} (h : ofLines lines baseCases settings = .ok s) (calls : List Call)
    {name : String} {c : Combination}
    (hc : ((s.after calls).ask fun b => b.resolve name).1 = .ok c) :
    s.book.loadCasesAnew name = .ok c.alternatives := by
  rw [← loadCasesAnew_after s calls, ← ((sound_of_ofLines h).after calls).alternatives_resolve, hc]
  rfl

/-- Only an overflow makes a coefficient that is not finite. If a name resolves, and no part of the
rules that it reaches calculates something that is not finite with arguments that are, every
coefficient is finite. And if every such part has an alternative, then an overflow in any of them
shows: the coefficients are finite only if all parts are. -/
theorem resolve_finite [RegexLibrary] {lines baseCases : List String} {settings : Settings}
    (h : ofLines lines baseCases settings = .ok s) (calls : List Call) {name : String}
    {c : Combination} (hc : ((s.after calls).ask fun b => b.resolve name).1 = .ok c) :
    (s.book.Throughout name (fun r g => ¬ g.Overflows ((s.after calls).expansion r)) →
      ∀ a ∈ c.alternatives, a.Finite) ∧
    (s.book.Throughout name (fun r g => (s.after calls).expansion r g ≠ .ok []) →
      (∀ a ∈ c.alternatives, a.Finite) →
      s.book.Throughout name fun r g => FiniteResult ((s.after calls).expansion r g)) := by
  have hexpansion : (s.after calls).expansion =
      fun r => Formula.expand (s.book.surroundings r (s.book.recompute [])) :=
    funext fun r => funext fun g => expansion_after h calls r g
  have hcases := loadCasesAnew_of_resolve h calls hc
  rw [hexpansion]
  rw [Rulebook.loadCasesAnew] at hcases
  split at hcases
  · obtain ⟨as, has, hcases⟩ := bind_eq_ok_iff.mp hcases
    rw [Rulebook.finite_loadCases_iff hcases]
    exact ⟨fun hparts => Rulebook.recompute_finite hparts as has,
      fun hsome hfin => Rulebook.recompute_finite_parts hsome has hfin⟩
  · rename_i hname
    have hnone : s.book.rule? name = none := by simpa [Rulebook.isRule_eq] using hname
    refine ⟨fun _ => ?_, fun _ _ => Rulebook.throughout_of_none hnone⟩
    rw [← Except.ok.inj hcases]
    exact List.forall_mem_singleton.mpr (Alternative.finite_atomic name).case

attribute [local instance] Regex.library

/-- Loads close to the greatest number that cancel out. -/
theorem resolve_finite_of_difference : ∃ s c,
    ofLines ["U = 1e308*g - (0.5*q | 1e308*g)"] [] ⟨none, false⟩ = .ok s ∧
    (s.ask fun b => b.resolve "U").1 = .ok c ∧ (∀ a ∈ c.alternatives, a.Finite) ∧
    s.book.Throughout "U" fun r g => FiniteResult (s.expansion r g) := by
  have hrun : okWith (ofLines ["U = 1e308*g - (0.5*q | 1e308*g)"] [] ⟨none, false⟩) (fun s =>
      s.book.isRule "U" && s.book.rules.all fun rule => rule.name = "U" &&
        rule.formula.parts.all fun g => okWith (s.expansion "U" g) fun as => !as.isEmpty &&
          as.all fun a => a.constant == 0 && a.case.entries.all fun e => e.2.isFinite) = true := by
    decide +kernel
  obtain ⟨s, hs, hrun⟩ := okWith_iff.mp hrun
  obtain ⟨hname, hrules⟩ := Bool.and_eq_true_iff.mp hrun
  obtain ⟨rule, hU⟩ := Rulebook.isRule_iff.mp hname
  rw [List.all_eq_true] at hrules
  have hparts : ∀ g ∈ rule.formula.parts, ∃ as, s.expansion "U" g = .ok as ∧ as ≠ [] ∧
      ∀ a ∈ as, (a.constant == 0) = true ∧ a.Finite := by
    intro g hg
    have hall := hrules rule (Rulebook.rule?_eq_some_iff.mp hU).1
    have hpart := List.all_eq_true.mp (Bool.and_eq_true_iff.mp hall).2 g hg
    obtain ⟨as, has, hpart⟩ := okWith_iff.mp hpart
    obtain ⟨hne, hall⟩ := Bool.and_eq_true_iff.mp hpart
    refine ⟨as, has, by simpa using hne, fun a ha => ?_⟩
    obtain ⟨hzero, hcase⟩ := Bool.and_eq_true_iff.mp (List.all_eq_true.mp hall a ha)
    exact ⟨hzero, isFinite_of_beq_zero hzero, List.all_eq_true.mp hcase⟩
  -- no other rule is there to be reached
  have hreach {P : String → Formula → Prop} (hP : ∀ g ∈ rule.formula.parts, P "U" g) :
      s.book.Throughout "U" P := by
    intro r below _ hbelow
    obtain ⟨hmem, rfl⟩ := Rulebook.rule?_eq_some_iff.mp hbelow
    have hsame : below.name = "U" :=
      of_decide_eq_true (Bool.and_eq_true_iff.mp (hrules below hmem)).1
    rw [hsame, hU] at hbelow
    cases hbelow
    rwa [hsame]
  obtain ⟨as, has, _, hall⟩ := hparts rule.formula rule.formula.self_mem_parts
  obtain ⟨c, hc, _⟩ := exists_resolve_of_expansion hs hU has fun a ha => (hall a ha).1
  obtain ⟨hfinite, hthroughout⟩ := resolve_finite hs [] hc
  have hfin : ∀ a ∈ c.alternatives, a.Finite := by
    apply hfinite
    apply hreach
    rintro g hg ⟨_, _, hg'⟩
    obtain ⟨bs, hbs, _, hb⟩ := hparts g hg
    exact hg' (finiteResult_of_ok hbs fun b hmem => (hb b hmem).2)
  refine ⟨s, c, hs, hc, hfin, hthroughout (hreach fun g hg hnil => ?_) hfin⟩
  obtain ⟨bs, hbs, hne, _⟩ := hparts g hg
  exact hne (Except.ok.inj (hbs.symm.trans hnil))

/-- A load that is scaled twice is infinite, and the product of the two factors is an error. -/
theorem resolve_infinite_of_scales : ∃ s c e,
    ofLines ["U = 1e200*(1e200*g)", "V = 1e200*1e200*g"] [] ⟨none, false⟩ = .ok s ∧
    (s.ask fun b => b.resolve "U").1 = .ok c ∧ (¬ ∀ a ∈ c.alternatives, a.Finite) ∧
    (s.ask fun b => b.resolve "V").1 = .error e ∧ e.code = "NON_FINITE_FACTOR" := by
  have hrun : okWith (ofLines ["U = 1e200*(1e200*g)", "V = 1e200*1e200*g"] [] ⟨none, false⟩)
      (fun s => (s.book.rule? "U").any (fun rule => okWith (s.expansion "U" rule.formula) fun as =>
          as.all (·.constant == 0) && as.any fun a => a.case.entries.any fun e => !e.2.isFinite) &&
        errorWith (s.ask fun b => b.resolve "V").1 fun e => e.code = "NON_FINITE_FACTOR") = true := by
    decide +kernel
  obtain ⟨s, hs, hrun⟩ := okWith_iff.mp hrun
  obtain ⟨hU, hV⟩ := Bool.and_eq_true_iff.mp hrun
  obtain ⟨rule, hr, hU⟩ := (Option.any_eq_true _ _).mp hU
  obtain ⟨as, has, hU⟩ := okWith_iff.mp hU
  obtain ⟨f, hf, hcode⟩ := errorWith_iff.mp hV
  rw [Bool.and_eq_true, List.all_eq_true, List.any_eq_true] at hU
  obtain ⟨hzero, a, ha, hany⟩ := hU
  obtain ⟨c, hc, hcases⟩ := exists_resolve_of_expansion hs hr has hzero
  obtain ⟨e, he, hinfinite⟩ := List.any_eq_true.mp hany
  refine ⟨s, c, f, hs, hc, fun hfin => ?_, hf, of_decide_eq_true hcode⟩
  have hbad := hfin a.case ((hcases _).mpr (List.mem_map_of_mem ha)) e he
  rw [hbad] at hinfinite
  cases hinfinite

end Session

end DesignLoads
