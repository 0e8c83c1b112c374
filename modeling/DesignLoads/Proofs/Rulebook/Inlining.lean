import DesignLoads.Proofs.Formula.Agreement
import DesignLoads.Proofs.Rulebook.Circles

/-! Inlining. Where no formula has a zip, a rule resolves to what its formula gives when the
formulas of all other rules are written in place of their names, and repetitions are removed from
the result alone.

A zip looks at the numbers and the places of its operands, which repetitions change. Every other
operator gives lists alike for operands alike. -/

namespace DesignLoads

namespace Formula

def zipFree : Formula → Bool
  | ref _ | family _ | number _ => true
  | scale a _ | neg a => a.zipFree
  | sum a b | product a b | choice a b => a.zipFree && b.zipFree
  | zip .. => false

/-- A formula with formulas in place of names, and of a family the choice between its members. A
family without members stays. -/
def substitute (σ : String → Formula) (members : String → List String) : Formula → Formula
  | ref name => σ name
  | family stem =>
    match members stem with
    | [] => family stem
    | n :: ns => (ns.map σ).foldl choice (σ n)
  | number f => number f
  | scale a f => scale (a.substitute σ members) f
  | neg a => neg (a.substitute σ members)
  | sum a b => sum (a.substitute σ members) (b.substitute σ members)
  | product a b => product (a.substitute σ members) (b.substitute σ members)
  | zip a b => zip (a.substitute σ members) (b.substitute σ members)
  | choice a b => choice (a.substitute σ members) (b.substitute σ members)

/-- Surroundings without rules and without a limit. -/
def bare (rule : String) : Surroundings (Except Failure) :=
  ⟨none, rule, fun _ => [], fun n => .ok [.atomic n]⟩

end Formula

namespace Rulebook

/-- The formula of a name with the formulas of all rules in place of their names. The rules of
`stack` have been put in already; a name among them stays. -/
def inlined (book : Rulebook) (stack : List String) (name : String) : Formula :=
  match _h : book.rule? name with
  | none => .ref name
  | some rule =>
    if _hs : name ∈ stack then .ref name
    else rule.formula.substitute (fun n => book.inlined (name :: stack) n) book.extending
termination_by (book.ruleNames.filter (· ∉ stack)).length
decreasing_by exact fewer_off_stack (mem_ruleNames_of_rule? _h) _hs

/-- The alternatives of the inlined formula of a name, with all their repetitions. -/
def inlinedAlternatives (book : Rulebook) (name : String) : Except Failure (List Alternative) :=
  (book.inlined [] name).expand (Formula.bare name)

end Rulebook

namespace Formula

variable {env : Surroundings (Except Failure)} {σ : String → Formula} {rule : String}

/-- A choice between formulas in place of names, onto what stands before it. -/
theorem foldl_choice_agree {ns : List String}
    (hlimit : env.limit = none) (h : ∀ n ∈ ns, Agree ((σ n).expand (bare rule)) (env.refer n))
    {f : Formula} {x : Except Failure (List Alternative)} (hf : Agree (f.expand (bare rule)) x) :
    Agree (((ns.map σ).foldl choice f).expand (bare rule))
      (x >>= fun before => expandNames env before ns) := by
  induction ns generalizing f x with
  | nil =>
    have hx : (x >>= fun before => expandNames env before []) = x := by cases x <;> rfl
    rw [hx]
    exact hf
  | cons n ns ih =>
    have hnext : Agree ((choice f (σ n)).expand (bare rule))
        (x >>= fun before => env.refer n >>= fun next =>
          liftExcept (Alternative.choices env.limit before next)) := by
      apply hf.bind₂ (h n List.mem_cons_self)
      intro as as' bs bs' ha hb
      rw [liftExcept_eq_self, liftExcept_eq_self, hlimit]
      exact ha.choices hb
    have hrest := ih (fun m hm => h m (List.mem_cons_of_mem n hm)) hnext
    simpa only [List.map_cons, List.foldl_cons, expandNames, bind_assoc] using hrest

theorem family_agree {stem : String} (hlimit : env.limit = none)
    (h : ∀ n ∈ env.family stem, Agree ((σ n).expand (bare rule)) (env.refer n)) :
    Agree (((family stem).substitute σ env.family).expand (bare rule))
      (expandNames env [] (env.family stem)) := by
  unfold substitute
  split
  · rename_i hnone
    rw [hnone]
    exact .ok (.refl [])
  · rename_i n ns hsome
    rw [hsome] at h ⊢
    have hfirst : Agree ((σ n).expand (bare rule))
        (env.refer n >>= fun next => liftExcept (Alternative.choices env.limit [] next)) := by
      have hr : (env.refer n >>= fun next => liftExcept (Alternative.choices env.limit [] next)) =
          env.refer n := by
        rw [hlimit]
        cases env.refer n <;> rfl
      rw [hr]
      exact h n List.mem_cons_self
    have hall := foldl_choice_agree hlimit (fun m hm => h m (List.mem_cons_of_mem n hm)) hfirst
    rwa [bind_assoc] at hall

/-- Without zips and without a limit, formulas put in place of names may differ from what the names
stand for by repetitions. -/
theorem expand_agree {f : Formula} (hzip : f.zipFree) (hlimit : env.limit = none)
    (h : ∀ n ∈ f.names env.family, Agree ((σ n).expand (bare rule)) (env.refer n)) :
    Agree ((f.substitute σ env.family).expand (bare rule)) (f.expand env) := by
  induction f with
  | ref n => exact h n (List.mem_singleton.mpr rfl)
  | family stem => exact family_agree hlimit h
  | number f =>
    unfold substitute expand
    rw [liftExcept_eq_self]
    cases f.value with
    | ok x => exact .ok (.refl _)
    | error e => exact .error e e
  | scale a f ih =>
    unfold substitute expand
    rw [liftExcept_eq_self]
    cases f.value with
    | ok x =>
      apply (ih hzip h).bind
      intro as bs hab
      exact .ok (hab.map fun c hn => hn.scaled x)
    | error e => exact .error e e
  | neg a ih =>
    apply (ih hzip h).bind
    intro as bs hab
    exact .ok (hab.map fun c hn => hn.scaled (-1))
  | sum a b iha ihb =>
    obtain ⟨hza, hzb⟩ := Bool.and_eq_true_iff.mp hzip
    have hleft := iha hza fun n hn => h n (List.mem_append_left _ hn)
    have hright := ihb hzb fun n hn => h n (List.mem_append_right _ hn)
    apply hleft.bind₂ hright
    intro as as' bs bs' ha hb
    rw [liftExcept_eq_self, liftExcept_eq_self, hlimit]
    exact ha.sums hb
  | product a b iha ihb =>
    obtain ⟨hza, hzb⟩ := Bool.and_eq_true_iff.mp hzip
    have hleft := iha hza fun n hn => h n (List.mem_append_left _ hn)
    have hright := ihb hzb fun n hn => h n (List.mem_append_right _ hn)
    apply hleft.bind₂ hright
    intro as as' bs bs' ha hb
    rw [liftExcept_eq_self, liftExcept_eq_self, hlimit]
    exact ha.products hb
  | zip a b => cases hzip
  | choice a b iha ihb =>
    obtain ⟨hza, hzb⟩ := Bool.and_eq_true_iff.mp hzip
    have hleft := iha hza fun n hn => h n (List.mem_append_left _ hn)
    have hright := ihb hzb fun n hn => h n (List.mem_append_right _ hn)
    apply hleft.bind₂ hright
    intro as as' bs bs' ha hb
    rw [liftExcept_eq_self, liftExcept_eq_self, hlimit]
    exact ha.choices hb

end Formula

namespace Rulebook

variable {book : Rulebook} {stack : List String} {name : String} {rule : Rule}

theorem inlined_of_none (h : book.rule? name = none) : book.inlined stack name = .ref name := by
  rw [inlined]
  split
  · rfl
  · simp_all

theorem inlined_of_not_mem (h : book.rule? name = some rule) (hs : name ∉ stack) :
    book.inlined stack name =
      rule.formula.substitute (book.inlined (name :: stack)) book.extending := by
  rw [inlined]
  split
  · simp_all
  · rename_i other ho
    obtain rfl : other = rule := by simpa [h] using ho.symm
    rw [dif_neg hs]

/-- Rules nested below one that reaches no circle are different. -/
theorem not_mem_of_acyclic (hacyclic : ∀ m, book.Reaches name m → ¬ book.OnCircle m)
    (hpath : book.Nested (name :: stack)) : name ∉ stack := by
  intro hs
  exact hacyclic name Relation.ReflTransGen.refl (hpath.reached name hs)

/-- To remove repetitions rule by rule, or none at all before the formulas are joined, gives
alternatives that are alike. -/
theorem recompute_agree {root : String} (hzip : ∀ rule ∈ book.rules, rule.formula.zipFree)
    (hlimit : book.settings.maxAlternatives = none)
    (hacyclic : ∀ m, book.Reaches name m → ¬ book.OnCircle m)
    (hpath : book.isRule name → book.Nested (name :: stack)) :
    Agree ((book.inlined stack name).expand (Formula.bare root)) (book.recompute stack name) := by
  induction stack, name using recompute.induct book with
  | case1 stack name hr =>
    rw [inlined_of_none hr, recompute_of_none hr]
    exact .ok (.refl _)
  | case2 stack name rule hr hs =>
    -- the guard of the stack is never met, so that no rule is left standing in a formula
    have hrule : book.isRule name := isRule_iff.mpr ⟨rule, hr⟩
    exact absurd hs (not_mem_of_acyclic hacyclic (hpath hrule))
  | case3 stack name rule hr hs ih =>
    have hrule : book.isRule name := isRule_iff.mpr ⟨rule, hr⟩
    rw [inlined_of_not_mem hr hs, recompute_of_not_mem hr hs]
    apply Agree.map_distinct
    have hrefer : ∀ n ∈ rule.formula.names book.extending,
        Agree ((book.inlined (name :: stack) n).expand (Formula.bare root))
          (book.recompute (name :: stack) n) := by
      intro n hn
      apply ih n
      · intro m hm hc
        exact hacyclic m (hm.head_of_mem hr hn (isRule_of_onCircle hc)) hc
      · intro hnr
        exact (hpath hrule).cons (Refers.intro hr hnr hn)
    exact @Formula.expand_agree (book.surroundings name (book.recompute (name :: stack)))
      _ _ _ (hzip rule (rule?_eq_some_iff.mp hr).1) hlimit hrefer

/-- Alternatives are kept without repetitions. -/
theorem recompute_eraseDups {as : List Alternative} (h : book.recompute stack name = .ok as)
    (hnum : ∀ a ∈ as, ¬ a.HasNaN) : as.eraseDups = as := by
  cases hr : book.rule? name with
  | none =>
    rw [recompute_of_none hr] at h
    cases h
    rfl
  | some rule =>
    have hs := (recompute_names hr h).1
    rw [recompute_of_not_mem hr hs] at h
    cases hexp : rule.formula.expand (book.surroundings name (book.recompute (name :: stack))) with
    | error e =>
      rw [hexp] at h
      cases h
    | ok bs =>
      rw [hexp] at h
      cases h
      have hb : ∀ b ∈ bs, ¬ b.HasNaN := fun b hb => hnum b (mem_distinct.mpr hb)
      rw [Alternative.distinct_eq hb, eraseDups_idem]

end Rulebook

namespace Session

variable {s : Session}

/-- Without zips and without a limit, to remove the repetitions of every rule cannot be observed.
For a rule that reaches no circle, the alternatives exist exactly if those of its inlined formula
do, and are these without their repetitions unless one of them has a NaN. -/
theorem alternatives_eq_inlined [RegexLibrary] {lines baseCases : List String} {eager : Bool}
    (h : ofLines lines baseCases ⟨none, eager⟩ = .ok s)
    (hzip : ∀ rule ∈ s.book.rules, rule.formula.zipFree) (calls : List Call) (name : String)
    (hacyclic : ∀ m, s.book.Reaches name m → ¬ s.book.OnCircle m) :
    (((s.after calls).ask fun b => b.alternatives name).1.isOk ↔
        (s.book.inlinedAlternatives name).isOk) ∧
      ∀ as, s.book.inlinedAlternatives name = .ok as → (∀ a ∈ as, ¬ a.HasNaN) →
        ((s.after calls).ask fun b => b.alternatives name).1 = .ok as.eraseDups := by
  have hs := (sound_of_ofLines h).after calls
  have hlimit : s.book.settings.maxAlternatives = none := by rw [(opened h).settings]
  have hagree : Agree (s.book.inlinedAlternatives name) (s.book.recompute [] name) :=
    Rulebook.recompute_agree hzip hlimit hacyclic fun hrule => Rulebook.nested_singleton hrule
  have hkept : ((s.after calls).ask fun b => b.alternatives name).1 = s.book.recompute [] name := by
    rw [hs.alternatives_eq, recompute_after]
  rw [hkept]
  refine ⟨hagree.isOk_iff.symm, ?_⟩
  intro as has hnum
  rw [has] at hagree
  obtain ⟨bs, hbs, hab⟩ := hagree.of_ok
  have hb : ∀ b ∈ bs, ¬ b.HasNaN := fun b hb => hnum b ((hab.mem b).mpr hb)
  rw [hbs, hab.firsts hnum, Rulebook.recompute_eraseDups hbs hb]

attribute [local instance] Regex.library

/-- A family whose only member repeats itself: three alternatives when inlined, two without the
repetition. -/
theorem alternatives_eq_inlined_of_family : ∃ s as,
    ofLines ["p1 = g | q | g", "U = 2*p$"] ["g"] ⟨none, false⟩ = .ok s ∧
    s.book.inlinedAlternatives "U" = .ok as ∧ as.length = 3 ∧
    ((s.after [.resolve "p1"]).ask fun b => b.alternatives "U").1 = .ok as.eraseDups := by
  have hopen : (match ofLines ["p1 = g | q | g", "U = 2*p$"] ["g"] ⟨none, false⟩ with
      | .error _ => false
      | .ok s => s.book.rules =
          [⟨"p1", "p1 = g | q | g", .choice (.choice (.ref "g") (.ref "q")) (.ref "g")⟩,
            ⟨"U", "U = 2*p$", .scale (.family "p") (.number 2)⟩]) = true := by
    decide +kernel
  have hexp : (match (Formula.scale (.choice (.choice (.ref "g") (.ref "q")) (.ref "g"))
        (.number 2)).expand (Formula.bare "U") with
      | .error _ => false
      | .ok as => as.length = 3 && as.all (·.comparable)) = true := by decide +kernel
  cases hs : ofLines ["p1 = g | q | g", "U = 2*p$"] ["g"] ⟨none, false⟩ with
  | error e => simp [hs] at hopen
  | ok s =>
    have hrules : s.book.rules =
        [⟨"p1", "p1 = g | q | g", .choice (.choice (.ref "g") (.ref "q")) (.ref "g")⟩,
          ⟨"U", "U = 2*p$", .scale (.family "p") (.number 2)⟩] := by simpa [hs] using hopen
    have hp : s.book.rule? "p1" = some
        ⟨"p1", "p1 = g | q | g", .choice (.choice (.ref "g") (.ref "q")) (.ref "g")⟩ := by
      rw [Rulebook.rule?_eq_find?, hrules]
      rfl
    have hU : s.book.rule? "U" = some ⟨"U", "U = 2*p$", .scale (.family "p") (.number 2)⟩ := by
      rw [Rulebook.rule?_eq_find?, hrules]
      rfl
    have hg : s.book.rule? "g" = none := by
      rw [Rulebook.rule?_eq_find?, hrules]
      rfl
    have hq : s.book.rule? "q" = none := by
      rw [Rulebook.rule?_eq_find?, hrules]
      rfl
    have hfamily : s.book.extending "p" = ["p1"] := by
      rw [Rulebook.extending, Rulebook.ruleNames, hrules]
      decide
    have hinlined : s.book.inlinedAlternatives "U" = (Formula.scale
        (.choice (.choice (.ref "g") (.ref "q")) (.ref "g")) (.number 2)).expand
          (Formula.bare "U") := by
      rw [Rulebook.inlinedAlternatives, Rulebook.inlined_of_not_mem hU (by simp)]
      simp only [Formula.substitute, hfamily, List.map_nil, List.foldl_nil,
        Rulebook.inlined_of_not_mem hp (show "p1" ∉ ["U"] by decide),
        Rulebook.inlined_of_none hg, Rulebook.inlined_of_none hq]
    rw [← hinlined] at hexp
    have hrank : ∀ rule ∈ s.book.rules, ∀ n ∈ rule.formula.names s.book.extending,
        s.book.isRule n → (if n = "U" then 1 else 0) < if rule.name = "U" then 1 else 0 := by
      intro rule hm n hn hrule
      rw [hrules] at hm
      obtain rfl | hm := List.mem_cons.mp hm
      · have hcase : n = "g" ∨ n = "q" ∨ n = "g" := by simpa [Formula.names] using hn
        obtain rfl | rfl | rfl := hcase <;> simp [Rulebook.isRule_eq, hg, hq] at hrule
      · obtain rfl := List.mem_singleton.mp hm
        obtain rfl : n = "p1" := by simpa [Formula.names, hfamily] using hn
        decide
    cases has : s.book.inlinedAlternatives "U" with
    | error e => simp [has] at hexp
    | ok as =>
      obtain ⟨hlen, hnum⟩ : as.length = 3 ∧ ∀ a ∈ as, a.comparable := by simpa [has] using hexp
      refine ⟨s, as, rfl, has, hlen, ?_⟩
      have hacyclic (m : String) (_ : s.book.Reaches "U" m) : ¬ s.book.OnCircle m :=
        Rulebook.not_onCircle_of_rank hrank m
      refine (alternatives_eq_inlined hs ?_ _ "U" hacyclic).2 as has fun a ha =>
        Alternative.comparable_iff.mp (hnum a ha)
      rw [hrules]
      decide

end Session

end DesignLoads
