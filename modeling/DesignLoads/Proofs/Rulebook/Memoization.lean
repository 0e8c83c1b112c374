import DesignLoads.Proofs.Rulebook.Marks
import DesignLoads.Proofs.Rulebook.Recomputation
import DesignLoads.Session

/-! What a rule book remembers cannot be observed. Whatever has been asked before, a query answers
what a resolution without a memory computes.

The invariant ties every kept list of alternatives to the list that is computed anew with nothing on
the stack, and the marked rules to a path of the reference graph. A kept name reaches no marked rule,
for such a rule would lie on a circle, and a name that reaches a circle has no alternatives; so it
does not matter that the stack was another one when the list was kept. -/

namespace DesignLoads

namespace Query

variable {α β : Type} {I : Progress → Prop}

theorem ask_bind (q : Query α) (k : α → Query β) (p : Progress) : (q >>= k).ask p =
    match q.ask p with
    | (.ok a, p') => (k a).ask p'
    | (.error e, p') => (.error e, p') := by
  cases h : q.ask p with
  | mk r p' =>
    have hq : q.run.run p = (r, p') := h
    cases r with
    | ok a => simp only [ask, ExceptT.run_bind, StateT.run_bind, hq]; rfl
    | error e => simp only [ask, ExceptT.run_bind, StateT.run_bind, hq]; rfl

/-- Wherever the invariant holds, the query has the answer `r` and keeps the invariant. -/
def Answers (I : Progress → Prop) (q : Query α) (r : Except Failure α) : Prop :=
  ∀ p, I p → (q.ask p).1 = r ∧ I (q.ask p).2

theorem answers_pure (a : α) : Answers I (pure a) (.ok a) := fun _ hp => ⟨rfl, hp⟩

theorem answers_liftExcept (r : Except Failure α) : Answers I (liftExcept r) (liftExcept r) := by
  intro p hp
  cases r with
  | ok a => exact ⟨rfl, hp⟩
  | error e => exact ⟨rfl, hp⟩

theorem Answers.bind {q : Query α} {r : Except Failure α} {k : α → Query β}
    {s : α → Except Failure β} (hq : Answers I q r) (hk : ∀ a, r = .ok a → Answers I (k a) (s a)) :
    Answers I (q >>= k) (r >>= s) := by
  intro p hp
  obtain ⟨hr, hp'⟩ := hq p hp
  rw [ask_bind]
  cases he : q.ask p with
  | mk r' p' =>
    rw [he] at hr hp'
    subst hr
    cases r' with
    | ok a => exact hk a rfl p' hp'
    | error e => exact ⟨rfl, hp'⟩

end Query

open Query

namespace Formula

variable {I : Progress → Prop} {limit : Option Nat} {rule : String}
  {family : String → List String} {refer : String → Query (List Alternative)}
  {answer : String → Except Failure (List Alternative)}

theorem expandNames_answers {names : List String} (h : ∀ n ∈ names, Answers I (refer n) (answer n))
    (before : List Alternative) : Answers I (expandNames ⟨limit, rule, family, refer⟩ before names)
      (expandNames ⟨limit, rule, family, answer⟩ before names) := by
  induction names generalizing before with
  | nil => exact answers_pure before
  | cons n ns ih =>
    apply (h n List.mem_cons_self).bind
    intro next _
    apply (answers_liftExcept _).bind
    intro all _
    exact ih (fun m hm => h m (List.mem_cons_of_mem n hm)) all

/-- Where every name of a formula is answered, the formula is expanded by these answers. -/
theorem expand_answers {f : Formula} (h : ∀ n ∈ f.names family, Answers I (refer n) (answer n)) :
    Answers I (f.expand ⟨limit, rule, family, refer⟩) (f.expand ⟨limit, rule, family, answer⟩) := by
  induction f with
  | ref name => exact h name (List.mem_singleton.mpr rfl)
  | family stem => exact expandNames_answers h []
  | number f =>
    apply (answers_liftExcept _).bind
    intro x _
    exact answers_pure _
  | scale a f ih =>
    apply (answers_liftExcept _).bind
    intro x _
    apply (ih h).bind
    intro as _
    exact answers_pure _
  | neg a ih =>
    apply (ih h).bind
    intro as _
    exact answers_pure _
  | sum a b iha ihb | product a b iha ihb | zip a b iha ihb | choice a b iha ihb =>
    apply (iha fun n hn => h n (List.mem_append_left _ hn)).bind
    intro as _
    apply (ihb fun n hn => h n (List.mem_append_right _ hn)).bind
    intro bs _
    exact answers_liftExcept _

end Formula

namespace Rulebook

variable {book : Rulebook} {stack : List String} {first : Progress} {name : String}

/-- The progress of a book while the rules of `stack` are being resolved. Every list that is kept is
the one computed anew, and none of those kept at `first` has been lost or changed. -/
structure Sound (book : Rulebook) (stack : List String) (first p : Progress) : Prop where
  opened : p.Open stack
  known : ∀ n as, p.known? n = some as → book.isRule n ∧ book.recompute [] n = .ok as
  kept : ∀ n as, first.known? n = some as → p.known? n = some as

theorem Sound.enter {p : Progress} (h : book.Sound stack first p)
    (hnew : p.slots.get? name = none) : book.Sound (name :: stack) first (p.enter name) := by
  refine ⟨h.opened.enter hnew, fun n as hn => ?_, fun n as hn => ?_⟩
  · rw [Progress.known?_enter_of_new hnew] at hn
    exact h.known n as hn
  · rw [Progress.known?_enter_of_new hnew]
    exact h.kept n as hn

theorem Sound.finish {p : Progress} {as : List Alternative} (h : book.Sound (name :: stack) first p)
    (hname : book.isRule name) (has : book.recompute [] name = .ok as) :
    book.Sound stack first (p.finish name as) := by
  refine ⟨h.opened.finish as, fun n bs hn => ?_, fun n bs hn => ?_⟩
  · rw [Progress.known?_finish] at hn
    split at hn
    · rename_i heq
      cases hn
      exact ⟨heq ▸ hname, heq ▸ has⟩
    · exact h.known n bs hn
  · have hkept := h.kept n bs hn
    rw [Progress.known?_finish, if_neg]
    · exact hkept
    · -- a rule that is being resolved is not known
      rintro rfl
      rw [h.opened.known?_eq_none List.mem_cons_self] at hkept
      cases hkept

theorem Sound.abandon {p : Progress} (h : book.Sound (name :: stack) first p) :
    book.Sound stack first (p.abandon name) := by
  refine ⟨h.opened.abandon, fun n as hn => ?_, fun n as hn => ?_⟩
  · rw [h.opened.known?_abandon] at hn
    exact h.known n as hn
  · rw [h.opened.known?_abandon]
    exact h.kept n as hn

/-- What a name stands for with nothing on the stack it stands for on every stack that refers to
it. -/
theorem recompute_of_nested {as : List Alternative}
    (hname : book.isRule name → book.Nested (name :: stack))
    (h : book.recompute [] name = .ok as) : book.recompute stack name = .ok as := by
  cases hr : book.rule? name with
  | none =>
    rw [recompute_of_none hr] at h ⊢
    exact h
  | some rule =>
    apply recompute_of_clear h
    intro s hs hreach
    -- the name is reached from all of the stack, and with a way back would lie on a circle
    have hback := (hname (isRule_iff.mpr ⟨rule, hr⟩)).reached s hs
    exact recompute_not_onCircle h (Relation.TransGen.trans_right hreach hback)

/-- A kept list is what the name stands for. -/
theorem Sound.recompute_eq {p : Progress} (h : book.Sound stack first p)
    (hname : book.isRule name → book.Nested (name :: stack)) {as : List Alternative}
    (has : p.known? name = some as) : book.recompute stack name = .ok as :=
  recompute_of_nested hname (h.known name as has).2

/-- The path from the first appearance of a rule on, as the stack has it. -/
theorem circularity_eq {p : Progress} (h : p.Open stack) (hs : name ∈ stack) :
    p.circularity name = circle stack name := by
  obtain ⟨inner, outer, rfl, hinner⟩ := List.eq_append_cons_of_mem hs
  have houter : name ∉ outer.reverse := by
    rw [List.mem_reverse]
    exact (List.nodup_cons.mp (List.nodup_append.mp h.distinct).2.1).1
  have hpath : p.path = outer.reverse ++ name :: inner.reverse := by
    rw [h.path]
    simp
  have htop : (inner ++ name :: outer).takeWhile (· ≠ name) = inner := by
    have hall : ∀ n ∈ inner, decide (n ≠ name) = true := by
      intro n hn
      exact decide_eq_true fun heq => hinner (heq ▸ hn)
    rw [List.takeWhile_append_of_pos hall, List.takeWhile_cons_of_neg (by simp), List.append_nil]
  rw [Progress.circularity, circle, hpath, Progress.idxOf?_append_cons houter, htop,
    Option.getD_some, List.drop_left]

theorem ask_alternativesWithin_succ (fuel : Nat) (p : Progress) :
    (book.alternativesWithin (fuel + 1) name).ask p =
      match p.slots.get? name with
      | some (.resolved as) => (.ok as, p)
      | some .resolving => (.error (p.circularity name), p)
      | none =>
        match book.rule? name with
        | some rule => (book.resolveRule (book.alternativesWithin fuel) rule).ask p
        | none => (.ok [.atomic name], p) := by
  rw [alternativesWithin, ask_bind]
  change (match p.slots.get? name with
    | some (.resolved as) => pure as
    | some .resolving => throw (p.circularity name)
    | none => _ : Query (List Alternative)).ask p = _
  split
  · rfl
  · rfl
  · cases book.rule? name <;> rfl

theorem ask_resolveRule_ok {refer : String → Query (List Alternative)} {rule : Rule}
    {p q : Progress} {as : List Alternative}
    (h : (rule.formula.expand (book.surroundings rule.name refer)).ask (p.enter rule.name) =
      (.ok as, q)) : (book.resolveRule refer rule).ask p =
      (.ok (Alternative.distinct as), q.finish rule.name (Alternative.distinct as)) := by
  have hask : (rule.formula.expand (book.surroundings rule.name refer)).ask
      ((p.mark rule.name .resolving).push rule.name) = (.ok as, q) := h
  unfold resolveRule
  rw [ask]
  simp only [ExceptT.run_mk, StateT.run, hask]
  rfl

theorem ask_resolveRule_error {refer : String → Query (List Alternative)} {rule : Rule}
    {p q : Progress} {e : Failure}
    (h : (rule.formula.expand (book.surroundings rule.name refer)).ask (p.enter rule.name) =
      (.error e, q)) : (book.resolveRule refer rule).ask p = (.error e, q.abandon rule.name) := by
  have hask : (rule.formula.expand (book.surroundings rule.name refer)).ask
      ((p.mark rule.name .resolving).push rule.name) = (.error e, q) := h
  unfold resolveRule
  rw [ask]
  simp only [ExceptT.run_mk, StateT.run, hask]
  rfl

/-- A rule for which nothing is noted resolves to what is computed anew, if the names in it do. -/
theorem resolveRule_answers {refer : String → Query (List Alternative)} {rule : Rule} {p : Progress}
    (hr : book.rule? name = some rule) (h : ∀ n ∈ rule.formula.names book.extending,
      Answers (book.Sound (name :: stack) first) (refer n) (book.recompute (name :: stack) n))
    (hp : book.Sound stack first p) (hslot : p.slots.get? name = none) :
    ((book.resolveRule refer rule).ask p).1 = book.recompute stack name ∧
      book.Sound stack first ((book.resolveRule refer rule).ask p).2 := by
  obtain rfl := name_of_rule? hr
  have hname : book.isRule rule.name := isRule_iff.mpr ⟨rule, hr⟩
  have hnew := recompute_of_not_mem hr (hp.opened.not_mem hslot)
  have hexpand : Answers (book.Sound (rule.name :: stack) first)
      (rule.formula.expand (book.surroundings rule.name refer))
      (rule.formula.expand (book.surroundings rule.name (book.recompute (rule.name :: stack)))) :=
    Formula.expand_answers h
  obtain ⟨hans, hsound⟩ := hexpand (p.enter rule.name) (hp.enter hslot)
  cases he : (rule.formula.expand (book.surroundings rule.name refer)).ask (p.enter rule.name) with
  | mk r p' =>
    rw [he] at hans hsound
    rw [← hans] at hnew
    rw [hnew]
    cases r with
    | ok as =>
      rw [ask_resolveRule_ok he]
      -- the list was computed on this stack, but is kept for every other one
      have hempty : book.recompute [] rule.name = .ok (Alternative.distinct as) :=
        recompute_of_clear hnew (by simp)
      exact ⟨rfl, hsound.finish hname hempty⟩
    | error e =>
      rw [ask_resolveRule_error he]
      exact ⟨rfl, hsound.abandon⟩

/-- With fuel for every rule that is not being resolved, a name resolves to what is computed anew. -/
theorem alternativesWithin_answers {fuel : Nat}
    (hfuel : (book.ruleNames.filter (· ∉ stack)).length < fuel) (hstack : book.Nested stack)
    (hname : book.isRule name → book.Nested (name :: stack)) :
    Answers (book.Sound stack first) (book.alternativesWithin fuel name)
      (book.recompute stack name) := by
  induction fuel generalizing stack name with
  | zero => exact absurd hfuel (Nat.not_lt_zero _)
  | succ fuel ih =>
    intro p hp
    rw [ask_alternativesWithin_succ]
    cases hslot : p.slots.get? name with
    | some slot =>
      cases slot with
      | resolved as =>
        have hknown := Progress.known?_eq_some_iff.mpr hslot
        exact ⟨(hp.recompute_eq hname hknown).symm, hp⟩
      | resolving =>
        have hs : name ∈ stack := (hp.opened.marks name).mp hslot
        obtain ⟨rule, hr⟩ := isRule_iff.mp (hstack.rules name hs)
        rw [recompute_of_mem hr hs]
        exact ⟨congrArg Except.error (circularity_eq hp.opened hs), hp⟩
    | none =>
      cases hr : book.rule? name with
      | none => exact ⟨(recompute_of_none hr).symm, hp⟩
      | some rule =>
        have hs : name ∉ stack := hp.opened.not_mem hslot
        have hnested := hname (isRule_iff.mpr ⟨rule, hr⟩)
        have hfewer := fewer_off_stack (mem_ruleNames_of_rule? hr) hs
        apply resolveRule_answers hr _ hp hslot
        intro n hn
        apply ih (by omega) hnested
        intro hrule
        exact hnested.cons (Refers.intro hr hrule hn)

theorem off_stack_lt {fuel : Nat} (h : book.rules.length < fuel) (stack : List String) :
    (book.ruleNames.filter (· ∉ stack)).length < fuel :=
  calc
    (book.ruleNames.filter (· ∉ stack)).length ≤ book.ruleNames.length := List.length_filter_le _ _
    _ = book.rules.length := List.length_map _
    _ < fuel := h

/-- There is fuel enough, whatever amount beyond the number of rules is given. -/
theorem alternativesWithin_answers_of_lt {fuel : Nat} (hfuel : book.rules.length < fuel)
    (name : String) : Answers (book.Sound [] first) (book.alternativesWithin fuel name)
      (book.recompute [] name) :=
  alternativesWithin_answers (off_stack_lt hfuel []) nested_nil nested_singleton

theorem alternatives_answers (name : String) :
    Answers (book.Sound [] first) (book.alternatives name) (book.recompute [] name) :=
  alternativesWithin_answers_of_lt (Nat.lt_succ_self _) name

end Rulebook

end DesignLoads
