import DesignLoads.Proofs.Rulebook.Postconditions

/-! What is kept is complete. A rule is kept only after all rules that it refers to, and a failure
takes nothing away; so the kept rules are closed under references at every moment. -/

namespace DesignLoads

open Query

namespace Rulebook

variable {book : Rulebook} {stack names : List String} {name : String}

/-- All rules that a kept rule refers to are kept. -/
def Closed (book : Rulebook) (p : Progress) : Prop :=
  ∀ n m, (p.known? n).isSome → book.Refers n m → (p.known? m).isSome

/-- Progress that is closed under references, while the rules of `stack` are being resolved. -/
structure Stable (book : Rulebook) (stack : List String) (p : Progress) : Prop where
  opened : p.Open stack
  closed : book.Closed p

/-- Stable progress that keeps the rules among `names`. -/
structure Holds (book : Rulebook) (stack names : List String) (p : Progress) : Prop
    extends Stable book stack p where
  known : ∀ n ∈ names, book.isRule n → (p.known? n).isSome

theorem Holds.of_subset {others : List String} {p : Progress} (h : book.Holds stack names p)
    (hsub : others ⊆ names) : book.Holds stack others p :=
  ⟨h.toStable, fun n hn => h.known n (hsub hn)⟩

/-- A query that, where it succeeds, has seen to it that the rules among `more` are kept. -/
def Settles {α : Type} (book : Rulebook) (more : List String) (q : Query α) : Prop :=
  ∀ stack names, Ensures (book.Holds stack names) q (fun _ => book.Holds stack (more ++ names))
    (book.Stable stack)

section Formulas

variable {α : Type} {limit : Option Nat} {rule : String} {family : String → List String}
  {refer : String → Query (List Alternative)}

theorem settles_pure (a : α) : book.Settles [] (pure a) :=
  fun _ _ => ensures_pure fun _ hp => hp

theorem settles_liftExcept (r : Except Failure α) : book.Settles [] (liftExcept r) :=
  fun _ _ => ensures_liftExcept (fun _ _ _ hp => hp) fun _ hp => hp.toStable

theorem Settles.bind {β : Type} {more more' : List String} {q : Query α} {k : α → Query β}
    (hq : book.Settles more q) (hk : ∀ a, book.Settles more' (k a)) :
    book.Settles (more ++ more') (q >>= k) := by
  intro stack names
  apply (hq stack names).bind
  intro a p hp
  have hafter := hk a stack (more ++ names) p hp
  cases he : (k a).ask p with
  | mk r p' =>
    rw [he] at hafter
    cases r with
    | error e => exact hafter
    | ok b =>
      apply hafter.of_subset
      intro n hn
      simp only [List.mem_append] at hn ⊢
      tauto

theorem expandNames_settles (h : ∀ n, book.Settles [n] (refer n)) (before : List Alternative)
    (ns : List String) :
    book.Settles ns (Formula.expandNames ⟨limit, rule, family, refer⟩ before ns) := by
  induction ns generalizing before with
  | nil => exact settles_pure _
  | cons n ns ih =>
    apply (h n).bind
    intro next
    exact (settles_liftExcept _).bind fun all => ih all

/-- An expansion sees to all names of the formula, as long as every one of them does. -/
theorem expand_settles (h : ∀ n, book.Settles [n] (refer n)) (f : Formula) :
    book.Settles (f.names family) (f.expand ⟨limit, rule, family, refer⟩) := by
  induction f using Formula.operand_induction with
  | ref name => exact h name
  | family stem => exact expandNames_settles h _ _
  | number f => exact (settles_liftExcept _).bind fun x => settles_pure _
  | scale a f ih =>
    apply (settles_liftExcept _).bind
    intro x
    have hall := ih.bind (fun as => settles_pure (as.map (Alternative.scaled · x)))
    rwa [List.append_nil] at hall
  | neg a ih =>
    have hall := ih.bind (fun as => settles_pure (as.map (Alternative.scaled · (-1))))
    rwa [List.append_nil] at hall
  | binary f a b hab iha ihb =>
    rw [Formula.names_of_operands family hab, Formula.expand_of_operands _ hab]
    apply iha.bind
    intro as
    have hright := ihb.bind fun bs => settles_liftExcept (f.combine limit rule as bs)
    rwa [List.append_nil] at hright

end Formulas

/-- A rule is kept after all that it refers to; if one of them fails, it is noted for none. -/
theorem resolveRule_settles {refer : String → Query (List Alternative)} {rule : Rule}
    (hr : book.rule? name = some rule) (h : ∀ n, book.Settles [n] (refer n)) :
    Ensures (fun p => book.Holds stack names p ∧ p.slots.get? name = none)
      (book.resolveRule refer rule) (fun _ => book.Holds stack ([name] ++ names))
      (book.Stable stack) := by
  obtain rfl := name_of_rule? hr
  rintro p ⟨hp, hslot⟩
  have hexpand : book.Settles (rule.formula.names book.extending)
      (rule.formula.expand (book.surroundings rule.name refer)) := expand_settles h rule.formula
  have henter : book.Holds (rule.name :: stack) names (p.enter rule.name) := by
    refine ⟨⟨hp.opened.enter hslot, ?_⟩, ?_⟩
    · simpa only [Closed, Progress.known?_enter_of_new hslot] using hp.closed
    · simpa only [Progress.known?_enter_of_new hslot] using hp.known
  have hafter := hexpand _ names (p.enter rule.name) henter
  cases he : (rule.formula.expand (book.surroundings rule.name refer)).ask (p.enter rule.name) with
  | mk r p' =>
    rw [he] at hafter
    cases r with
    | error e =>
      rw [ask_resolveRule_error he]
      refine ⟨hafter.opened.abandon, ?_⟩
      simpa only [Closed, hafter.opened.known?_abandon] using hafter.closed
    | ok as =>
      rw [ask_resolveRule_ok he]
      have hkeep (n : String) :
          ((p'.finish rule.name (Alternative.distinct as)).known? n).isSome ↔
          n = rule.name ∨ (p'.known? n).isSome := by
        rw [Progress.known?_finish]
        split <;> simp [*]
      refine ⟨⟨hafter.opened.finish _, ?_⟩, ?_⟩
      · intro n m hn hstep
        apply (hkeep m).mpr
        obtain rfl | hn := (hkeep n).mp hn
        -- the rule itself: its names have been seen to
        · obtain ⟨rule', hr', hrule, hm⟩ := refers_iff.mp hstep
          rw [hr] at hr'
          obtain rfl := Option.some.inj hr'
          exact .inr (hafter.known m (List.mem_append_left _ hm) hrule)
        · exact .inr (hafter.closed n m hn hstep)
      · intro n hn hrule
        apply (hkeep n).mpr
        obtain rfl | hn := List.mem_cons.mp hn
        · exact .inl rfl
        · exact .inr (hafter.known n (List.mem_append_right _ hn) hrule)

theorem alternativesWithin_settles (fuel : Nat) (name : String) :
    book.Settles [name] (book.alternativesWithin fuel name) := by
  induction fuel generalizing name with
  | zero => exact fun stack names p hp => hp.toStable
  | succ fuel ih =>
    intro stack names p hp
    rw [ask_alternativesWithin_succ]
    cases hslot : p.slots.get? name with
    | some slot =>
      cases slot with
      | resolving => exact hp.toStable
      | resolved as =>
        refine ⟨hp.toStable, fun n hn hrule => ?_⟩
        obtain rfl | hn := List.mem_cons.mp hn
        · exact Option.isSome_iff_exists.mpr ⟨as, Progress.known?_eq_some_iff.mpr hslot⟩
        · exact hp.known n hn hrule
    | none =>
      cases hr : book.rule? name with
      | some rule => exact resolveRule_settles hr ih p ⟨hp, hslot⟩
      | none =>
        refine ⟨hp.toStable, fun n hn hrule => ?_⟩
        obtain rfl | hn := List.mem_cons.mp hn
        · rw [isRule_eq, hr] at hrule
          cases hrule
        · exact hp.known n hn hrule

theorem alternatives_settles (name : String) : book.Settles [name] (book.alternatives name) :=
  alternativesWithin_settles _ name

theorem resolve_settles (h : book.isRule name) : book.Settles [name] (book.resolve name) := by
  have halternatives : book.Settles [name] (book.alternatives name) := alternatives_settles name
  have hall := halternatives.bind fun as => settles_liftExcept (book.combination name as)
  rw [resolve, if_pos h]
  exact hall

theorem combinations_settles (wanted : String → Bool) (names : List String) :
    book.Settles names (book.combinations wanted names) := by
  induction names with
  | nil => exact settles_pure []
  | cons n ns ih =>
    apply (alternatives_settles n).bind
    intro as
    split
    · exact ih
    · have hlift : book.Settles [] (liftExcept (book.combination n as)) := settles_liftExcept _
      have hall := hlift.bind fun c => ih.bind fun cs => settles_pure (c :: cs)
      rwa [List.append_nil, List.nil_append] at hall

end Rulebook

end DesignLoads
