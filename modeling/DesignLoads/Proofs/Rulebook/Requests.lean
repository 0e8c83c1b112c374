import DesignLoads.Proofs.Rulebook.Memoization

/-! The requests that a resolution makes on its way. Each asks for a name at some moment, with the
progress made until then, and may succeed or fail whatever becomes of the whole. A request that
fails asks for a name that has no alternatives from the beginning either. -/

namespace DesignLoads

open Query

/-- To expand `f` from the progress `p` on comes to ask for `n`, with the progress `q`. -/
inductive Formula.Asks (env : Surroundings Query) : Formula → Progress → String → Progress → Prop
  | ref {n : String} {p : Progress} : Asks env (.ref n) p n p
  | family {stem n : String} {before rest : List String} {p q : Progress} {as : List Alternative}
      (hnames : env.family stem = before ++ n :: rest)
      (hbefore : (expandNames env [] before).ask p = (.ok as, q)) : Asks env (.family stem) p n q
  | scale {a : Formula} {f : Factor} {x : Float} {p q : Progress} {n : String}
      (hvalue : f.value = .ok x) (h : Asks env a p n q) : Asks env (.scale a f) p n q
  | neg {a : Formula} {p q : Progress} {n : String} (h : Asks env a p n q) : Asks env (.neg a) p n q
  | left {f a b : Formula} {p q : Progress} {n : String} (hf : f.operands = some (a, b))
      (h : Asks env a p n q) : Asks env f p n q
  | right {f a b : Formula} {p q r : Progress} {n : String} {as : List Alternative}
      (hf : f.operands = some (a, b)) (hleft : (a.expand env).ask p = (.ok as, q))
      (h : Asks env b q n r) : Asks env f p n r

namespace Formula

/-- What is asked for is in the formula, and is asked at a moment that the invariant holds. -/
theorem Asks.invariant {env : Surroundings Query} {I : Progress → Prop} {f : Formula}
    {p q : Progress} {n : String} {answer : String → Except Failure (List Alternative)}
    (h : f.Asks env p n q) (hrefer : ∀ m ∈ f.names env.family, Answers I (env.refer m) (answer m))
    (hp : I p) : n ∈ f.names env.family ∧ I q := by
  induction h with
  | ref => exact ⟨List.mem_singleton.mpr rfl, hp⟩
  | @family stem n before rest p q as hnames hbefore =>
    rw [names, hnames] at hrefer ⊢
    refine ⟨by simp, ?_⟩
    have hans : Answers I (expandNames env [] before) _ :=
      expandNames_answers (fun m hm => hrefer m (List.mem_append_left _ hm)) []
    have hq := (hans p hp).2
    rwa [hbefore] at hq
  | scale _ _ ih => exact ih hrefer hp
  | neg _ ih => exact ih hrefer hp
  | left hf _ ih =>
    rw [names_of_operands _ hf] at hrefer ⊢
    obtain ⟨hn, hq⟩ := ih (fun m hm => hrefer m (List.mem_append_left _ hm)) hp
    exact ⟨List.mem_append_left _ hn, hq⟩
  | @right f a b p q r n as hf hleft _ ih =>
    rw [names_of_operands _ hf] at hrefer ⊢
    have hans : Answers I (a.expand env) _ :=
      expand_answers fun m hm => hrefer m (List.mem_append_left _ hm)
    have hmiddle := (hans p hp).2
    rw [hleft] at hmiddle
    obtain ⟨hn, hr⟩ := ih (fun m hm => hrefer m (List.mem_append_right _ hm)) hmiddle
    exact ⟨List.mem_append_right _ hn, hr⟩

end Formula

/-- A name that is asked for with some fuel, at some moment. -/
structure Request where
  fuel : Nat
  name : String
  progress : Progress

def Request.stack (r : Request) : List String := r.progress.path.reverse

namespace Rulebook

variable {book : Rulebook} {r r' : Request}

def outcome (book : Rulebook) (r : Request) : Except Failure (List Alternative) :=
  ((book.alternativesWithin r.fuel r.name).ask r.progress).1

/-- A request for a rule for which nothing is noted leads to those of its formula. -/
inductive Leads (book : Rulebook) : Request → Request → Prop
  | intro {fuel : Nat} {n m : String} {p q : Progress} {rule : Rule}
      (hslot : p.slots.get? n = none) (hrule : book.rule? n = some rule)
      (h : rule.formula.Asks (book.surroundings rule.name (book.alternativesWithin fuel))
        (p.enter rule.name) m q) : Leads book ⟨fuel + 1, n, p⟩ ⟨fuel, m, q⟩

/-- A request at a moment that can arise: the rules that are being resolved are marked, and refer to
one another down to the name that is asked for; what is known is right, and there is fuel for the
other rules. -/
structure Arises (book : Rulebook) (r : Request) : Prop where
  sound : book.Sound r.stack .start r.progress
  nested : book.Nested r.stack
  name : book.isRule r.name → book.Nested (r.name :: r.stack)
  fuel : (book.ruleNames.filter (· ∉ r.stack)).length < r.fuel

theorem Arises.leads (h : book.Arises r) (hstep : book.Leads r r') : book.Arises r' := by
  cases hstep with
  | @intro fuel n m p q rule hslot hrule hasks =>
    obtain rfl := name_of_rule? hrule
    have hsound : book.Sound p.path.reverse .start p := h.sound
    have hnested : book.Nested (rule.name :: p.path.reverse) :=
      h.name (isRule_iff.mpr ⟨rule, hrule⟩)
    have hstep (m : String) (hm : m ∈ rule.formula.names book.extending) (hrule' : book.isRule m) :
        book.Nested (m :: rule.name :: p.path.reverse) :=
      hnested.cons (Refers.intro hrule hrule' hm)
    have hfuel : (book.ruleNames.filter (· ∉ rule.name :: p.path.reverse)).length < fuel := by
      have henough : (book.ruleNames.filter (· ∉ p.path.reverse)).length < fuel + 1 := h.fuel
      have hfewer :=
        fewer_off_stack (mem_ruleNames_of_rule? hrule) (hsound.opened.not_mem hslot)
      omega
    obtain ⟨hm, hq⟩ := hasks.invariant (I := book.Sound (rule.name :: p.path.reverse) .start)
      (fun m hm => alternativesWithin_answers hfuel hnested (hstep m hm)) (hsound.enter hslot)
    have hstack : (⟨fuel, m, q⟩ : Request).stack = rule.name :: p.path.reverse := by
      rw [Request.stack, hq.opened.path, List.reverse_reverse]
    refine ⟨?_, ?_, ?_, ?_⟩ <;> rw [hstack]
    · exact hq
    · exact hnested
    · exact hstep m hm
    · exact hfuel

theorem Arises.of_leads (h : book.Arises r) (hleads : Relation.ReflTransGen book.Leads r r') :
    book.Arises r' := by
  induction hleads with
  | refl => exact h
  | tail _ hstep ih => exact ih.leads hstep

theorem Arises.outcome_eq (h : book.Arises r) : book.outcome r = book.recompute r.stack r.name :=
  (alternativesWithin_answers h.fuel h.nested h.name r.progress h.sound).1

/-- A request fails only for a name that has no alternatives with nothing on the stack either. -/
theorem Arises.recompute_of_error {e : Failure} (h : book.Arises r) (he : book.outcome r = .error e)
    (as : List Alternative) : book.recompute [] r.name ≠ .ok as := by
  intro has
  rw [h.outcome_eq, recompute_of_nested h.name has] at he
  cases he

/-- A request while no rule is being resolved can arise. -/
theorem arises_of_sound {p : Progress} {fuel : Nat} (h : book.Sound [] .start p)
    (hfuel : book.rules.length < fuel) (name : String) : book.Arises ⟨fuel, name, p⟩ := by
  have hstack : (⟨fuel, name, p⟩ : Request).stack = [] := by
    rw [Request.stack, h.opened.path, List.reverse_reverse]
  refine ⟨?_, ?_, ?_, off_stack_lt hfuel _⟩ <;> rw [hstack]
  · exact h
  · exact nested_nil
  · exact nested_singleton

end Rulebook

end DesignLoads
