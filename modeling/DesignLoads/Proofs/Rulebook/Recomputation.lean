import DesignLoads.Proofs.Rulebook.References

/-! Resolution without a memory. The alternatives of a name are computed anew wherever they are
asked for; nothing is kept but the stack of the rules that are being resolved, which are different
rules, so that the recursion ends. A rule has alternatives only if no circle can be reached from it,
and then they depend on no part of the stack. -/

namespace DesignLoads

namespace Rulebook

/-- The failure of a reference to `name` from within itself, with the rules of `stack` being
resolved, innermost first. -/
def circle (stack : List String) (name : String) : Failure :=
  .circularReference name (name :: (stack.takeWhile (· ≠ name)).reverse ++ [name])

theorem fewer_off_stack {names stack : List String} {name : String} (hm : name ∈ names)
    (hs : name ∉ stack) :
    (names.filter (· ∉ name :: stack)).length < (names.filter (· ∉ stack)).length := by
  have he : names.filter (· ∉ name :: stack) = (names.filter (· ∉ stack)).filter (· ≠ name) := by
    rw [List.filter_filter]
    apply List.filter_congr
    intro n _
    simp [List.mem_cons, not_or]
  rw [he, List.length_filter_lt_length_iff_exists]
  exact ⟨name, List.mem_filter.mpr ⟨hm, by simpa using hs⟩, by simp⟩

/-- The alternatives of a name, computed anew. -/
def recompute (book : Rulebook) (stack : List String) (name : String) :
    Except Failure (List Alternative) :=
  match _h : book.rule? name with
  | none => .ok [.atomic name]
  | some rule =>
    if _hs : name ∈ stack then .error (circle stack name)
    else (rule.formula.expand (book.surroundings rule.name fun n =>
      book.recompute (name :: stack) n)).map Alternative.distinct
termination_by (book.ruleNames.filter (· ∉ stack)).length
decreasing_by exact fewer_off_stack (mem_ruleNames_of_rule? _h) _hs

variable {book : Rulebook} {stack : List String} {name : String} {rule : Rule}

theorem recompute_of_none (h : book.rule? name = none) :
    book.recompute stack name = .ok [.atomic name] := by
  rw [recompute]
  split
  · rfl
  · simp_all

theorem recompute_of_mem (h : book.rule? name = some rule) (hs : name ∈ stack) :
    book.recompute stack name = .error (circle stack name) := by
  rw [recompute]
  split
  · simp_all
  · rw [dif_pos hs]

theorem recompute_of_not_mem (h : book.rule? name = some rule) (hs : name ∉ stack) :
    book.recompute stack name =
      (rule.formula.expand (book.surroundings name (book.recompute (name :: stack)))).map
        Alternative.distinct := by
  rw [recompute]
  split
  · simp_all
  · rename_i other ho
    obtain rfl : other = rule := by simpa [h] using ho.symm
    rw [dif_neg hs, name_of_rule? h]

theorem recompute_names {as : List Alternative} (hr : book.rule? name = some rule)
    (h : book.recompute stack name = .ok as) : name ∉ stack ∧
      ∀ n ∈ rule.formula.names book.extending, ∃ bs, book.recompute (name :: stack) n = .ok bs := by
  have hs : name ∉ stack := by
    intro hm
    rw [recompute_of_mem hr hm] at h
    cases h
  rw [recompute_of_not_mem hr hs] at h
  refine ⟨hs, ?_⟩
  cases he : rule.formula.expand (book.surroundings name (book.recompute (name :: stack))) with
  | ok bs => exact Formula.expand_refers he
  | error e =>
    rw [he] at h
    cases h

/-- Whatever a name with alternatives reaches has alternatives, and is not being resolved. -/
theorem recompute_reaches {m : String} (hr : book.Reaches name m) (hm : book.isRule m)
    {as : List Alternative} (h : book.recompute stack name = .ok as) :
    m ∉ stack ∧ ∃ higher bs, book.recompute higher m = .ok bs := by
  induction hr using Relation.ReflTransGen.head_induction_on generalizing stack as with
  | refl =>
    obtain ⟨rule, hrule⟩ := isRule_iff.mp hm
    exact ⟨(recompute_names hrule h).1, stack, as, h⟩
  | head hstep _ ih =>
    obtain ⟨rule, hrule, _, hn⟩ := refers_iff.mp hstep
    obtain ⟨bs, hb⟩ := (recompute_names hrule h).2 _ hn
    obtain ⟨hout, hbelow⟩ := ih hb
    exact ⟨fun hin => hout (List.mem_cons_of_mem _ hin), hbelow⟩

theorem isRule_of_onCircle (h : book.OnCircle name) : book.isRule name := by
  obtain ⟨m, _, hstep⟩ := Relation.TransGen.tail'_iff.mp h
  obtain ⟨_, _, hm, _⟩ := refers_iff.mp hstep
  exact hm

theorem recompute_not_onCircle {as : List Alternative} (h : book.recompute stack name = .ok as) :
    ¬ book.OnCircle name := by
  intro hc
  have hname := isRule_of_onCircle hc
  obtain ⟨m, hstep, hback⟩ := Relation.TransGen.head'_iff.mp hc
  obtain ⟨rule, hrule, _, hm⟩ := refers_iff.mp hstep
  obtain ⟨bs, hb⟩ := (recompute_names hrule h).2 m hm
  exact (recompute_reaches hback hname hb).1 List.mem_cons_self

/-- A name with alternatives reaches no circle. -/
theorem recompute_acyclic {m : String} {as : List Alternative}
    (h : book.recompute stack name = .ok as) (hr : book.Reaches name m) : ¬ book.OnCircle m := by
  intro hc
  obtain ⟨_, higher, bs, hb⟩ := recompute_reaches hr (isRule_of_onCircle hc) h
  exact recompute_not_onCircle hb hc

/-- The stack is there to find circles alone: alternatives do not depend on it, as long as the name
reaches nothing on it. -/
theorem recompute_of_clear {as : List Alternative} (h : book.recompute stack name = .ok as)
    {other : List String} (hclear : ∀ s ∈ other, ¬ book.Reaches name s) :
    book.recompute other name = .ok as := by
  induction stack, name using recompute.induct book generalizing other as with
  | case1 stack name hr =>
    rw [recompute_of_none hr] at h ⊢
    exact h
  | case2 stack name rule hr hs =>
    rw [recompute_of_mem hr hs] at h
    cases h
  | case3 stack name rule hr hs ih =>
    have hother : name ∉ other := fun hm => hclear name hm Relation.ReflTransGen.refl
    have hnames := (recompute_names hr h).2
    have hcircle := recompute_not_onCircle h
    rw [recompute_of_not_mem hr hs] at h
    rw [recompute_of_not_mem hr hother, ← h]
    congr 1
    apply expand_surroundings_congr
    intro n hn
    obtain ⟨bs, hb⟩ := hnames n hn
    by_cases hrule : book.isRule n
    · have hstep := Refers.intro hr hrule hn
      rw [hb]
      apply ih n hb
      intro s hs hreach
      obtain rfl | hs := List.mem_cons.mp hs
      -- the rule itself: reaching it from one of its own names closes a circle
      · exact hcircle (Relation.TransGen.head' hstep hreach)
      · exact hclear s hs (Relation.ReflTransGen.head hstep hreach)
    · have hnone : book.rule? n = none := by simpa [isRule_eq] using hrule
      rw [recompute_of_none hnone, recompute_of_none hnone]

/-- What a formula has been expanded to somewhere on the way it is expanded to by itself. -/
theorem expand_of_clear {f : Formula} {as : List Alternative}
    (h : f.expand (book.surroundings name (book.recompute stack)) = .ok as) :
    f.expand (book.surroundings name (book.recompute [])) = .ok as := by
  rw [← h]
  apply expand_surroundings_congr
  intro n hn
  obtain ⟨bs, hb⟩ : ∃ bs, book.recompute stack n = .ok bs := Formula.expand_refers h n hn
  rw [hb]
  exact recompute_of_clear hb (by simp)

/-- The alternatives of a rule are those of its formula, expanded by itself. -/
theorem expand_of_recompute {as : List Alternative} (hr : book.rule? name = some rule)
    (h : book.recompute stack name = .ok as) : ∃ bs,
      rule.formula.expand (book.surroundings name (book.recompute (name :: stack))) = .ok bs ∧
      rule.formula.expand (book.surroundings name (book.recompute [])) = .ok bs ∧
      as = Alternative.distinct bs := by
  rw [recompute_of_not_mem hr (recompute_names hr h).1] at h
  cases he : rule.formula.expand (book.surroundings name (book.recompute (name :: stack))) with
  | error e =>
    rw [he] at h
    cases h
  | ok bs =>
    rw [he] at h
    cases h
    exact ⟨bs, rfl, expand_of_clear he, rfl⟩

/-- A rule whose formula can be expanded is on no circle, and so has the alternatives of it. -/
theorem recompute_of_expand {bs : List Alternative} (hr : book.rule? name = some rule)
    (h : rule.formula.expand (book.surroundings name (book.recompute [])) = .ok bs) :
    book.recompute [] name = .ok (Alternative.distinct bs) := by
  have hsame : rule.formula.expand (book.surroundings name (book.recompute [name])) = .ok bs := by
    rw [← h]
    apply expand_surroundings_congr
    intro n hn
    obtain ⟨cs, hcs⟩ : ∃ cs, book.recompute [] n = .ok cs := Formula.expand_refers h n hn
    rw [hcs]
    apply recompute_of_clear hcs
    intro m hm hreach
    rw [List.mem_singleton.mp hm] at hreach
    have hrule : book.isRule n := hreach.isRule (isRule_iff.mpr ⟨rule, hr⟩)
    exact recompute_acyclic hcs hreach
      (Relation.TransGen.head' (Refers.intro hr hrule hn) hreach)
  rw [recompute_of_not_mem hr (by simp), hsame]
  rfl

end Rulebook

end DesignLoads
