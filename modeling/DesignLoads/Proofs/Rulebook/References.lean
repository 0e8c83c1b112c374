import DesignLoads.Proofs.Formula.Expansion
import DesignLoads.Rulebook.Resolution
import Mathlib.Data.List.Nodup
import Mathlib.Logic.Relation

/-! The reference graph of a rule book: which rules a rule refers to, by name or through a family,
and which rules it reaches. -/

namespace DesignLoads

namespace Rulebook

variable {book : Rulebook} {name : String} {rule : Rule}

/-- The index finds the rules of the list, each under its own name. -/
theorem rule?_eq_some_iff : book.rule? name = some rule ↔ rule ∈ book.rules ∧ rule.name = name := by
  simp only [rule?, Option.bind_eq_bind, Option.bind_eq_some_iff, book.indexed name]
  constructor
  · rintro ⟨position, hname, hrule⟩
    rw [hrule] at hname
    exact ⟨List.mem_of_getElem? hrule, Option.some.inj hname⟩
  · rintro ⟨hmem, rfl⟩
    obtain ⟨position, hrule⟩ := List.getElem?_of_mem hmem
    exact ⟨position, by rw [hrule]; rfl, hrule⟩

theorem isRule_iff : book.isRule name ↔ ∃ rule, book.rule? name = some rule := by
  rw [isRule, NameMap.contains, Option.isSome_iff_exists]
  constructor
  · rintro ⟨position, h⟩
    obtain ⟨rule, hrule, _⟩ := Option.map_eq_some_iff.mp ((book.indexed name position).mp h)
    exact ⟨rule, by rw [rule?, h]; exact hrule⟩
  · rintro ⟨rule, h⟩
    obtain ⟨position, h, _⟩ := Option.bind_eq_some_iff.mp h
    exact ⟨position, h⟩

theorem isRule_eq (book : Rulebook) (name : String) :
    book.isRule name = (book.rule? name).isSome := by
  rw [Bool.eq_iff_iff, isRule_iff, Option.isSome_iff_exists]

/-- A name has no two positions in an index. -/
theorem distinct (book : Rulebook) : (book.rules.map (·.name)).Nodup := by
  rw [List.Nodup, List.pairwise_iff_getElem]
  intro i j hi hj hlt heq
  have hindex (k : Nat) (hk : k < (book.rules.map (·.name)).length) :
      book.index.get? (book.rules.map (·.name))[k] = some k := by
    rw [book.indexed, ← List.getElem?_map, List.getElem?_eq_getElem hk]
  have hsame := hindex i hi
  rw [heq, hindex j hj] at hsame
  exact Nat.ne_of_gt hlt (Option.some.inj hsame)

theorem name_of_rule? (h : book.rule? name = some rule) : rule.name = name :=
  (rule?_eq_some_iff.mp h).2

/-- To look a rule up in the index is to search the list. -/
theorem rule?_eq_find? (book : Rulebook) (name : String) :
    book.rule? name = book.rules.find? (·.name = name) := by
  cases hfind : book.rules.find? (·.name = name) with
  | some rule =>
    have hname : rule.name = name := by simpa using List.find?_some hfind
    exact rule?_eq_some_iff.mpr ⟨List.mem_of_find?_eq_some hfind, hname⟩
  | none =>
    rw [Option.eq_none_iff_forall_ne_some]
    intro rule h
    obtain ⟨hmem, hname⟩ := rule?_eq_some_iff.mp h
    simpa [hname] using List.find?_eq_none.mp hfind rule hmem

theorem mem_ruleNames_of_rule? (h : book.rule? name = some rule) : name ∈ book.ruleNames := by
  obtain ⟨hm, rfl⟩ := rule?_eq_some_iff.mp h
  exact List.mem_map_of_mem hm

theorem isRule_iff_mem_ruleNames : book.isRule name ↔ name ∈ book.ruleNames := by
  rw [isRule_iff]
  constructor
  · rintro ⟨rule, hr⟩
    exact mem_ruleNames_of_rule? hr
  · intro h
    obtain ⟨rule, hm, rfl⟩ := List.mem_map.mp h
    exact ⟨rule, rule?_eq_some_iff.mpr ⟨hm, rfl⟩⟩

/-- A family has the rules whose names are proper extensions of its stem. -/
theorem mem_extending_iff {stem : String} : name ∈ book.extending stem ↔
    book.isRule name ∧ stem.toList <+: name.toList ∧ stem.length < name.length := by
  rw [isRule_iff_mem_ruleNames]
  simp only [extending, List.mem_filter, Bool.and_eq_true, List.isPrefixOf_iff_prefix,
    decide_eq_true_eq]
  refine and_congr_right fun _ => and_congr_right fun hp => ?_
  have hle : stem.length ≤ name.length := by
    simpa only [String.length_toList] using hp.length_le
  constructor
  · intro hne
    apply Nat.lt_of_le_of_ne hle
    intro hl
    have heq := hp.eq_of_length (by simpa only [String.length_toList] using hl)
    exact hne (String.toList_injective heq).symm
  · rintro hlt rfl
    exact Nat.lt_irrefl _ hlt

/-- A rule refers to another if that is named in its formula, or belongs to a family that is. -/
def Refers (book : Rulebook) (r s : String) : Prop :=
  ∃ rule ∈ book.rules, rule.name = r ∧ book.isRule s ∧
    (s ∈ rule.formula.refs ∨
      ∃ stem ∈ rule.formula.stems, stem.toList <+: s.toList ∧ stem.length < s.length)

/-- The rules that a rule refers to, directly or through others, and the rule itself. -/
def Reaches (book : Rulebook) : String → String → Prop := Relation.ReflTransGen book.Refers

/-- A rule that refers to itself, directly or through others. -/
def OnCircle (book : Rulebook) (name : String) : Prop := Relation.TransGen book.Refers name name

theorem refers_iff {r s : String} : book.Refers r s ↔
    ∃ rule, book.rule? r = some rule ∧ book.isRule s ∧ s ∈ rule.formula.names book.extending := by
  simp only [Refers, rule?_eq_some_iff, Formula.mem_names_iff, mem_extending_iff]
  grind

theorem Refers.intro {r s : String} (hr : book.rule? r = some rule) (hs : book.isRule s)
    (hm : s ∈ rule.formula.names book.extending) : book.Refers r s :=
  refers_iff.mpr ⟨rule, hr, hs, hm⟩

theorem Reaches.isRule {n m : String} (h : book.Reaches n m) (hm : book.isRule m) :
    book.isRule n := by
  obtain rfl | ⟨k, hk, _⟩ := Relation.ReflTransGen.cases_head h
  · exact hm
  · obtain ⟨rule, hr, _⟩ := refers_iff.mp hk
    exact isRule_iff.mpr ⟨rule, hr⟩

/-- A rule reaches the rules that its names reach. A name without a rule reaches no other. -/
theorem Reaches.head_of_mem {n m : String} (h : book.Reaches n m) (hr : book.rule? name = some rule)
    (hn : n ∈ rule.formula.names book.extending) (hm : book.isRule m) : book.Reaches name m :=
  Relation.ReflTransGen.head (Refers.intro hr (h.isRule hm) hn) h

/-- The rule of `r` names `n`, or a family with `n` in it; `n` need not be a rule. -/
def Mentions (book : Rulebook) (r n : String) : Prop :=
  ∃ rule, book.rule? r = some rule ∧ n ∈ rule.formula.names book.extending

/-- The names that a name stands for, directly or through others, and the name itself. -/
def Involves (book : Rulebook) : String → String → Prop := Relation.ReflTransGen book.Mentions

theorem Reaches.involves {m : String} (h : book.Reaches name m) : book.Involves name m := by
  have hstep : book.Refers ≤ book.Mentions := by
    intro r s hrs
    obtain ⟨rule, hr, _, hs⟩ := refers_iff.mp hrs
    exact ⟨rule, hr, hs⟩
  exact Relation.ReflTransGen.mono hstep _ _ h

/-- A set of names that contains what its rules mention contains what they involve. -/
theorem Involves.mem_of_closed {names : List String} (h : ∀ rule ∈ book.rules, rule.name ∈ names →
    ∀ n ∈ rule.formula.names book.extending, n ∈ names) {m : String} (hname : name ∈ names)
    (hm : book.Involves name m) : m ∈ names := by
  induction hm with
  | refl => exact hname
  | tail _ hstep ih =>
    obtain ⟨rule, hrule, hn⟩ := hstep
    obtain ⟨hmem, rfl⟩ := rule?_eq_some_iff.mp hrule
    exact h rule hmem ih _ hn

/-- There is no circle if references go down in rank. -/
theorem not_onCircle_of_rank {rank : String → Nat} (h : ∀ rule ∈ book.rules,
    ∀ n ∈ rule.formula.names book.extending, book.isRule n → rank n < rank rule.name) (m : String) :
    ¬ book.OnCircle m := by
  have hstep : ∀ r s, book.Refers r s → rank s < rank r := by
    intro r s hrs
    obtain ⟨rule, hr, hs, hn⟩ := refers_iff.mp hrs
    obtain ⟨hm, rfl⟩ := rule?_eq_some_iff.mp hr
    exact h rule hm s hn hs
  have hdown : ∀ s, Relation.TransGen book.Refers m s → rank s < rank m := by
    intro s hs
    induction hs with
    | single hlast => exact hstep _ _ hlast
    | tail _ hlast ih => exact Nat.lt_trans (hstep _ _ hlast) ih
  intro hc
  exact Nat.lt_irrefl _ (hdown m hc)

section Counterparts

/-! Two rule books with rules of the same names, in the same order, which `R` relates one by one. -/

variable {book' : Rulebook} {R : Rule → Rule → Prop}
  (h : book.rules.Forall₂ (fun r r' => r'.name = r.name ∧ R r r') book'.rules)

include h

theorem extending_of_forall₂ : book'.extending = book.extending := by
  have hnames : book'.ruleNames = book.ruleNames := by
    unfold ruleNames
    generalize book.rules = rules, book'.rules = rules' at h
    induction h with
    | nil => rfl
    | cons hr _ ih => rw [List.map_cons, List.map_cons, hr.1, ih]
  funext stem
  rw [extending, hnames, extending]

/-- A name has a rule in both books or in none. -/
theorem rule?_of_forall₂ (name : String) : (book.rule? name = none ∧ book'.rule? name = none) ∨
    ∃ rule rule', book.rule? name = some rule ∧ book'.rule? name = some rule' ∧ R rule rule' := by
  rw [rule?_eq_find?, rule?_eq_find?]
  generalize book.rules = rules, book'.rules = rules' at h
  induction h with
  | nil => exact .inl ⟨rfl, rfl⟩
  | @cons rule rule' rules rules' hr _ ih =>
    by_cases hname : rule.name = name
    · right
      refine ⟨rule, rule', List.find?_cons_of_pos ?_, List.find?_cons_of_pos ?_, hr.2⟩
      · simpa using hname
      · simpa [hr.1] using hname
    · rw [List.find?_cons_of_neg (by simpa using hname),
        List.find?_cons_of_neg (by simpa [hr.1] using hname)]
      exact ih

end Counterparts

theorem expand_surroundings_congr {refer refer' : String → Except Failure (List Alternative)}
    {f : Formula} (h : ∀ n ∈ f.names book.extending, refer' n = refer n) :
    f.expand (book.surroundings name refer') = f.expand (book.surroundings name refer) :=
  Formula.expand_congr (by rfl) (by rfl) (fun _ _ => rfl) h

section SameRules

variable {book' : Rulebook} (h : book'.rules = book.rules)

include h

theorem rule?_of_rules (name : String) : book'.rule? name = book.rule? name := by
  rw [rule?_eq_find?, h, rule?_eq_find?]

theorem extending_of_rules : book'.extending = book.extending := by
  funext stem
  rw [extending, ruleNames, h, extending, ruleNames]

end SameRules

/-- Rules of which each is referred to by the next: a path of the reference graph, innermost rule
first. -/
structure Nested (book : Rulebook) (stack : List String) : Prop where
  rules : ∀ n ∈ stack, book.isRule n
  chain : stack.IsChain fun inner outer => book.Refers outer inner

theorem nested_nil : book.Nested [] := ⟨by simp, by simp⟩

theorem nested_singleton (h : book.isRule name) : book.Nested [name] := ⟨by simpa using h, by simp⟩

theorem Nested.cons {stack : List String} {m : String} (h : book.Nested (name :: stack))
    (hstep : book.Refers name m) : book.Nested (m :: name :: stack) := by
  obtain ⟨_, _, hm, _⟩ := refers_iff.mp hstep
  refine ⟨?_, List.isChain_cons_cons.mpr ⟨hstep, h.chain⟩⟩
  intro n hn
  obtain rfl | hn := List.mem_cons.mp hn
  · exact hm
  · exact h.rules n hn

/-- The innermost rule is reached from all others. -/
theorem Nested.reached {stack : List String} (h : book.Nested (name :: stack)) :
    ∀ s ∈ stack, Relation.TransGen book.Refers s name := by
  induction stack generalizing name with
  | nil => simp
  | cons m ms ih =>
    obtain ⟨hstep, hchain⟩ := List.isChain_cons_cons.mp h.chain
    have hrest : book.Nested (m :: ms) :=
      ⟨fun n hn => h.rules n (List.mem_cons_of_mem name hn), hchain⟩
    intro s hs
    obtain rfl | hs := List.mem_cons.mp hs
    · exact Relation.TransGen.single hstep
    · exact (ih hrest s hs).tail hstep

end Rulebook

end DesignLoads
