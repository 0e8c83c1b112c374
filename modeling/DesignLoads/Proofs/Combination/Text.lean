import DesignLoads.Combination
import DesignLoads.Proofs.Decimal.Arithmetic
import DesignLoads.Proofs.Rule

/-! The text of a combination is a rule. Its alternatives are read as a choice between sums of
terms; a minus in front of the first term belongs to the number of that term, and a later one
negates its term. -/

namespace DesignLoads

open Grammar Reading

theorem isName_of_mem_refs {f : Formula} (h : f.Symbolic ∨ f.IsNumber ∨ f.IsNegated) :
    ∀ n ∈ f.refs, isName n.toList := by
  induction f with
  | ref name =>
    obtain h | ⟨_, ⟨⟩⟩ | ⟨_, ⟨⟩⟩ := h
    intro n hn
    rwa [List.mem_singleton.mp hn]
  | family stem | number f => simp [Formula.refs]
  | scale a f ih =>
    obtain h | ⟨_, ⟨⟩⟩ | ⟨_, ⟨⟩⟩ := h
    exact ih (.inl h)
  | neg a ih =>
    obtain h | ⟨_, ⟨⟩⟩ | ⟨g, hg⟩ := h
    · exact ih (.inl h)
    · exact ih (.inr (.inl ⟨g, Formula.neg.inj hg⟩))
  | sum a b iha ihb =>
    obtain h | ⟨_, ⟨⟩⟩ | ⟨_, ⟨⟩⟩ := h
    obtain ⟨ha, hb⟩ | ⟨ha, hb⟩ := h
    · exact List.forall_mem_append.mpr ⟨iha (.inl ha), ihb hb⟩
    · exact List.forall_mem_append.mpr ⟨iha (.inr (.inl ha)), ihb (.inl hb)⟩
  | product a b iha ihb =>
    obtain ⟨ha, hb⟩ | ⟨_, ⟨⟩⟩ | ⟨_, ⟨⟩⟩ := h
    exact List.forall_mem_append.mpr ⟨iha (.inl ha), ihb (.inl hb)⟩
  | zip a b iha ihb | choice a b iha ihb =>
    obtain ⟨ha, hb⟩ | ⟨_, ⟨⟩⟩ | ⟨_, ⟨⟩⟩ := h
    exact List.forall_mem_append.mpr
      ⟨iha (ha.imp_right .inl), ihb (hb.imp_right .inl)⟩

/-- The names in a formula that was read are names. -/
theorem Rule.isName_of_parse {text : String} {rule : Rule} (h : Rule.parse text = .ok rule) :
    isName rule.name.toList ∧ ∀ n ∈ rule.formula.refs, isName n.toList := by
  obtain ⟨hname, _, _, v, hv, hformula⟩ := Rule.parse_eq_ok h
  have hshape := (folded_of_operand hv).1.toFormula
  rw [← hformula] at hshape
  exact ⟨hname, isName_of_mem_refs (hshape.imp_right .inl)⟩

namespace LoadCase

def termFormula (e : String × Float) : Formula :=
  if e.2.abs == 1 then .ref e.1 else .scale (.ref e.1) (.number e.2.abs)

def firstFormula (e : String × Float) : Formula :=
  if e.2 < 0 then
    if e.2.abs == 1 then .neg (.ref e.1) else .scale (.ref e.1) (.neg (.number e.2.abs))
  else termFormula e

def laterFormula (e : String × Float) : Formula :=
  if e.2 < 0 then .neg (termFormula e) else termFormula e

def formula (c : LoadCase) : Formula :=
  match c.entries with
  | [] => .number (.number 0)
  | e :: es => es.foldl (fun f e => .sum f (laterFormula e)) (firstFormula e)

/-- A term that is printed: its base load case has a name that can be read, and its coefficient is a
finite number. -/
structure Printable (e : String × Float) : Prop where
  name : isName e.1.toList
  finite : e.2.isFinite
  nonzero : (e.2 == 0) = false

variable {e : String × Float} {s : List Char} {f : Formula}

theorem Printable.readsBack (h : Printable e) : ReadsBack e.2.abs := by
  obtain ⟨hfin, _, hpos, _⟩ := abs_cases h.finite h.nonzero
  exact exists_numeral_chars hfin hpos

theorem prints_name (h : isName e.1.toList) :
    Prints .atom e.1.toList (.symbolic (.ref e.1)) := by
  have hleaf := Leaf.name h
  rw [String.ofList_toList] at hleaf
  exact ⟨_, .leaf hleaf, rfl, rfl⟩

theorem prints_number (h : Printable e) :
    Prints .atom (Layout.plain.chars e.2.abs) (.numeric (.number e.2.abs)) := by
  obtain ⟨d, hd, hvalue⟩ := h.readsBack
  refine ⟨_, .leaf (.number hd), rfl, ?_⟩
  rw [← hvalue]
  rfl

theorem prints_term (h : Printable e) :
    Prints (.chain .product) (termChars e) (.symbolic (termFormula e)) := by
  unfold termChars termFormula
  split
  · exact (prints_name h.name).of_rank_le (by decide)
  · exact ((prints_number h).of_rank_le (by decide)).binary .mul rfl
      ((prints_name h.name).of_rank_le (by decide)) blank_nil blank_nil rfl

/-- A minus in front binds tighter than the product behind it. -/
theorem prints_first (h : Printable e) :
    Prints (.chain .sum) ((if e.2 < 0 then ['-'] else []) ++ termChars e)
      (.symbolic (firstFormula e)) := by
  unfold firstFormula
  by_cases hneg : e.2 < 0
  · rw [if_pos hneg, if_pos hneg, termChars]
    split
    · have hname : Prints .signed e.1.toList (.symbolic (.ref e.1)) :=
        (prints_name h.name).of_rank_le (by decide)
      exact hname.neg.of_rank_le (by decide)
    · have hnumber : Prints .signed (Layout.plain.chars e.2.abs) (.numeric (.number e.2.abs)) :=
        (prints_number h).of_rank_le (by decide)
      have hproduct : Prints (.chain .product) _ _ :=
        (hnumber.neg.of_rank_le (by decide)).binary .mul rfl
          ((prints_name h.name).of_rank_le (by decide)) blank_nil blank_nil rfl
      exact hproduct.of_rank_le (by decide)
  · rw [if_neg hneg, if_neg hneg]
    exact (prints_term h).of_rank_le (by decide)

theorem prints_later (h : Printable e) (hs : Prints (.chain .sum) s (.symbolic f)) :
    Prints (.chain .sum) (s ++ laterTermChars e) (.symbolic (.sum f (laterFormula e))) := by
  have hterm := prints_term h
  unfold laterTermChars laterFormula
  split
  · exact hs.binary .sub rfl hterm Formula.blank_space Formula.blank_space rfl
  · exact hs.binary .add rfl hterm Formula.blank_space Formula.blank_space rfl

theorem prints_terms {es : List (String × Float)} (h : ∀ e ∈ es, Printable e)
    (hs : Prints (.chain .sum) s (.symbolic f)) :
    Prints (.chain .sum) (s ++ es.flatMap laterTermChars)
      (.symbolic (es.foldl (fun f e => .sum f (laterFormula e)) f)) := by
  induction es generalizing s f with
  | nil => simpa using hs
  | cons e es ih =>
    rw [List.flatMap_cons, ← List.append_assoc]
    exact ih (fun d hd => h d (List.mem_cons_of_mem e hd))
      (prints_later (h e List.mem_cons_self) hs)

/-- The text of a load case is read as a sum of its terms. -/
theorem exists_prints {c : LoadCase} (h : ∀ e ∈ c.entries, Printable e) :
    ∃ v, Prints (.chain .sum) c.chars v ∧ v.toFormula = c.formula := by
  unfold chars formula
  cases hc : c.entries with
  | nil =>
    have hzero : Decimal.Numeral ['0'] ⟨Decimal.ofDigits ['0'], 0⟩ :=
      Decimal.numeral_whole (Decimal.isDigit_zeros 1) (by simp)
    have hprints : Prints .atom ['0'] (.numeric (.number 0)) :=
      ⟨_, .leaf (.number hzero), rfl, rfl⟩
    exact ⟨_, hprints.of_rank_le (by decide), rfl⟩
  | cons e es =>
    rw [hc] at h
    have hfirst := prints_first (h e List.mem_cons_self)
    exact ⟨_, prints_terms (fun d hd => h d (List.mem_cons_of_mem e hd)) hfirst, rfl⟩

end LoadCase

namespace Combination

def formula : List LoadCase → Formula
  | [] => .number (.number 0)
  | a :: as => as.foldl (fun f a => .choice f a.formula) a.formula

theorem prints_choices {as : List LoadCase} {s : List Char} {f : Formula}
    (h : ∀ a ∈ as, ∀ e ∈ a.entries, LoadCase.Printable e)
    (hs : ∃ v, Prints (.chain .choice) s v ∧ v.toFormula = f) :
    ∃ v, Prints (.chain .choice) (s ++ as.flatMap fun a => ' ' :: '|' :: ' ' :: a.chars) v ∧
      v.toFormula = as.foldl (fun f a => .choice f a.formula) f := by
  induction as generalizing s f with
  | nil => simpa using hs
  | cons a as ih =>
    obtain ⟨v, hv, rfl⟩ := hs
    obtain ⟨w, hw, hformula⟩ := LoadCase.exists_prints (h a List.mem_cons_self)
    have hright : Prints (.chain .zip) a.chars w := hw.of_rank_le (by decide)
    have hboth : Prints (.chain .choice) (s ++ ' ' :: '|' :: ' ' :: a.chars) (v.choice w) :=
      hv.binary .choice rfl hright Formula.blank_space Formula.blank_space rfl
    rw [List.flatMap_cons, ← List.append_assoc]
    apply ih fun b hb => h b (List.mem_cons_of_mem a hb)
    exact ⟨_, hboth, congrArg (Formula.choice v.toFormula) hformula⟩

/-- A combination whose text is a rule with the same alternatives under a limit: its terms are
printable, none has its own name, and its alternatives are different and not too many. -/
structure Printable (limit : Option Nat) (c : Combination) : Prop where
  name : isName c.name.toList
  nonempty : c.alternatives ≠ []
  terms : ∀ a ∈ c.alternatives, ∀ e ∈ a.entries, LoadCase.Printable e
  others : ∀ a ∈ c.alternatives, ∀ e ∈ a.entries, e.1 ≠ c.name
  nodup : c.alternatives.Nodup
  within : ∀ l, limit = some l → c.alternatives.length ≤ l

/-- The text of a combination is a rule of its name, and a choice between its alternatives. -/
theorem Printable.parse_chars {limit : Option Nat} {c : Combination} (hc : c.Printable limit) :
    ∃ source, Rule.parse c.text = .ok ⟨c.name, source, formula c.alternatives⟩ := by
  have h := hc.terms
  cases has : c.alternatives with
  | nil => exact absurd has hc.nonempty
  | cons a as =>
    rw [has] at h
    obtain ⟨v, hv, hformula⟩ := LoadCase.exists_prints (h a List.mem_cons_self)
    obtain ⟨w, hw, hchoice⟩ := prints_choices (fun b hb => h b (List.mem_cons_of_mem a hb))
      ⟨v, hv.of_rank_le (by decide), hformula⟩
    have htext : c.text = c.name ++ " = " ++
        String.ofList (a.chars ++ as.flatMap fun a => ' ' :: '|' :: ' ' :: a.chars) := by
      apply String.toList_injective
      rw [text, chars, has]
      simp
    rw [← String.toList_ofList (l := a.chars ++ _)] at hw
    obtain ⟨source, hparse⟩ := Rule.parse_of_prints hc.name hw
    rw [htext, hparse, hchoice]
    exact ⟨source, rfl⟩

end Combination

end DesignLoads
