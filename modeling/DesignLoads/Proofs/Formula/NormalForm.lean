import DesignLoads.Proofs.Decimal.Order
import DesignLoads.Proofs.Decimal.ToFloat
import DesignLoads.Proofs.Formula.Folding

/-! The normal form of what is read. Every part of a formula that was read is a load, in the sense
that a name takes part in it, but for numbers at the few positions that do not fold them away: alone,
in sums, zips and choices, and with a sign of their own on the right of a sum. -/

namespace DesignLoads

namespace Decimal

theorem not_isNaN_toFloat (d : Decimal) : ¬ d.toFloat.isNaN :=
  fun h => (unsigned_unpack d.toBits_toFloat_le).2 (isNaN_iff.mp h)

/-- A decimal is read as a number that is zero or more. -/
theorem zero_le_toFloat (d : Decimal) : 0 ≤ d.toFloat := by
  rw [le_iff_rank (by decide) d.not_isNaN_toFloat]
  obtain ⟨hsign, hnum⟩ := unsigned_unpack d.toBits_toFloat_le
  change unpackedRank (.zero .positive) ≤ unpackedRank d.toFloat.toModel.unpack
  cases hu : d.toFloat.toModel.unpack with
  | notANumber => exact absurd hu hnum
  | zero s => exact le_refl _
  | infinity s =>
    rw [hu] at hsign
    cases hsign
    exact Prod.Lex.le_iff.mpr (.inl two_pos)
  | finite s =>
    rw [hu] at hsign
    cases hsign
    exact Prod.Lex.le_iff.mpr (.inl one_pos)

end Decimal

namespace Formula

inductive Side where
  | only
  | left
  | right

def children : Formula → List (Side × Formula)
  | ref _ | family _ | number _ => []
  | scale a _ | neg a => [(.only, a)]
  | sum a b | product a b | zip a b | choice a b => [(.left, a), (.right, b)]

/-- Where a part of a formula stands: it is the whole of it, or a child of another part. -/
inductive Position where
  | root
  | under (parent : Formula) (side : Side)

/-- The positions of formulas whose children need not be loads. -/
def Position.TakesNumber : Position → Prop
  | root => True
  | under parent _ =>
    match parent with
    | sum .. | zip .. | choice .. => True
    | _ => False

/-- A part stands at a position of `e`. -/
inductive Occurs (e : Formula) : Position → Formula → Prop where
  | root : Occurs e .root e
  | child {p : Position} {q a : Formula} {s : Side} (h : Occurs e p q)
      (ha : (s, a) ∈ q.children) : Occurs e (.under q s) a

/-- Numbers are folded as far as they can be, are written without a sign, and names are names. -/
structure NormalForm (e : Formula) : Prop where
  scaled : ∀ p a f, Occurs e p (scale a f) → ¬ a.IsNumber
  factors : ∀ p a b, Occurs e p (product a b) → ¬ a.IsNumber ∧ ¬ b.IsNumber
  summands : ∀ p a b, Occurs e p (sum a b) →
    ¬ ((a.IsNumber ∨ a.IsNegated) ∧ (b.IsNumber ∨ b.IsNegated))
  negated : ∀ p f, Occurs e p (neg (number f)) →
    ∃ a, p = .under (sum a (neg (number f))) .right ∧ ¬ a.IsNumber
  numbers : ∀ p f, Occurs e p (number f) → p.TakesNumber ∨ p = .under (neg (number f)) .only
  literals : ∀ x ∈ e.literals, 0 ≤ x ∧ x ≠ -0 ∧ ¬ x.isNaN
  names : ∀ p name, Occurs e p (ref name) ∨ Occurs e p (family name) → isName name.toList

/-- What may stand at a position in a folded formula. -/
inductive Fits : Position → Formula → Prop where
  | symbolic {p : Position} {a : Formula} (h : a.Symbolic) : Fits p a
  | number {p : Position} (hp : p.TakesNumber) (f : Factor) : Fits p (number f)
  | negated {a : Formula} (h : a.Symbolic) (f : Factor) :
      Fits (.under (sum a (neg (number f))) .right) (neg (number f))
  | sign (f : Factor) : Fits (.under (neg (number f)) .only) (number f)

variable {e a b q : Formula} {p : Position} {s : Side}

theorem Symbolic.not_isNumber (h : a.Symbolic) : ¬ a.IsNumber := by
  rintro ⟨f, rfl⟩
  exact h

theorem Symbolic.not_isNegated (h : a.Symbolic) : ¬ a.IsNegated := by
  rintro ⟨f, rfl⟩
  exact h

theorem IsNumber.fits (h : a.IsNumber) (hp : p.TakesNumber) : Fits p a := by
  obtain ⟨f, rfl⟩ := h
  exact .number hp f

/-- The children of a folded formula fit. -/
theorem Symbolic.fits_child (h : q.Symbolic) (ha : (s, a) ∈ q.children) :
    Fits (.under q s) a := by
  cases q with
  | ref | family | number => cases ha
  | scale b f | neg b =>
    cases List.mem_singleton.mp ha
    exact .symbolic h
  | sum b c =>
    simp only [children, List.mem_cons, List.not_mem_nil, or_false] at ha
    obtain ⟨hb, hc⟩ | ⟨hb, hc⟩ := h
    · obtain ⟨rfl, rfl⟩ | ⟨rfl, rfl⟩ := ha.imp Prod.mk.inj Prod.mk.inj
      · exact .symbolic hb
      · obtain hc | hc | ⟨f, rfl⟩ := hc
        · exact .symbolic hc
        · exact hc.fits trivial
        · exact .negated hb f
    · obtain ⟨rfl, rfl⟩ | ⟨rfl, rfl⟩ := ha.imp Prod.mk.inj Prod.mk.inj
      · exact hb.fits trivial
      · exact .symbolic hc
  | product b c =>
    simp only [children, List.mem_cons, List.not_mem_nil, or_false] at ha
    obtain ⟨rfl, rfl⟩ | ⟨rfl, rfl⟩ := ha.imp Prod.mk.inj Prod.mk.inj
    · exact .symbolic h.1
    · exact .symbolic h.2
  | zip b c | choice b c =>
    simp only [children, List.mem_cons, List.not_mem_nil, or_false] at ha
    obtain ⟨rfl, rfl⟩ | ⟨rfl, rfl⟩ := ha.imp Prod.mk.inj Prod.mk.inj
    · exact h.1.elim .symbolic fun h => h.fits trivial
    · exact h.2.elim .symbolic fun h => h.fits trivial

/-- Every part fits where it stands. -/
theorem fits_of_occurs (he : e.Symbolic ∨ e.IsNumber) (h : Occurs e p a) : Fits p a := by
  induction h with
  | root => exact he.elim .symbolic fun h => h.fits trivial
  | child _ ha ih =>
    cases ih with
    | symbolic hq => exact hq.fits_child ha
    | negated _ f =>
      cases List.mem_singleton.mp ha
      exact .sign f
    | number | sign => cases ha

theorem normalForm (he : e.Symbolic ∨ e.IsNumber) (hl : ∀ x ∈ e.literals, Tree.IsLiteral x) :
    e.NormalForm where
  scaled p a f h := by
    cases fits_of_occurs he h with
    | symbolic ha => exact Symbolic.not_isNumber (a := a) ha
  factors p a b h := by
    cases fits_of_occurs he h with
    | symbolic hab => exact ⟨hab.1.not_isNumber, hab.2.not_isNumber⟩
  summands p a b h := by
    cases fits_of_occurs he h with
    | symbolic hab =>
      rintro ⟨ha, hb⟩
      obtain ⟨hsymbolic, _⟩ | ⟨_, hsymbolic⟩ := hab
      · exact ha.elim hsymbolic.not_isNumber hsymbolic.not_isNegated
      · exact hb.elim hsymbolic.not_isNumber hsymbolic.not_isNegated
  negated p f h := by
    cases fits_of_occurs he h with
    | symbolic hf => cases hf
    | negated ha => exact ⟨_, rfl, ha.not_isNumber⟩
  numbers p f h := by
    cases fits_of_occurs he h with
    | symbolic hf => cases hf
    | number hp => exact .inl hp
    | sign => exact .inr rfl
  literals x hx := by
    obtain ⟨d, rfl⟩ := hl x hx
    refine ⟨d.zero_le_toFloat, ?_, d.not_isNaN_toFloat⟩
    intro hzero
    have hbits := d.toBits_toFloat_lt
    rw [hzero] at hbits
    exact absurd hbits (by decide)
  names p name h := by
    obtain h | h := h
    · cases fits_of_occurs he h with
      | symbolic hname => exact hname
    · cases fits_of_occurs he h with
      | symbolic hname => exact hname

/-- What is read as a formula is in normal form, and is a number alone exactly if it is read as a
factor, which then is that number. -/
theorem parse_normal_form (text : String) :
    (∀ e, parse text = .ok e → e.NormalForm) ∧
    ∀ f, Factor.parse text = .ok f ↔ parse text = .ok (.number f) := by
  refine ⟨fun e h => ?_, fun f => ?_⟩
  · obtain ⟨v, hv, rfl⟩ := parse_eq_ok_iff.mp h
    obtain ⟨hfolded, hliterals⟩ := Reading.folded_of_operand hv
    exact normalForm hfolded.toFormula (by rwa [Operand.literals_toFormula])
  · rw [parse_eq_ok_iff, Factor.parse]
    cases hv : Reading.operand text.toList text.toList with
    | error fault => simp
    | ok v =>
      cases v with
      | numeric g => simp [Operand.toFormula]
      | symbolic e =>
        -- an operand with a load is no number, even as a formula
        apply iff_of_false
        · intro h
          cases h
        · rintro ⟨_, ⟨⟩, rfl⟩
          exact (Reading.folded_of_operand hv).1

/-- Numbers on both sides of a load, of which only those within one operand are folded. -/
theorem parse_normal_form_of_numbers :
    let e : Formula := .choice
      (.sum (.sum (.number (.number 2)) (.neg (.scale (.ref "g") (.div (.number 1) (.number 4)))))
        (.neg (.number (.number 1))))
      (.number (.mul (.number 0.5) (.number 3)))
    parse "2 - g/4 - (1) | .5*3" = .ok e ∧ e.NormalForm := by
  intro e
  have hparse : parse "2 - g/4 - (1) | .5*3" = .ok e := by decide +kernel
  exact ⟨hparse, (parse_normal_form _).1 e hparse⟩

end Formula

end DesignLoads
