import DesignLoads.Proofs.Formula.Folding

/-! The text of a formula is read as that formula. Parentheses stand where a part binds less tightly
than its place asks for, and only there; so a text is derived part by part, each on the level of its
outermost operator, and numbers fold as they did when the formula was read. -/

namespace DesignLoads

open Grammar

namespace Grammar

/-- How tightly the outermost operator of a part binds. -/
def Part.rank : Part → Nat
  | chain .choice => 1
  | chain .zip => 2
  | chain .sum => 3
  | chain .product => 4
  | signed => 5
  | atom => 6

variable {k : Level} {p q : Part} {b s s' : List Char} {left t u : Tree}

theorem Derives.more_snoc {φ : Phrase} {op : Operator} (h : Derives φ s t) (hφ : φ = .more k left)
    (hop : op.level = k) (hb : Blank b) (operand : Derives (.part k.operand) s' u) :
    Derives (.more k left) (s ++ (b ++ op.symbol :: s')) (.binary op t u) := by
  induction h generalizing left with
  | @last _ t =>
    cases hφ
    have hstep := Derives.step hop hb operand (.last (t := .binary op t u))
    rwa [List.append_nil] at hstep
  | step hop' hb' operand' more _ ih =>
    cases hφ
    have hstep := Derives.step hop' hb' operand' (ih rfl)
    simpa only [List.append_assoc, List.cons_append] using hstep
  | _ => cases hφ

/-- A chain may go on with one more operator. -/
theorem Derives.snoc {op : Operator} (h : Derives (.part (.chain k)) s t) (hop : op.level = k)
    (hb : Blank b) (operand : Derives (.part k.operand) s' u) :
    Derives (.part (.chain k)) (s ++ (b ++ op.symbol :: s')) (.binary op t u) := by
  cases h with
  | chain first more =>
    rw [List.append_assoc]
    exact .chain first (more.more_snoc rfl hop hb operand)

/-- The part that stands for a part without operators of its own. -/
def Part.inner : Part → Part
  | chain k => k.operand
  | signed | atom => atom

theorem Part.rank_inner (h : p.rank < 6) : p.inner.rank = p.rank + 1 := by
  cases p with
  | chain k => cases k <;> rfl
  | signed => rfl
  | atom => exact absurd h (Nat.lt_irrefl 6)

theorem Part.rank_mem (p : Part) : 1 ≤ p.rank ∧ p.rank ≤ 6 := by
  rcases p with (_ | _ | _ | _) | _ | _ <;> decide

theorem Part.rank_injective (h : p.rank = q.rank) : p = q := by
  rcases p with (_ | _ | _ | _) | _ | _ <;> rcases q with (_ | _ | _ | _) | _ | _ <;>
    simp_all [Part.rank]

theorem Derives.of_inner (h : Derives (.part p.inner) s t) : Derives (.part p) s t := by
  cases p with
  | chain k =>
    have hchain := Derives.chain h .last
    rwa [List.append_nil] at hchain
  | signed => exact @Derives.plain [] _ _ Reading.blank_nil h
  | atom => exact h

/-- What binds tightly may stand where less is asked for. -/
theorem Derives.of_rank_le (h : Derives (.part q) s t) (hle : p.rank ≤ q.rank) :
    Derives (.part p) s t := by
  induction hn : q.rank - p.rank generalizing p with
  | zero =>
    have heq : p = q := Part.rank_injective (by omega)
    rwa [heq]
  | succ n ih =>
    have hq := q.rank_mem.2
    have hinner := p.rank_inner (by omega)
    exact .of_inner (ih (by omega) (by omega))

/-- Blanks may be put before every part but an atom. -/
theorem Derives.blank {φ : Phrase} (h : Derives φ s t) (hφ : φ = .part p) (hp : p ≠ .atom)
    (hb : Blank b) : Derives (.part p) (b ++ s) t := by
  induction h generalizing p with
  | @chain k _ _ _ _ first more ih _ =>
    cases hφ
    rw [← List.append_assoc]
    exact .chain (ih rfl (by cases k <;> simp [Level.operand])) more
  | negative hb' operand =>
    cases hφ
    exact Reading.derives_blank hb (.negative hb' operand)
  | plain hb' atom =>
    cases hφ
    exact Reading.derives_blank hb (.plain hb' atom)
  | group => exact absurd (Phrase.part.inj hφ).symm hp
  | leaf => exact absurd (Phrase.part.inj hφ).symm hp
  | _ => cases hφ

end Grammar

open Reading

/-- A text is derived as a part of a formula, and stands for `v`. -/
def Prints (p : Part) (s : List Char) (v : Operand) : Prop :=
  ∃ t, Derives (.part p) s t ∧ t.divisorsNumeric ∧ t.operand = v

namespace Prints

variable {p q : Part} {k : Level} {b b' s s' : List Char} {v w x : Operand}

theorem of_rank_le (h : Prints q s v) (hle : p.rank ≤ q.rank) : Prints p s v := by
  obtain ⟨t, ht, hdiv, hv⟩ := h
  exact ⟨t, ht.of_rank_le hle, hdiv, hv⟩

theorem blank (h : Prints p s v) (hp : p ≠ .atom) (hb : Blank b) : Prints p (b ++ s) v := by
  obtain ⟨t, ht, hdiv, hv⟩ := h
  exact ⟨t, ht.blank rfl hp hb, hdiv, hv⟩

/-- In parentheses a part may stand anywhere, without them only where it binds tightly enough. -/
theorem parenthesize {needed : Bool} (h : Prints q s v) (hle : needed = false → p.rank ≤ q.rank) :
    Prints p (parenthesize needed s) v := by
  cases needed with
  | false => exact h.of_rank_le (hle rfl)
  | true =>
    obtain ⟨t, ht, hdiv, rfl⟩ := h
    have hinner : Derives (.part (.chain .choice)) s t := ht.of_rank_le q.rank_mem.1
    have hgroup : Prints .atom ('(' :: (s ++ [')'])) t.operand :=
      ⟨.group t, .group (b := []) hinner blank_nil, hdiv, t.operand_group⟩
    exact hgroup.of_rank_le p.rank_mem.2

theorem neg (h : Prints .signed s v) : Prints .signed ('-' :: s) v.neg := by
  obtain ⟨t, ht, hdiv, rfl⟩ := h
  exact ⟨.neg t, @Derives.negative [] _ _ blank_nil ht, hdiv, t.operand_neg⟩

/-- Two parts with an operator between them, and blanks around it. -/
theorem binary (op : Operator) (hop : op.level = k) (h : Prints (.chain k) s v)
    (h' : Prints k.operand s' w) (hb : Blank b) (hb' : Blank b') (hv : op.combine v w = some x) :
    Prints (.chain k) (s ++ (b ++ op.symbol :: (b' ++ s'))) x := by
  obtain ⟨t, ht, hdiv, rfl⟩ := h
  obtain ⟨u, hu, hdiv', rfl⟩ := h'.blank (by cases k <;> simp [Level.operand]) hb'
  rw [Tree.combine_operand] at hv
  split at hv
  · cases hv
  · rename_i hdivisor
    refine ⟨_, ht.snoc hop hb hu, ?_, Option.some.inj hv⟩
    have hnumeric : (op != .div || u.isNumeric) = true := by
      cases op <;> simp_all
    rw [Tree.divisorsNumeric, hdiv, hdiv', hnumeric]
    rfl

end Prints

/-- The text of a number is read as that number. -/
def ReadsBack (x : Float) : Prop :=
  ∃ d, Decimal.Numeral (Layout.plain.chars x) d ∧ d.toFloat = x

namespace Factor

/-- The part that the text of a factor is. -/
def part : Factor → Part
  | number _ => .atom
  | neg _ => .signed
  | mul .. | div .. => .chain .product
  | add .. | sub .. => .chain .sum

theorem rank_part (f : Factor) : f.part.rank = f.level + 2 := by
  cases f <;> rfl

variable {f a b : Factor} {k : Level} {p : Part} {n : Nat}

theorem prints_parenthesize (h : Prints f.part f.chars (.numeric f)) (hp : p.rank = n + 2) :
    Prints p (parenthesize (f.level < n) f.chars) (.numeric f) := by
  apply h.parenthesize
  intro hn
  have hle : n ≤ f.level := by simpa using hn
  rw [rank_part]
  omega

theorem prints_binary (op : Operator) (hop : op.level = k) (hk : (Part.chain k).rank = n + 2)
    (ha : Prints a.part a.chars (.numeric a)) (hb : Prints b.part b.chars (.numeric b))
    (hf : op.combine (.numeric a) (.numeric b) = some (.numeric f)) :
    Prints (.chain k) (parenthesize (a.level < n) a.chars ++
      op.symbol :: parenthesize (b.level < n + 1) b.chars) (.numeric f) := by
  have hoperand : k.operand.rank = n + 1 + 2 := by
    have hinner := Part.rank_inner (p := .chain k) (by cases k <;> decide)
    rw [hk] at hinner
    exact hinner
  exact (prints_parenthesize ha hk).binary op hop (prints_parenthesize hb hoperand) blank_nil
    blank_nil hf

/-- The text of a factor is that factor, if the texts of its numbers are. -/
theorem prints (f : Factor) (h : ∀ x ∈ f.literals, ReadsBack x) :
    Prints f.part f.chars (.numeric f) := by
  induction f with
  | number x =>
    obtain ⟨d, hd, rfl⟩ := h x List.mem_cons_self
    exact ⟨_, .leaf (.number hd), rfl, rfl⟩
  | neg a ih => exact (prints_parenthesize (ih h) rfl).neg
  | add a b iha ihb =>
    obtain ⟨ha, hb⟩ := List.forall_mem_append.mp h
    exact prints_binary .add rfl rfl (iha ha) (ihb hb) rfl
  | sub a b iha ihb =>
    obtain ⟨ha, hb⟩ := List.forall_mem_append.mp h
    exact prints_binary .sub rfl rfl (iha ha) (ihb hb) rfl
  | mul a b iha ihb =>
    obtain ⟨ha, hb⟩ := List.forall_mem_append.mp h
    exact prints_binary .mul rfl rfl (iha ha) (ihb hb) rfl
  | div a b iha ihb =>
    obtain ⟨ha, hb⟩ := List.forall_mem_append.mp h
    exact prints_binary .div rfl rfl (iha ha) (ihb hb) rfl

end Factor

namespace Formula

/-- The part that the text of a formula is. -/
def part : Formula → Part
  | choice .. => .chain .choice
  | zip .. => .chain .zip
  | sum .. => .chain .sum
  | product .. | scale .. => .chain .product
  | neg _ => .signed
  | ref _ | family _ | number _ => .atom

theorem rank_part (f : Formula) : f.part.rank = f.level := by
  cases f <;> rfl

/-- A formula as an operand that may meet others. -/
def toOperand : Formula → Operand
  | number f => .numeric f
  | e => .symbolic e

theorem toFormula_toOperand (f : Formula) : f.toOperand.toFormula = f := by
  cases f <;> rfl

theorem toOperand_absorb {f : Formula} (h : f.Symbolic) :
    f.absorb.toOperand = .symbolic f.absorb := by
  cases f with
  | number => cases h
  | neg a => cases a <;> first | rfl | cases h
  | _ => rfl

variable {f a b : Formula} {k : Level} {p : Part} {v w x : Operand} {n m : Nat}

theorem prints_parenthesize (h : Prints f.part f.chars v) (hp : p.rank = n) :
    Prints p (parenthesize (f.level < n) f.chars) v := by
  apply h.parenthesize
  intro hn
  have hle : n ≤ f.level := by simpa using hn
  rw [rank_part]
  omega

theorem blank_space : Blank [' '] := by
  intro c hc
  obtain rfl := List.mem_singleton.mp hc
  rfl

theorem prints_binary (op : Operator) (hop : op.level = k) (ha : Prints a.part a.chars v)
    (hb : Prints b.part b.chars w) (hn : (Part.chain k).rank = n) (hm : k.operand.rank = m)
    (hx : op.combine v w = some x) : Prints (.chain k) (parenthesize (a.level < n) a.chars ++
      ' ' :: op.symbol :: ' ' :: parenthesize (b.level < m) b.chars) x :=
  (prints_parenthesize ha hn).binary op hop (prints_parenthesize hb hm) blank_space blank_space hx

theorem prints_number {g : Factor} (h : ∀ x ∈ g.literals, ReadsBack x) :
    Prints .atom (number g).chars (.numeric g) := by
  apply (g.prints h).parenthesize
  intro hn
  have hle : 4 ≤ g.level := by simpa using hn
  rw [Factor.rank_part]
  exact Nat.add_le_add_right hle 2

theorem toOperand_absorb_neg (h : a.Symbolic ∨ a.IsNumber) :
    (neg a).absorb.toOperand = a.absorb.toOperand.neg := by
  obtain h | ⟨g, rfl⟩ := h
  · rw [toOperand_absorb h, toOperand_absorb (f := neg a) h]
    cases a with
    | number => cases h
    | _ => rfl
  · rfl

/-- A sum is not folded, if there is a load on one side. -/
theorem toOperand_absorb_sum (h : a.Symbolic ∨ b.Symbolic) :
    a.absorb.toOperand.add b.absorb.toOperand = (sum a b).absorb.toOperand := by
  have hformula : (sum a b).absorb.toOperand =
      .symbolic (sum a.absorb.toOperand.toFormula b.absorb.toOperand.toFormula) := by
    rw [toFormula_toOperand, toFormula_toOperand]
    rfl
  rw [hformula]
  obtain h | h := h
  · rw [toOperand_absorb h]
    rfl
  · rw [toOperand_absorb h]
    cases a.absorb.toOperand <;> rfl

/-- The text of a formula is that formula, with its negated numbers absorbed. -/
theorem prints (f : Formula) (hf : f.Symbolic ∨ f.IsNumber ∨ f.IsNegated)
    (h : ∀ x ∈ f.literals, ReadsBack x) : Prints f.part f.chars f.absorb.toOperand := by
  induction f with
  | ref name =>
    obtain hf | ⟨_, ⟨⟩⟩ | ⟨_, ⟨⟩⟩ := hf
    have hleaf := Leaf.name hf
    rw [String.ofList_toList] at hleaf
    exact ⟨_, .leaf hleaf, rfl, rfl⟩
  | family stem =>
    obtain hf | ⟨_, ⟨⟩⟩ | ⟨_, ⟨⟩⟩ := hf
    have hleaf := Leaf.family hf
    rw [String.ofList_toList] at hleaf
    exact ⟨_, .leaf hleaf, rfl, rfl⟩
  | number g => exact prints_number h
  | scale a g ih =>
    obtain hf | ⟨_, ⟨⟩⟩ | ⟨_, ⟨⟩⟩ := hf
    obtain ⟨ha, hg⟩ := List.forall_mem_append.mp h
    have hprints := ih (.inl hf) ha
    rw [toOperand_absorb (f := a) hf] at hprints
    -- the factor comes first, and meets the load as it did when it was read
    exact (Factor.prints_parenthesize (g.prints hg) rfl).binary .mul (k := .product) rfl
      (prints_parenthesize hprints rfl) blank_nil blank_nil rfl
  | neg a ih =>
    have ha : a.Symbolic ∨ a.IsNumber := by
      obtain hf | ⟨_, ⟨⟩⟩ | ⟨g, hg⟩ := hf
      · exact .inl hf
      · exact .inr ⟨g, Formula.neg.inj hg⟩
    -- a number folds with its sign, which is what absorbing it comes to
    have hinner := ih (ha.imp_right .inl) h
    rw [toOperand_absorb_neg ha]
    exact (prints_parenthesize hinner rfl).neg
  | sum a b iha ihb =>
    obtain hf | ⟨_, ⟨⟩⟩ | ⟨_, ⟨⟩⟩ := hf
    obtain ⟨ha, hb⟩ := List.forall_mem_append.mp h
    -- a negated number is found on the right only, and one side has a load
    have hsides : (a.Symbolic ∨ a.IsNumber) ∧ (b.Symbolic ∨ b.IsNumber ∨ b.IsNegated) ∧
        (a.Symbolic ∨ b.Symbolic) := by
      obtain ⟨ha, hb⟩ | ⟨ha, hb⟩ := hf
      · exact ⟨.inl ha, hb, .inl ha⟩
      · exact ⟨.inr ha, .inl hb, .inr hb⟩
    exact prints_binary .add rfl (iha (hsides.1.imp_right .inl) ha) (ihb hsides.2.1 hb) rfl rfl
      (congrArg some (toOperand_absorb_sum hsides.2.2))
  | product a b iha ihb =>
    obtain hf | ⟨_, ⟨⟩⟩ | ⟨_, ⟨⟩⟩ := hf
    obtain ⟨ha, hb⟩ := List.forall_mem_append.mp h
    have hleft := iha (.inl hf.1) ha
    have hright := ihb (.inl hf.2) hb
    rw [toOperand_absorb hf.1] at hleft
    rw [toOperand_absorb hf.2] at hright
    exact (prints_parenthesize hleft rfl).binary .mul (k := .product) rfl
      (prints_parenthesize hright rfl) blank_nil blank_nil rfl
  | zip a b iha ihb =>
    obtain hf | ⟨_, ⟨⟩⟩ | ⟨_, ⟨⟩⟩ := hf
    obtain ⟨ha, hb⟩ := List.forall_mem_append.mp h
    have hzip : Operator.zip.combine a.absorb.toOperand b.absorb.toOperand =
        some (zip a b).absorb.toOperand := by
      rw [Operator.combine, Operand.zip, toFormula_toOperand, toFormula_toOperand]
      rfl
    exact prints_binary .zip rfl (iha (hf.1.imp_right .inl) ha) (ihb (hf.2.imp_right .inl) hb)
      rfl rfl hzip
  | choice a b iha ihb =>
    obtain hf | ⟨_, ⟨⟩⟩ | ⟨_, ⟨⟩⟩ := hf
    obtain ⟨ha, hb⟩ := List.forall_mem_append.mp h
    have hchoice : Operator.choice.combine a.absorb.toOperand b.absorb.toOperand =
        some (choice a b).absorb.toOperand := by
      rw [Operator.combine, Operand.choice, toFormula_toOperand, toFormula_toOperand]
      rfl
    exact prints_binary .choice rfl (iha (hf.1.imp_right .inl) ha) (ihb (hf.2.imp_right .inl) hb)
      rfl rfl hchoice

end Formula

end DesignLoads
