import DesignLoads.Proofs.Formula.Meaning
import DesignLoads.Proofs.Formula.Unambiguity

/-! What is read of a text is derived by the grammar. -/

namespace DesignLoads

open Grammar

namespace Grammar.Level

def isOperator : Level → Char → Bool
  | choice => (· = '|')
  | zip => (· = '&')
  | sum => Reading.isTermOperator
  | product => Reading.isFactorOperator

/-- What a step of a chain makes of the operand before it. -/
def apply : Level → Operand → Reading.Step → Except (List Char) Operand
  | choice => Reading.applyChoice
  | zip => Reading.applyZip
  | sum => Reading.applyTerm
  | product => Reading.applyFactor

variable {k : Level} {op : Operator} {c : Char}

theorem isOperator_symbol (hop : op.level = k) : k.isOperator op.symbol := by
  subst hop
  cases op <;> decide

theorem exists_operator (h : k.isOperator c) : ∃ op : Operator, op.level = k ∧ op.symbol = c := by
  cases k with
  | choice =>
    have hc : c = '|' := by simpa [isOperator] using h
    exact ⟨.choice, rfl, hc.symm⟩
  | zip =>
    have hc : c = '&' := by simpa [isOperator] using h
    exact ⟨.zip, rfl, hc.symm⟩
  | sum =>
    have hc : c = '+' ∨ c = '-' := by simpa [isOperator, Reading.isTermOperator] using h
    obtain rfl | rfl := hc
    · exact ⟨.add, rfl, rfl⟩
    · exact ⟨.sub, rfl, rfl⟩
  | product =>
    have hc : c = '*' ∨ c = '/' := by simpa [isOperator, Reading.isFactorOperator] using h
    obtain rfl | rfl := hc
    · exact ⟨.mul, rfl, rfl⟩
    · exact ⟨.div, rfl, rfl⟩

theorem apply_symbol (hop : op.level = k) (a b : Operand) (place : List Char) :
    k.apply a ⟨op.symbol, b, place⟩ =
      match op.combine a b with
      | some v => .ok v
      | none => .error place := by
  subst hop
  cases op <;> rfl

/-- A step succeeds unless it divides by what is not numeric. -/
theorem apply_operand (hop : op.level = k) (l r : Tree) (place : List Char) :
    k.apply l.operand ⟨op.symbol, r.operand, place⟩ =
      if op = .div ∧ r.isNumeric = false then .error place
      else .ok (Tree.binary op l r).operand := by
  rw [apply_symbol hop, Tree.combine_operand]
  by_cases h : op = .div ∧ r.isNumeric = false
  · rw [if_pos h, if_pos h]
  · rw [if_neg h, if_neg h]

end Grammar.Level

namespace Reading

def part (depth : Nat) : Part → List Char → Outcome Operand
  | .atom => atom (formula depth)
  | .signed => signed (formula depth)
  | .chain .product => chain isFactorOperator applyFactor (signed (formula depth))
  | .chain .sum =>
    chain isTermOperator applyTerm (chain isFactorOperator applyFactor (signed (formula depth)))
  | .chain .zip =>
    chain (· = '&') applyZip (chain isTermOperator applyTerm
      (chain isFactorOperator applyFactor (signed (formula depth))))
  | .chain .choice => formula (depth + 1)

theorem part_chain (depth : Nat) (k : Level) :
    part depth (.chain k) = chain k.isOperator k.apply (part depth k.operand) := by
  cases k <;> rfl

/-- A part of a formula stands at the head of `cs` and stands for `v`, with blanks before `rest`. -/
def Reads (p : Part) (cs : List Char) (v : Operand) (rest : List Char) : Prop :=
  ∃ s b t, cs = s ++ (b ++ rest) ∧ Blank b ∧ Derives (.part p) s t ∧ t.divisorsNumeric ∧
    t.operand = v

variable {cs rest r : List Char} {v : Operand} {k : Level} {p : Part}
  {f : List Char → Outcome Operand}

theorem skipBlanks_eq (cs : List Char) : ∃ b, Blank b ∧ cs = b ++ skipBlanks cs :=
  ⟨cs.takeWhile isBlank, all_takeWhile _ _, List.takeWhile_append_dropWhile.symm⟩

theorem atom_cons_of_ne {c : Char} (hc : c ≠ '(') (r : List Char) : atom f (c :: r) =
    match leaf? (c :: r) with
    | some (t, r') => .done t.operand (skipBlanks r')
    | none => .absent (if c = '.' then r else c :: r) := by
  unfold atom leaf?
  simp only [if_neg hc]
  by_cases hhead : isNameHead c = true
  · simp only [if_pos hhead]
    rcases r.dropWhile isNameTail with _ | ⟨e, r'⟩
    · rfl
    · by_cases he : e = '$'
      · subst he
        rfl
      · simp [he, Tree.operand, Tree.factor?, Tree.formula]
  · simp only [if_neg hhead]
    cases Decimal.scan? (c :: r) <;> rfl

theorem reads_of_atom (hf : ∀ {cs v r}, f cs = .done v r → Reads (.chain .choice) cs v r)
    (h : atom f cs = .done v rest) : Reads .atom cs v rest := by
  cases cs with
  | nil => cases h
  | cons c r =>
    by_cases hc : c = '('
    · subst hc
      unfold atom at h
      simp only [if_true] at h
      split at h
      · rename_i w r' hr
        cases h
        obtain ⟨s, b, t, rfl, hb, ht, hdiv, hv⟩ := hf hr
        obtain ⟨b', hb', hrest⟩ := skipBlanks_eq r'
        refine ⟨_, b', _, ?_, hb', .group ht hb, hdiv, (Tree.operand_group t).trans hv⟩
        simp only [List.cons_append, List.append_assoc, List.nil_append, ← hrest]
      all_goals cases h
    · rw [atom_cons_of_ne hc] at h
      split at h
      · rename_i t r' hleaf
        cases h
        obtain ⟨s, hs, heq⟩ := leaf?_eq hleaf
        obtain ⟨b, hb, hrest⟩ := skipBlanks_eq r'
        refine ⟨s, b, t, by rw [heq, ← hrest], hb, .leaf hs, ?_, rfl⟩
        cases hs <;> rfl
      · cases h

theorem blank_nil : Blank [] := by
  intro c hc
  cases hc

/-- Blanks may be put before a signed atom. -/
theorem derives_blank {b s : List Char} {t : Tree} (hb : Blank b)
    (h : Derives (.part .signed) s t) : Derives (.part .signed) (b ++ s) t := by
  have happend {b' : List Char} (hb' : Blank b') : Blank (b ++ b') := by
    intro c hc
    obtain hc | hc := List.mem_append.mp hc
    · exact hb c hc
    · exact hb' c hc
  cases h with
  | negative hb' operand =>
    rw [← List.append_assoc]
    exact .negative (happend hb') operand
  | plain hb' atom =>
    rw [← List.append_assoc]
    exact .plain (happend hb') atom

theorem reads_of_signed (hf : ∀ {cs v r}, f cs = .done v r → Reads (.chain .choice) cs v r)
    (h : signed f cs = .done v rest) : Reads .signed cs v rest := by
  induction cs generalizing v with
  | nil => cases h
  | cons c r ih =>
    unfold signed at h
    split at h
    · rename_i hblank
      obtain ⟨s, b, t, rfl, hb, ht, hdiv, hv⟩ := ih h
      have hc : Blank [c] := by simpa [Blank] using hblank
      exact ⟨c :: s, b, t, rfl, hb, derives_blank hc ht, hdiv, hv⟩
    split at h
    · rename_i hminus
      subst hminus
      split at h
      · rename_i w r' hr
        cases h
        obtain ⟨s, b, t, rfl, hb, ht, hdiv, rfl⟩ := ih hr
        exact ⟨'-' :: s, b, .neg t, rfl, hb, @Derives.negative [] _ _ blank_nil ht, hdiv,
          Tree.operand_neg t⟩
      all_goals cases h
    · obtain ⟨s, b, t, heq, hb, ht, hdiv, hv⟩ := reads_of_atom hf h
      exact ⟨s, b, t, heq, hb, @Derives.plain [] _ _ blank_nil ht, hdiv, hv⟩

/-- What the steps of a chain make of a tree before them is derived to go on after that tree. The
blanks before the first step may have been read with the operand before it. -/
theorem derives_of_steps (hf : ∀ {cs v r}, f cs = .done v r → Reads k.operand cs v r) {fuel : Nat}
    {tail : List Step} (h : steps k.isOperator f fuel cs = .done tail rest) {left : Tree}
    (hleft : left.divisorsNumeric) (hv : tail.foldlM k.apply left.operand = .ok v) {b : List Char}
    (hb : Blank b) : ∃ s b' t, b ++ cs = s ++ (b' ++ rest) ∧ Blank b' ∧
      Derives (.more k left) s t ∧ t.divisorsNumeric ∧ t.operand = v := by
  induction fuel generalizing cs tail left b with
  | zero =>
    cases h
    cases hv
    exact ⟨[], b, left, rfl, hb, .last, hleft, rfl⟩
  | succ fuel ih =>
    cases cs with
    | nil =>
      cases h
      cases hv
      exact ⟨[], b, left, rfl, hb, .last, hleft, rfl⟩
    | cons c r =>
      unfold steps at h
      split at h
      · rename_i hop
        obtain ⟨op, hlevel, rfl⟩ := Level.exists_operator hop
        split at h
        · rename_i w r' hr
          split at h
          · rename_i tail' rest' hsteps
            cases h
            obtain ⟨s, b₁, t, rfl, hb₁, ht, hdiv, rfl⟩ := hf hr
            -- the step is applied first, and a symbolic divisor would have ended the fold
            rw [List.foldlM_cons, Level.apply_operand hlevel] at hv
            split at hv
            · cases hv
            · rename_i hnumeric
              have hdivs : (Tree.binary op left t).divisorsNumeric := by
                cases op <;> simp_all [Tree.divisorsNumeric]
              obtain ⟨s', b₂, u, heq, hb₂, hu, hudiv, huv⟩ := ih hsteps hdivs hv hb₁
              refine ⟨_, b₂, u, ?_, hb₂, .step hlevel hb ht hu, hudiv, huv⟩
              simp only [List.append_assoc, List.cons_append, ← heq]
          all_goals cases h
        -- the operator has no right operand and is left unread
        · cases h
          cases hv
          exact ⟨[], b, left, rfl, hb, .last, hleft, rfl⟩
        · cases h
      · cases h
        cases hv
        exact ⟨[], b, left, rfl, hb, .last, hleft, rfl⟩

theorem reads_of_chain (hf : ∀ {cs v r}, f cs = .done v r → Reads k.operand cs v r)
    (h : chain k.isOperator k.apply f cs = .done v rest) : Reads (.chain k) cs v rest := by
  unfold chain at h
  split at h
  · rename_i first r hfirst
    split at h
    · rename_i tail rest' hsteps
      split at h
      · rename_i w hfold
        cases h
        obtain ⟨s, b, t, rfl, hb, ht, hdiv, rfl⟩ := hf hfirst
        obtain ⟨s', b', u, heq, hb', hu, hudiv, huv⟩ := derives_of_steps hf hsteps hdiv hfold hb
        refine ⟨s ++ s', b', u, ?_, hb', .chain ht hu, hudiv, huv⟩
        rw [heq, List.append_assoc]
      · cases h
    all_goals cases h
  all_goals cases h

/-- What is read as a part is that part, if this holds of the formulas in parentheses. -/
theorem reads_of_part {depth : Nat}
    (hf : ∀ {cs v r}, formula depth cs = .done v r → Reads (.chain .choice) cs v r)
    (h : part depth p cs = .done v rest) : Reads p cs v rest := by
  have hsigned {cs v r} (h : part depth .signed cs = .done v r) : Reads .signed cs v r :=
    reads_of_signed hf h
  have hchain (k : Level) (hk : ∀ {cs v r}, part depth k.operand cs = .done v r →
      Reads k.operand cs v r) {cs v r} (h : part depth (.chain k) cs = .done v r) :
      Reads (.chain k) cs v r := by
    rw [part_chain] at h
    exact reads_of_chain hk h
  have hproduct {cs v r} := @hchain .product hsigned cs v r
  have hsum {cs v r} := @hchain .sum hproduct cs v r
  have hzip {cs v r} := @hchain .zip hsum cs v r
  rcases p with (_ | _ | _ | _) | _ | _
  · exact hchain .choice hzip h
  · exact hzip h
  · exact hsum h
  · exact hproduct h
  · exact hsigned h
  · exact reads_of_atom hf h

/-- What is read as a formula is one. -/
theorem reads_of_formula {depth : Nat} (h : formula depth cs = .done v rest) :
    Reads (.chain .choice) cs v rest := by
  induction depth generalizing cs v rest with
  | zero => cases h
  | succ depth ih => exact reads_of_part (p := .chain .choice) ih h

end Reading

end DesignLoads
