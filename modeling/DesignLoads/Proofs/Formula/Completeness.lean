import DesignLoads.Proofs.Formula.Soundness

/-! What the grammar derives is read, and read as the formula of its derivation. A derivation that
ends where its part may end leaves no operator behind that the reading could take up, and gives each
operator a right operand, so that nothing is left unread that belongs to it. -/

namespace DesignLoads

open Grammar

namespace Reading

variable {f : List Char → Outcome Operand} {k : Level} {b s cs rest : List Char} {t u : Tree}
  {φ : Phrase}

theorem length_skipBlanks_le (cs : List Char) : (skipBlanks cs).length ≤ cs.length :=
  (List.dropWhile_suffix _).length_le

theorem steps_of_ends (h : Ends (.chain k) rest) (fuel : Nat) :
    steps k.isOperator f fuel (skipBlanks rest) = .done [] (skipBlanks rest) := by
  cases fuel with
  | zero => rfl
  | succ fuel =>
    cases hr : skipBlanks rest with
    | nil => rfl
    | cons c r =>
      have hc : c ∈ (Part.chain k).closers := h c (by rw [hr]; rfl)
      rw [steps, if_neg]
      intro hop
      obtain ⟨op, hlevel, rfl⟩ := Level.exists_operator hop
      exact symbol_not_mem_closers hlevel hc

theorem signed_append_blank (hb : Blank b) : signed f (b ++ cs) = signed f cs := by
  induction b with
  | nil => rfl
  | cons c b ih =>
    rw [List.cons_append, signed, if_pos (hb c List.mem_cons_self)]
    exact ih fun d hd => hb d (List.mem_cons_of_mem c hd)

theorem signed_minus (cs : List Char) {w : Operand} (h : signed f cs = .done w rest) :
    signed f ('-' :: cs) = .done w.neg rest := by
  rw [signed, if_neg (by decide), if_pos rfl, h]

theorem signed_atom {c : Char} (hblank : isBlank c = false) (hne : c ≠ '-') (cs : List Char) :
    signed f (c :: cs) = atom f (c :: cs) := by
  rw [signed, if_neg (by simp [hblank]), if_neg hne]

theorem atom_group {r : List Char} {w : Operand} (h : f cs = .done w (')' :: r)) :
    atom f ('(' :: cs) = .done w (skipBlanks r) := by
  rw [atom, if_pos rfl, h]
  rfl

/-- What goes on after a tree whose divisors are numeric is itself the end of such a tree only. -/
theorem divisorsNumeric_of_more {left : Tree} (h : Derives φ s u) (hφ : φ = .more k left)
    (hdiv : u.divisorsNumeric) : left.divisorsNumeric := by
  induction h generalizing left with
  | last =>
    cases hφ
    exact hdiv
  | step hop hb operand more _ ih =>
    cases hφ
    have hbinary := ih rfl hdiv
    simp only [Tree.divisorsNumeric, Bool.and_eq_true] at hbinary
    exact hbinary.1.1
  | _ => cases hφ

/-- A phrase is read along its derivation, up to the next token after it. -/
def Complete : Phrase → List Char → Tree → Prop
  | .part p, s, t => ∀ depth rest, (s ++ rest).length ≤ depth → Ends p rest →
      part depth p (s ++ rest) = .done t.operand (skipBlanks rest)
  | .more k left, s, t => ∀ depth fuel rest, (s ++ rest).length ≤ depth →
      (skipBlanks (s ++ rest)).length ≤ fuel → Ends (.chain k) rest →
      ∃ tail, steps k.isOperator (part depth k.operand) fuel (skipBlanks (s ++ rest)) =
        .done tail (skipBlanks rest) ∧ tail.foldlM k.apply left.operand = .ok t.operand

namespace Complete

theorem chain {s' : List Char} (hfirst : Complete (.part k.operand) s t)
    (hmore : Complete (.more k t) s' u) (more : Derives (.more k t) s' u) :
    Complete (.part (.chain k)) (s ++ s') u := by
  intro depth rest hlen hrest
  rw [List.append_assoc] at hlen ⊢
  have hlen' : (s' ++ rest).length ≤ depth := by
    rw [List.length_append] at hlen
    omega
  have hread := hfirst depth (s' ++ rest) hlen (more.ends_more hrest)
  obtain ⟨tail, hsteps, hfold⟩ := hmore depth _ rest hlen' (Nat.le_refl _) hrest
  rw [part_chain, Reading.chain, hread]
  simp only [hsteps, hfold]

theorem last (left : Tree) : Complete (.more k left) [] left := by
  intro depth fuel rest _ _ hrest
  exact ⟨[], steps_of_ends hrest fuel, rfl⟩

theorem step {s' : List Char} {left : Tree} {op : Operator} (hop : op.level = k) (hb : Blank b)
    (hdivisor : ¬ (op = .div ∧ t.isNumeric = false)) (hoperand : Complete (.part k.operand) s t)
    (hmore : Complete (.more k (.binary op left t)) s' u)
    (more : Derives (.more k (.binary op left t)) s' u) :
    Complete (.more k left) (b ++ op.symbol :: (s ++ s')) u := by
  intro depth fuel rest hlen hfuel hrest
  have htext : skipBlanks (b ++ op.symbol :: (s ++ s') ++ rest) =
      op.symbol :: (s ++ (s' ++ rest)) := by
    rw [List.append_assoc, List.cons_append, List.append_assoc,
      skipBlanks_append_cons hb op.isBlank_symbol]
  rw [htext] at hfuel ⊢
  cases fuel with
  | zero => cases hfuel
  -- a step takes one from the fuel and at least its symbol from the text
  | succ fuel =>
    have hdepth : (s ++ (s' ++ rest)).length ≤ depth := by
      simp only [List.length_append, List.length_cons] at hlen ⊢
      omega
    have hdepth' : (s' ++ rest).length ≤ depth := by
      rw [List.length_append] at hdepth
      omega
    have hfuel' : (skipBlanks (s' ++ rest)).length ≤ fuel := by
      have hle := length_skipBlanks_le (s' ++ rest)
      simp only [List.length_append, List.length_cons] at hle hfuel ⊢
      omega
    have hread := hoperand depth (s' ++ rest) hdepth (more.ends_more hrest)
    obtain ⟨tail, hsteps, hfold⟩ := hmore depth fuel rest hdepth' hfuel' hrest
    refine ⟨⟨op.symbol, t.operand, skipBlanks (s ++ (s' ++ rest))⟩ :: tail, ?_, ?_⟩
    · rw [steps, if_pos (Level.isOperator_symbol hop), hread]
      simp only [hsteps]
    · rw [List.foldlM_cons, Level.apply_operand hop, if_neg hdivisor]
      exact hfold

theorem negative (hb : Blank b) (hoperand : Complete (.part .signed) s t) :
    Complete (.part .signed) (b ++ '-' :: s) (.neg t) := by
  intro depth rest hlen hrest
  have hlen' : (s ++ rest).length ≤ depth := by
    simp only [List.length_append, List.length_cons] at hlen ⊢
    omega
  rw [List.append_assoc, part, signed_append_blank hb, Tree.operand_neg]
  exact signed_minus _ (hoperand depth rest hlen' hrest)

theorem plain (hb : Blank b) (hatom : Complete (.part .atom) s t)
    (atom : Derives (.part .atom) s t) : Complete (.part .signed) (b ++ s) t := by
  intro depth rest hlen hrest
  have hlen' : (s ++ rest).length ≤ depth := by
    simp only [List.length_append] at hlen ⊢
    omega
  have hread := hatom depth rest hlen' hrest
  obtain ⟨c, r, rfl, hblank, hne⟩ := atom.head
  rw [List.append_assoc, part, signed_append_blank hb, List.cons_append, signed_atom hblank hne]
  exact hread

/-- Parentheses are read up to the closing one, whatever follows it. -/
theorem part_group (hb : Blank b) (hinner : Complete (.part (.chain .choice)) s t) {depth : Nat}
    (hlen : ('(' :: (s ++ (b ++ [')'])) ++ rest).length ≤ depth) :
    part depth .atom ('(' :: (s ++ (b ++ [')'])) ++ rest) =
      .done (Tree.group t).operand (skipBlanks rest) := by
  cases depth with
  | zero => cases hlen
  -- parentheses take one from the depth and two characters from the text
  | succ depth =>
    have hlen' : (s ++ (b ++ ')' :: rest)).length ≤ depth := by
      simp only [List.length_append, List.length_cons] at hlen ⊢
      omega
    have hends : Ends (.chain .choice) (b ++ ')' :: rest) := ends_cons hb (by decide) (by decide)
    have hread := hinner depth _ hlen' hends
    rw [skipBlanks_append_cons hb (by decide)] at hread
    have htext : '(' :: (s ++ (b ++ [')'])) ++ rest = '(' :: (s ++ (b ++ ')' :: rest)) := by
      simp only [List.cons_append, List.append_assoc, List.nil_append]
    rw [htext, Tree.operand_group]
    exact atom_group hread

theorem group (hb : Blank b) (hinner : Complete (.part (.chain .choice)) s t) :
    Complete (.part .atom) ('(' :: (s ++ (b ++ [')']))) (.group t) :=
  fun _ _ hlen _ => part_group hb hinner hlen

theorem leaf (h : Leaf s t) : Complete (.part .atom) s t := by
  intro depth rest hlen hrest
  obtain ⟨c, r, rfl, _, _, hne⟩ := h.head
  rw [part, List.cons_append, atom_cons_of_ne hne, ← List.cons_append, leaf?_append h hrest.clear]

end Complete

theorem complete_of_derives (h : Derives φ s t) (hdiv : t.divisorsNumeric) : Complete φ s t := by
  induction h with
  | chain first more ihfirst ihmore =>
    have hfirst := divisorsNumeric_of_more more rfl hdiv
    exact .chain (ihfirst hfirst) (ihmore hdiv) more
  | last => exact .last _
  | step hop hb operand more ihoperand ihmore =>
    have hbinary := divisorsNumeric_of_more more rfl hdiv
    simp only [Tree.divisorsNumeric, Bool.and_eq_true, Bool.or_eq_true] at hbinary
    obtain ⟨⟨_, hoperand⟩, hdivisor⟩ := hbinary
    refine .step hop hb ?_ (ihoperand hoperand) (ihmore hdiv) more
    rintro ⟨rfl, hsymbolic⟩
    simp [hsymbolic] at hdivisor
  | negative hb operand ih => exact .negative hb (ih hdiv)
  | plain hb atom ih => exact .plain hb (ih hdiv) atom
  | group inner hb ih => exact .group hb (ih hdiv)
  | leaf h => exact .leaf h

theorem operand_eq_ok_iff {source : List Char} {v : Operand} :
    operand source cs = .ok v ↔ formula (cs.length + 1) cs = .done v [] := by
  unfold operand
  constructor
  · intro h
    split at h
    · cases h
      assumption
    all_goals cases h
  · intro h
    rw [h]

/-- An operand is read from a text if and only if the text is derived by a tree that stands for it.
-/
theorem operand_iff_writes {source : List Char} {v : Operand} : operand source cs = .ok v ↔
    ∃ t, Writes cs t ∧ t.divisorsNumeric ∧ t.operand = v := by
  rw [operand_eq_ok_iff]
  constructor
  · intro h
    obtain ⟨s, b, t, heq, hb, ht, hdiv, hv⟩ := reads_of_formula h
    rw [List.append_nil] at heq
    exact ⟨t, ⟨s, b, heq, hb, ht⟩, hdiv, hv⟩
  · rintro ⟨t, ⟨s, b, rfl, hb, ht⟩, hdiv, rfl⟩
    have hread := complete_of_derives ht hdiv (s ++ b).length b (Nat.le_refl _) (ends_blank hb)
    have hend : skipBlanks b = [] := by
      rw [← List.append_nil b, skipBlanks_append hb]
      rfl
    rw [hend] at hread
    exact hread

end Reading

namespace Formula

open Reading

theorem parse_eq_ok_iff {text : String} {e : Formula} : parse text = .ok e ↔
    ∃ v, operand text.toList text.toList = .ok v ∧ v.toFormula = e := by
  unfold parse
  cases operand text.toList text.toList <;> simp [Except.map]

theorem parse_eq_error_iff {text : String} {fault : Fault} : parse text = .error fault ↔
    operand text.toList text.toList = .error fault := by
  unfold parse
  cases operand text.toList text.toList <;> simp [Except.map]

/-- A text is read as a formula if and only if some tree writes it. -/
theorem exists_parse_iff_writes {text : String} : (∃ e, parse text = .ok e) ↔
    ∃ t, Writes text.toList t ∧ t.divisorsNumeric := by
  simp only [parse_eq_ok_iff, operand_iff_writes]
  constructor
  · rintro ⟨_, _, ⟨t, ht, hdiv, _⟩, _⟩
    exact ⟨t, ht, hdiv⟩
  · rintro ⟨t, ht, hdiv⟩
    exact ⟨_, _, ⟨t, ht, hdiv, rfl⟩, rfl⟩

/-- The parser accepts exactly the grammar. A text is read as a formula if and only if it has a
derivation whose divisors are all numeric, and the formula is the one that this derivation stands
for; no text has two derivations. -/
theorem parse_iff_writes (text : String) :
    (∀ e, parse text = .ok e ↔
      ∃ t, Writes text.toList t ∧ t.divisorsNumeric ∧ t.formula = e) ∧
    ∀ t t', Writes text.toList t → Writes text.toList t' → t = t' := by
  refine ⟨?_, fun t t' h h' => h.unique h'⟩
  intro e
  constructor
  · intro h
    cases hv : operand text.toList text.toList with
    | error fault =>
      rw [parse, hv] at h
      cases h
    | ok v =>
      rw [parse, hv] at h
      cases h
      obtain ⟨t, ht, hdiv, rfl⟩ := operand_iff_writes.mp hv
      exact ⟨t, ht, hdiv, (Tree.toFormula_operand t).symm⟩
  · rintro ⟨t, ht, hdiv, rfl⟩
    have hv : operand text.toList text.toList = .ok t.operand :=
      operand_iff_writes.mpr ⟨t, ht, hdiv, rfl⟩
    rw [parse, hv, ← Tree.toFormula_operand]
    rfl

example : (parse "2*.5e1*g/4 - w$").toOption = some (.sum
    (.scale (.scale (.ref "g") (.mul (.number 2) (.number 5))) (.div (.number 1) (.number 4)))
    (.neg (.family "w"))) := by decide +kernel

end Formula

end DesignLoads
