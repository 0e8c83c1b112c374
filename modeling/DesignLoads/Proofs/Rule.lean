import DesignLoads.Proofs.Decimal.Layout
import DesignLoads.Proofs.Formula.Expansion
import DesignLoads.Proofs.Formula.Printing
import DesignLoads.Rule

/-! The text of a rule. A name, an equals sign and the text of a formula are read as the rule of
that name and that formula. -/

namespace DesignLoads

open Reading

section Names

variable {c : Char} {cs : List Char}

theorem toNat_of_isNameTail (h : isNameTail c) : 39 ≤ c.toNat ∧ c.toNat ≤ 122 := by
  have hcase : c.isAlphanum ∨ c = '_' ∨ c = '.' ∨ c = '\x27' := by
    simpa [isNameTail, or_assoc] using h
  obtain h | rfl | rfl | rfl := hcase
  · rw [Char.isAlphanum, Bool.or_eq_true, Grammar.isAlpha_iff, Char.isDigit_iff_toNat] at h
    change _ ∨ 48 ≤ c.toNat ∧ c.toNat ≤ 57 at h
    omega
  all_goals decide

theorem isWhiteSpace_of_isNameTail (h : isNameTail c) : Unicode.isWhiteSpace c = false := by
  obtain ⟨hge, hle⟩ := toNat_of_isNameTail h
  exact Unicode.isWhiteSpace_of_ascii (by omega) (by omega)

theorem ne_equals_of_isNameTail (h : isNameTail c) : c ≠ '=' := by
  rintro rfl
  exact absurd h (by decide)

theorem isNameTail_of_isNameHead (h : isNameHead c) : isNameTail c := by
  simp only [isNameHead, isNameTail, Char.isAlphanum, Bool.or_eq_true] at h ⊢
  obtain h | h := h
  · exact .inl (.inl (.inl (.inl h)))
  · exact .inl (.inl (.inr h))

theorem isNameTail_of_isName (h : isName cs) : ∀ c ∈ cs, isNameTail c := by
  cases cs with
  | nil => cases h
  | cons d ds =>
    obtain ⟨hhead, htail⟩ : isNameHead d ∧ ds.all isNameTail := by simpa [isName] using h
    intro c hc
    obtain rfl | hc := List.mem_cons.mp hc
    · exact isNameTail_of_isNameHead hhead
    · exact List.all_eq_true.mp htail c hc

theorem trim_append_space (hne : cs ≠ []) (h : ∀ c ∈ cs, Unicode.isWhiteSpace c = false) :
    Unicode.trim (cs ++ [' ']) = cs := by
  have hback : Unicode.trimStart (' ' :: cs.reverse) = cs.reverse := by
    have hrest : Unicode.trimStart (cs.reverse ++ []) = cs.reverse ++ [] :=
      Unicode.trimStart_append (by simpa using hne) (by simpa using h)
    rw [List.append_nil] at hrest
    rw [Unicode.trimStart, List.dropWhile_cons, if_pos (by decide)]
    exact hrest
  rw [Unicode.trim, Unicode.trimStart_append hne h, List.reverse_append]
  change (Unicode.trimStart (' ' :: cs.reverse)).reverse = cs
  rw [hback, List.reverse_reverse]

end Names

/-- The text of a number that was read is read as that number. -/
theorem Tree.IsLiteral.readsBack {x : Float} (h : Tree.IsLiteral x) (hfin : x.isFinite) :
    ReadsBack x := by
  obtain ⟨d, rfl⟩ := h
  exact exists_numeral_chars hfin d.toBits_toFloat_lt

namespace Reading

/-- A printed text is read whole, with blanks before it. -/
theorem operand_of_prints {p : Grammar.Part} {b s source : List Char} {v : Operand}
    (h : Prints p s v) (hb : Grammar.Blank b) : operand source (b ++ s) = .ok v := by
  obtain ⟨t, ht, hdiv, hv⟩ := (h.of_rank_le (p := .chain .choice) p.rank_mem.1).blank (by simp) hb
  exact operand_iff_writes.mpr ⟨t, ⟨_, [], (List.append_nil _).symm, blank_nil, ht⟩, hdiv, hv⟩

end Reading

namespace Rule

variable {text name : String} {rule : Rule}

theorem split?_name {left right : List Char} (h : ∀ c ∈ left, c ≠ '=') :
    split? (left ++ '=' :: right) = some (left, right) := by
  have hclear : Clear (· ≠ '=') ('=' :: right) := by
    intro c hc
    cases hc
    rfl
  have hleft : ∀ c ∈ left, decide (c ≠ '=') = true := by simpa using h
  rw [split?, takeWhile_append_of_clear hleft hclear, dropWhile_append_of_clear hleft hclear]

/-- A rule has a name, and a formula that was read. -/
theorem parse_eq_ok (h : parse text = .ok rule) : isName rule.name.toList ∧
    ∃ source cs v, operand source cs = .ok v ∧ rule.formula = v.toFormula := by
  unfold parse at h
  split at h
  · rename_i r hread
    cases h
    unfold read at hread
    split at hread
    · cases hread
    · dsimp only at hread
      split at hread
      · cases hread
      split at hread
      · cases hread
      rename_i left right _ _ hname
      obtain ⟨v, hv, hread⟩ := bind_eq_ok_iff.mp hread
      cases hread
      refine ⟨?_, _, _, v, hv, rfl⟩
      simpa using hname
  · cases h

/-- A name, an equals sign and the text of an operand are a rule. -/
theorem parse_of_prints {p : Grammar.Part} {s : String} {v : Operand} (hname : isName name.toList)
    (h : Prints p s.toList v) :
    ∃ source, parse (name ++ " = " ++ s) = .ok ⟨name, source, v.toFormula⟩ := by
  have htail := isNameTail_of_isName hname
  have hne : name.toList ≠ [] := by
    intro hnil
    rw [hnil] at hname
    cases hname
  have htext : (name ++ " = " ++ s).toList =
      (name.toList ++ [' ']) ++ '=' :: ([' '] ++ s.toList) := by
    simp
  -- a name has no equals sign, so the first one is the one after it
  have hsplit : split? (name ++ " = " ++ s).toList =
      some (name.toList ++ [' '], [' '] ++ s.toList) := by
    rw [htext]
    apply split?_name
    intro c hc
    obtain hc | hc := List.mem_append.mp hc
    · exact ne_equals_of_isNameTail (htail c hc)
    · obtain rfl := List.mem_singleton.mp hc
      decide
  have htrim := trim_append_space hne fun c hc => isWhiteSpace_of_isNameTail (htail c hc)
  have hread : ∃ source, read (name ++ " = " ++ s) = .ok ⟨name, source, v.toFormula⟩ := by
    unfold read
    rw [hsplit]
    have hempty : name.toList.isEmpty = false := by simpa using hne
    simp only [htrim, hempty, hname, operand_of_prints h Formula.blank_space, String.ofList_toList]
    exact ⟨_, rfl⟩
  obtain ⟨source, hread⟩ := hread
  exact ⟨source, by rw [parse, hread]⟩

/-- The text of a rule is that rule. A rule that was read is read again from its name and the text
of its formula, with the signs of negated numbers taken into the numbers and nothing else changed;
and a factor that was read is read again from its text. -/
theorem parse_text :
    (∀ text rule, parse text = .ok rule → (∀ x ∈ rule.formula.literals, x.isFinite) →
      ∃ source, parse (rule.name ++ " = " ++ rule.formula.text) =
        .ok ⟨rule.name, source, rule.formula.absorb⟩) ∧
    ∀ text f, Factor.parse text = .ok f → (∀ x ∈ f.literals, x.isFinite) →
      Factor.parse f.text = .ok f := by
  constructor
  · intro text rule h hfinite
    obtain ⟨hname, source, cs, v, hv, hformula⟩ := parse_eq_ok h
    obtain ⟨hfolded, hliterals⟩ := folded_of_operand hv
    -- what was read is folded, which is all that its text needs to be read again
    have hshape := hfolded.toFormula
    rw [← hformula] at hshape
    rw [← v.literals_toFormula, ← hformula] at hliterals
    have hprints := rule.formula.prints (hshape.imp_right .inl) fun x hx =>
      (hliterals x hx).readsBack (hfinite x hx)
    have htext : rule.formula.text.toList = rule.formula.chars := String.toList_ofList
    rw [← htext] at hprints
    obtain ⟨source', hparse⟩ := parse_of_prints hname hprints
    rw [Formula.toFormula_toOperand] at hparse
    exact ⟨source', hparse⟩
  · intro text f h hfinite
    unfold Factor.parse at h
    split at h
    · rename_i g hg
      cases h
      obtain ⟨_, hliterals⟩ := folded_of_operand hg
      have hprints := f.prints fun x hx => (hliterals x hx).readsBack (hfinite x hx)
      have hread : operand f.chars ([] ++ f.chars) = .ok (.numeric f) :=
        operand_of_prints hprints blank_nil
      have htext : f.text.toList = f.chars := String.toList_ofList
      rw [List.nil_append] at hread
      rw [Factor.parse, htext, hread]
    · cases h
    · cases h

/-- The sign of a number that is taken from a load becomes a part of the number. -/
theorem parse_text_of_difference :
    let f : Formula := .scale (.ref "g") (.div (.number 1) (.sub (.number 3) (.number 2.5)))
    ∃ source, parse "U = g / (3 - 2.50) - 2" =
        .ok ⟨"U", "U = g / (3 - 2.50) - 2", .sum f (.neg (.number (.number 2)))⟩ ∧
      parse "U = 1/(3-2.5)*g + -2" = .ok ⟨"U", source, .sum f (.number (.neg (.number 2)))⟩ ∧
      Factor.parse "1/(3-2.5)" = .ok (.div (.number 1) (.sub (.number 3) (.number 2.5))) := by
  intro f
  have hread : parse "U = g / (3 - 2.50) - 2" =
      .ok ⟨"U", "U = g / (3 - 2.50) - 2", .sum f (.neg (.number (.number 2)))⟩ := by
    decide +kernel
  have hfinite : ∀ x ∈ (f.sum (.neg (.number (.number 2)))).literals, x.isFinite := by
    decide +kernel
  have htext : "U" ++ " = " ++ (f.sum (.neg (.number (.number 2)))).text =
      "U = 1/(3-2.5)*g + -2" := by
    decide +kernel
  have hfactor : Factor.parse " 1 / (3 - 2.50)" =
      .ok (.div (.number 1) (.sub (.number 3) (.number 2.5))) := by
    decide +kernel
  have hfactorText : (Factor.div (.number 1) (.sub (.number 3) (.number 2.5))).text =
      "1/(3-2.5)" := by
    decide +kernel
  obtain ⟨source, hparse⟩ := parse_text.1 _ _ hread hfinite
  have hparse' := parse_text.2 _ _ hfactor (by decide +kernel)
  rw [hfactorText] at hparse'
  refine ⟨source, hread, ?_, hparse'⟩
  rw [← htext]
  exact hparse

end Rule

end DesignLoads
