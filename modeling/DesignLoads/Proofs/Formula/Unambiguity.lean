import DesignLoads.Proofs.Formula.Grammar

/-! A text has one derivation at most. What may follow a part of a formula cannot begin anything
that would go on with that part, so that of two derivations along one text neither can stop earlier.
-/

namespace DesignLoads

section Blanks

variable {b b' cs cs' : List Char} {c c' : Char}

open Grammar

theorem skipBlanks_append (hb : Blank b) : skipBlanks (b ++ cs) = skipBlanks cs :=
  List.dropWhile_append_of_pos hb

theorem skipBlanks_cons (hc : isBlank c = false) : skipBlanks (c :: cs) = c :: cs := by
  rw [skipBlanks, List.dropWhile_cons, hc]
  rfl

theorem skipBlanks_append_cons (hb : Blank b) (hc : isBlank c = false) :
    skipBlanks (b ++ c :: cs) = c :: cs := by
  rw [skipBlanks_append hb, skipBlanks_cons hc]

/-- The blanks before the first token of a text are determined. -/
theorem blanks_eq (hb : Blank b) (hb' : Blank b') (hc : isBlank c = false)
    (hc' : isBlank c' = false) (h : b ++ c :: cs = b' ++ c' :: cs') :
    b = b' ∧ c = c' ∧ cs = cs' := by
  have hclear {x : Char} (hx : isBlank x = false) (r : List Char) : Clear isBlank (x :: r) := by
    intro y hy
    cases hy
    exact hx
  have htake : b = b' := by
    calc
      b = (b ++ c :: cs).takeWhile isBlank := (takeWhile_append_of_clear hb (hclear hc cs)).symm
      _ = (b' ++ c' :: cs').takeWhile isBlank := by rw [h]
      _ = b' := takeWhile_append_of_clear hb' (hclear hc' cs')
  subst htake
  have hrest := List.append_cancel_left h
  exact ⟨rfl, (List.cons.inj hrest).1, (List.cons.inj hrest).2⟩

end Blanks

namespace Operator

theorem isBlank_symbol (op : Operator) : isBlank op.symbol = false := by cases op <;> decide

theorem symbol_injective {op op' : Operator} (h : op.symbol = op'.symbol) : op = op' := by
  cases op <;> cases op' <;> first | rfl | exact absurd h (by decide)

end Operator

namespace Grammar

/-- The tokens that may follow a part of a formula. -/
def Part.closers : Part → List Char
  | chain .choice => [')']
  | chain .zip => ['|', ')']
  | chain .sum => ['&', '|', ')']
  | chain .product => ['+', '-', '&', '|', ')']
  | signed | atom => ['*', '/', '+', '-', '&', '|', ')']

/-- Nothing follows, or a token that may follow the part. -/
def Ends (p : Part) (rest : List Char) : Prop := ∀ c ∈ (skipBlanks rest).head?, c ∈ p.closers

/-- The part that a phrase is, or is the end of. -/
def Phrase.whole : Phrase → Part
  | part p => p
  | more k _ => .chain k

variable {k : Level} {op : Operator} {p : Part} {b s rest cs : List Char} {left t u : Tree}

theorem mem_closers_operand {c : Char} (h : c ∈ (Part.chain k).closers) :
    c ∈ k.operand.closers := by
  cases k with
  | choice | zip => exact List.mem_cons_of_mem _ h
  | sum | product => exact List.mem_cons_of_mem _ (List.mem_cons_of_mem _ h)

theorem symbol_mem_closers (hop : op.level = k) : op.symbol ∈ k.operand.closers := by
  subst hop
  cases op <;> decide

theorem symbol_not_mem_closers (hop : op.level = k) : op.symbol ∉ (Part.chain k).closers := by
  subst hop
  cases op <;> decide

theorem Ends.operand (h : Ends (.chain k) rest) : Ends k.operand rest :=
  fun c hc => mem_closers_operand (h c hc)

theorem ends_blank (hb : Blank b) : Ends p b := by
  intro c hc
  rw [← List.append_nil b, skipBlanks_append hb] at hc
  cases hc

theorem ends_cons {c : Char} (hb : Blank b) (hblank : isBlank c = false) (hc : c ∈ p.closers) :
    Ends p (b ++ c :: rest) := by
  intro d hd
  rw [skipBlanks_append_cons hb hblank] at hd
  cases hd
  exact hc

/-- A chain does not end before one of its own operators. -/
theorem not_ends_step (hop : op.level = k) (hb : Blank b) :
    ¬ Ends (.chain k) (b ++ op.symbol :: cs) := by
  intro h
  apply symbol_not_mem_closers hop
  apply h
  rw [skipBlanks_append_cons hb (Operator.isBlank_symbol op)]
  rfl

/-- What goes on after an operand may follow it. -/
theorem Derives.ends_more (h : Derives (.more k left) s u) (hrest : Ends (.chain k) rest) :
    Ends k.operand (s ++ rest) := by
  cases h with
  | last => exact hrest.operand
  | step hop hb =>
    rw [List.append_assoc]
    exact ends_cons hb (Operator.isBlank_symbol _) (symbol_mem_closers hop)

/-- A character that may go on with a leaf. -/
def isLeafTail (c : Char) : Bool := isNameTail c || c = '$' || Decimal.isNumeralTail c

theorem isLeafTail_of_isBlank {c : Char} (h : isBlank c) : isLeafTail c = false := by
  have hcase : ((c = ' ' ∨ c = '\t') ∨ c = '\r') ∨ c = '\n' := by simpa [isBlank] using h
  obtain ((rfl | rfl) | rfl) | rfl := hcase <;> decide

theorem isLeafTail_of_mem_closers {c : Char} (h : c ∈ Part.atom.closers) :
    isLeafTail c = false := by
  have hall : Part.atom.closers.all fun c => !isLeafTail c := by decide
  simpa using List.all_eq_true.mp hall c h

/-- Nothing that may follow an atom goes on with a leaf. -/
theorem Ends.clear (h : Ends .atom rest) : Clear isLeafTail rest := by
  intro c hc
  cases hb : isBlank c with
  | true => exact isLeafTail_of_isBlank hb
  | false =>
    cases rest with
    | nil => cases hc
    | cons d r =>
      cases hc
      apply isLeafTail_of_mem_closers
      apply h
      rw [skipBlanks_cons hb]
      rfl

theorem isAlpha_iff {c : Char} : c.isAlpha ↔
    65 ≤ c.toNat ∧ c.toNat ≤ 90 ∨ 97 ≤ c.toNat ∧ c.toNat ≤ 122 := by
  change (c.isUpper || decide ('a'.val ≤ c.val) && decide (c.val ≤ 'z'.val)) = true ↔ _
  rw [Bool.or_eq_true, Bool.and_eq_true]
  exact or_congr decide_eq_true_iff (and_congr decide_eq_true_iff decide_eq_true_iff)

theorem isNameHead_of_numeral {c : Char} (h : c.isDigit ∨ c = '.') : isNameHead c = false := by
  obtain h | rfl := h
  · have hdigit : 48 ≤ c.toNat ∧ c.toNat ≤ 57 := Char.isDigit_iff_toNat.mp h
    have halpha : c.isAlpha = false := by
      rw [Bool.eq_false_iff, Ne, isAlpha_iff]
      omega
    have hne : c ≠ '_' := by
      rintro rfl
      exact absurd h (by decide)
    simp only [isNameHead, halpha, hne, decide_false, Bool.or_self]
  · decide

/-- The leaf at the head of a text, and the rest. -/
def leaf? : List Char → Option (Tree × List Char)
  | [] => none
  | c :: r =>
    if isNameHead c then
      match r.dropWhile isNameTail with
      | '$' :: r' => some (.family (String.ofList (c :: r.takeWhile isNameTail)), r')
      | r' => some (.name (String.ofList (c :: r.takeWhile isNameTail)), r')
    else (Decimal.scan? (c :: r)).map fun (d, r') =>
      (.number (String.ofList ((c :: r).take ((c :: r).length - r'.length))) d, r')

theorem leaf?_append (h : Leaf s t) (hrest : Clear isLeafTail rest) :
    leaf? (s ++ rest) = some (t, rest) := by
  have hname : Clear isNameTail rest := by
    intro c hc
    have htail := hrest c hc
    simp only [isLeafTail, Bool.or_eq_false_iff] at htail
    exact htail.1.1
  cases h with
  | @name s hs =>
    cases s with
    | nil => cases hs
    | cons c r =>
      obtain ⟨hhead, htail⟩ : isNameHead c ∧ r.all isNameTail := by simpa [isName] using hs
      have hr : ∀ c ∈ r, isNameTail c := List.all_eq_true.mp htail
      rw [List.cons_append, leaf?, if_pos hhead, dropWhile_append_of_clear hr hname,
        takeWhile_append_of_clear hr hname]
      split
      · have hdollar := hrest '$' (by rfl)
        exact absurd hdollar (by decide)
      · rfl
  | @family s hs =>
    cases s with
    | nil => cases hs
    | cons c r =>
      obtain ⟨hhead, htail⟩ : isNameHead c ∧ r.all isNameTail := by simpa [isName] using hs
      have hr : ∀ c ∈ r, isNameTail c := List.all_eq_true.mp htail
      have hdollar : Clear isNameTail ('$' :: rest) := by
        intro d hd
        cases hd
        decide
      rw [List.append_assoc, List.cons_append, leaf?, if_pos hhead]
      simp only [List.cons_append, List.nil_append, dropWhile_append_of_clear hr hdollar,
        takeWhile_append_of_clear hr hdollar]
  | number hn =>
    have hnum : Clear Decimal.isNumeralTail rest := by
      intro c hc
      have htail := hrest c hc
      simp only [isLeafTail, Bool.or_eq_false_iff] at htail
      exact htail.2
    have hscan := Decimal.scan?_append hn hnum
    obtain ⟨c, r, rfl, hc⟩ := hn.head
    have htake : (c :: r ++ rest).take ((c :: r ++ rest).length - rest.length) = c :: r := by
      rw [List.length_append, Nat.add_sub_cancel, List.take_left]
    rw [List.cons_append] at hscan htake ⊢
    rw [leaf?, if_neg (by simp [isNameHead_of_numeral hc]), hscan, Option.map_some]
    simp only [htake]

theorem leaf?_eq (h : leaf? cs = some (t, rest)) : ∃ s, Leaf s t ∧ cs = s ++ rest := by
  unfold leaf? at h
  split at h
  · cases h
  · rename_i c r
    split at h
    · rename_i hhead
      have hname : isName (c :: r.takeWhile isNameTail) := by
        simp only [isName, hhead, List.all_takeWhile, Bool.and_self]
      have hr : r = r.takeWhile isNameTail ++ r.dropWhile isNameTail :=
        List.takeWhile_append_dropWhile.symm
      split at h
      · rename_i r' hdrop
        cases h
        refine ⟨_, .family hname, ?_⟩
        rw [hdrop] at hr
        rw [List.append_assoc, List.cons_append, List.singleton_append, ← hr]
      · cases h
        exact ⟨_, .name hname, by rw [List.cons_append, ← hr]⟩
    · obtain ⟨⟨d, r'⟩, hscan, heq⟩ := Option.map_eq_some_iff.mp h
      cases heq
      obtain ⟨s, hs, hcs⟩ := Decimal.scan?_eq hscan
      rw [hcs, List.length_append, Nat.add_sub_cancel, List.take_left]
      exact ⟨s, .number hs, rfl⟩

/-- No leaf begins like another token. -/
theorem Leaf.head (h : Leaf s t) :
    ∃ c r, s = c :: r ∧ isBlank c = false ∧ c ≠ '-' ∧ c ≠ '(' := by
  have hkind : ∃ c r, s = c :: r ∧ (isNameHead c ∨ c.isDigit ∨ c = '.') := by
    cases h with
    | @name s hs =>
      cases s with
      | nil => cases hs
      | cons c r => exact ⟨c, r, rfl, .inl (Bool.and_eq_true_iff.mp hs).1⟩
    | @family s hs =>
      cases s with
      | nil => cases hs
      | cons c r => exact ⟨c, r ++ ['$'], rfl, .inl (Bool.and_eq_true_iff.mp hs).1⟩
    | number hn =>
      obtain ⟨c, r, hs, hc⟩ := hn.head
      exact ⟨c, r, hs, .inr hc⟩
  obtain ⟨c, r, hs, hc⟩ := hkind
  have hne : ∀ d ∈ [' ', '\t', '\r', '\n', '-', '('], c ≠ d := by
    intro d hd hcd
    subst hcd
    have hall : [' ', '\t', '\r', '\n', '-', '('].all fun d =>
        !(isNameHead d || d.isDigit || d = '.') := by decide
    have hnone := List.all_eq_true.mp hall c hd
    simp only [Bool.not_eq_true', Bool.or_eq_false_iff, decide_eq_false_iff_not] at hnone
    obtain ⟨⟨hname, hdigit⟩, hpoint⟩ := hnone
    rcases hc with hc | hc | hc
    · exact Bool.false_ne_true (hname.symm.trans hc)
    · exact Bool.false_ne_true (hdigit.symm.trans hc)
    · exact hpoint hc
  refine ⟨c, r, hs, ?_, hne '-' (by decide), hne '(' (by decide)⟩
  simp only [isBlank, hne ' ' (by decide), hne '\t' (by decide), hne '\r' (by decide),
    hne '\n' (by decide), decide_false, Bool.or_self]

theorem Derives.head (h : Derives (.part .atom) s t) :
    ∃ c r, s = c :: r ∧ isBlank c = false ∧ c ≠ '-' := by
  cases h with
  | group => exact ⟨'(', _, rfl, by decide, by decide⟩
  | leaf h =>
    obtain ⟨c, r, hs, hb, hc, _⟩ := h.head
    exact ⟨c, r, hs, hb, hc⟩

/-- Along one text a phrase has one derivation at most that ends where the phrase may end. -/
theorem Derives.unambiguous {φ : Phrase} {s' rest' : List Char} {t' : Tree} (h : Derives φ s t)
    (h' : Derives φ s' t') (heq : s ++ rest = s' ++ rest') (hrest : Ends φ.whole rest)
    (hrest' : Ends φ.whole rest') : s = s' ∧ t = t' := by
  -- the second derivation is taken apart along the first, whatever follows the two texts
  induction h generalizing s' t' rest rest' with
  | chain first more ihfirst ihmore =>
    cases h' with
    | chain first' more' =>
      rw [List.append_assoc, List.append_assoc] at heq
      obtain ⟨rfl, rfl⟩ := ihfirst first' heq (more.ends_more hrest) (more'.ends_more hrest')
      obtain ⟨rfl, rfl⟩ := ihmore more' (List.append_cancel_left heq) hrest hrest'
      exact ⟨rfl, rfl⟩
  | last =>
    cases h' with
    | last => exact ⟨rfl, rfl⟩
    | step hop hb operand more =>
      -- the second goes on with an operator that must not follow the chain
      rw [List.nil_append, List.append_assoc] at heq
      rw [heq] at hrest
      exact absurd hrest (not_ends_step hop hb)
  | step hop hb operand more ihoperand ihmore =>
    cases h' with
    | last =>
      rw [List.nil_append, List.append_assoc] at heq
      rw [← heq] at hrest'
      exact absurd hrest' (not_ends_step hop hb)
    | step hop' hb' operand' more' =>
      simp only [List.append_assoc, List.cons_append] at heq
      obtain ⟨rfl, hsymbol, htail⟩ := blanks_eq hb hb' (Operator.isBlank_symbol _)
        (Operator.isBlank_symbol _) heq
      obtain rfl := Operator.symbol_injective hsymbol
      obtain ⟨rfl, rfl⟩ :=
        ihoperand operand' htail (more.ends_more hrest) (more'.ends_more hrest')
      obtain ⟨rfl, rfl⟩ := ihmore more' (List.append_cancel_left htail) hrest hrest'
      exact ⟨rfl, rfl⟩
  | negative hb operand ih =>
    cases h' with
    | negative hb' operand' =>
      simp only [List.append_assoc, List.cons_append] at heq
      obtain ⟨rfl, _, htail⟩ := blanks_eq hb hb' (by decide) (by decide) heq
      obtain ⟨rfl, rfl⟩ := ih operand' htail hrest hrest'
      exact ⟨rfl, rfl⟩
    | plain hb' atom =>
      obtain ⟨c, r, rfl, hblank, hne⟩ := atom.head
      simp only [List.append_assoc, List.cons_append] at heq
      exact absurd (blanks_eq hb hb' (by decide) hblank heq).2.1.symm hne
  | plain hb atom ih =>
    obtain ⟨c, r, rfl, hblank, hne⟩ := atom.head
    cases h' with
    | negative hb' operand' =>
      simp only [List.append_assoc, List.cons_append] at heq
      exact absurd (blanks_eq hb hb' hblank (by decide) heq).2.1 hne
    | plain hb' atom' =>
      obtain ⟨c', r', rfl, hblank', hne'⟩ := atom'.head
      rw [List.append_assoc, List.append_assoc] at heq
      obtain ⟨rfl, _, _⟩ := blanks_eq hb hb' hblank hblank' heq
      obtain ⟨hs, rfl⟩ := ih atom' (List.append_cancel_left heq) hrest hrest'
      rw [hs]
      exact ⟨rfl, rfl⟩
  | group inner hb ih =>
    cases h' with
    | group inner' hb' =>
      simp only [List.append_assoc, List.cons_append, List.nil_append, List.cons.injEq,
        true_and] at heq
      have hends {b cs : List Char} (hb : Blank b) : Ends (.chain .choice) (b ++ ')' :: cs) :=
        ends_cons hb (by decide) (by decide)
      obtain ⟨rfl, rfl⟩ := ih inner' heq (hends hb) (hends hb')
      obtain ⟨rfl, _, _⟩ :=
        blanks_eq hb hb' (by decide) (by decide) (List.append_cancel_left heq)
      exact ⟨rfl, rfl⟩
    | leaf h' =>
      obtain ⟨c, r, rfl, _, _, hne⟩ := h'.head
      exact absurd (List.cons.inj heq).1.symm hne
  | leaf h =>
    cases h' with
    | group inner' hb' =>
      obtain ⟨c, r, rfl, _, _, hne⟩ := h.head
      exact absurd (List.cons.inj heq).1 hne
    | leaf h' =>
      -- both leaves are what `leaf?` finds in the one text
      have hread := leaf?_append h hrest.clear
      rw [heq, leaf?_append h' hrest'.clear] at hread
      cases hread
      exact ⟨List.append_cancel_right heq, rfl⟩

/-- A text has one derivation at most. -/
theorem Writes.unique {t' : Tree} (h : Writes cs t) (h' : Writes cs t') : t = t' := by
  obtain ⟨s, b, rfl, hb, hs⟩ := h
  obtain ⟨s', b', heq, hb', hs'⟩ := h'
  exact (hs.unambiguous hs' heq (ends_blank hb) (ends_blank hb')).2

end Grammar

end DesignLoads
