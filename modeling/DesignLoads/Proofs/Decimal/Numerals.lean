import DesignLoads.Decimal.Basic

/-! Numerals: digits with an optional fraction and an optional exponent, and their values. The
longest numeral at the head of a text is the one that a derivation of the text has there, as nothing
that may follow a numeral could belong to one. -/

namespace DesignLoads

/-- What a text begins with, if anything, is not of the class `p`. -/
def Clear (p : Char → Bool) (cs : List Char) : Prop := ∀ c ∈ cs.head?, p c = false

section Prefixes

variable {p : Char → Bool} {ds rest : List Char}

theorem takeWhile_eq_nil_of_clear (h : Clear p rest) : rest.takeWhile p = [] := by
  cases rest with
  | nil => rfl
  | cons c r => rw [List.takeWhile_cons, h c rfl]; rfl

theorem dropWhile_eq_self_of_clear (h : Clear p rest) : rest.dropWhile p = rest := by
  cases rest with
  | nil => rfl
  | cons c r => rw [List.dropWhile_cons, h c rfl]; rfl

theorem takeWhile_append_of_clear (hd : ∀ c ∈ ds, p c) (h : Clear p rest) :
    (ds ++ rest).takeWhile p = ds := by
  rw [List.takeWhile_append_of_pos hd, takeWhile_eq_nil_of_clear h, List.append_nil]

theorem dropWhile_append_of_clear (hd : ∀ c ∈ ds, p c) (h : Clear p rest) :
    (ds ++ rest).dropWhile p = rest := by
  rw [List.dropWhile_append_of_pos hd, dropWhile_eq_self_of_clear h]

theorem all_takeWhile (p : Char → Bool) (cs : List Char) : ∀ c ∈ cs.takeWhile p, p c :=
  List.all_eq_true.mp List.all_takeWhile

end Prefixes

namespace Decimal

/-- The part of a numeral after its digits before the point, and the digits in it. -/
inductive Fraction : List Char → List Char → Prop where
  | none : Fraction [] []
  | digits {ds : List Char} (h : ∀ c ∈ ds, c.isDigit) : Fraction ('.' :: ds) ds

/-- The letter that begins an exponent. -/
def isExponentLetter (c : Char) : Bool := c = 'e' || c = 'E'

/-- An optional sign, and whether it is a minus. -/
inductive Sign : List Char → Bool → Prop where
  | none : Sign [] false
  | plus : Sign ['+'] false
  | minus : Sign ['-'] true

/-- The last part of a numeral, and the power of ten that it stands for. -/
inductive Power : List Char → Int → Prop where
  | none : Power [] 0
  | digits {c : Char} {sign ds : List Char} {negative : Bool} (hc : isExponentLetter c)
      (hs : Sign sign negative) (h : ∀ c ∈ ds, c.isDigit) (hd : ds ≠ []) :
      Power (c :: (sign ++ ds)) (if negative then -(ofDigits ds : Int) else ofDigits ds)

/-- An unsigned numeral and its value. There is a digit before the point or after it. -/
inductive Numeral : List Char → Decimal → Prop where
  | intro {whole point fraction power : List Char} {e : Int} (hw : ∀ c ∈ whole, c.isDigit)
      (hf : Fraction point fraction) (hp : Power power e) (hd : whole ++ fraction ≠ []) :
      Numeral (whole ++ (point ++ power)) ⟨ofDigits (whole ++ fraction), e - fraction.length⟩

/-- A character that may belong to a numeral after its first digit, a sign apart. -/
def isNumeralTail (c : Char) : Bool := c.isDigit || c = '.' || isExponentLetter c

variable {cs rest ds power s : List Char} {e : Int} {d : Decimal}

theorem clear_isDigit (h : Clear isNumeralTail rest) : Clear Char.isDigit rest := by
  intro c hc
  have htail := h c hc
  simp only [isNumeralTail, Bool.or_eq_false_iff] at htail
  exact htail.1.1

theorem spanDigits_append (hd : ∀ c ∈ ds, c.isDigit) (h : Clear Char.isDigit rest) :
    spanDigits (ds ++ rest) = (ds, rest) := by
  rw [spanDigits, takeWhile_append_of_clear hd h, dropWhile_append_of_clear hd h]

theorem spanDigits_eq {ds rest : List Char} (h : spanDigits cs = (ds, rest)) :
    cs = ds ++ rest ∧ ∀ c ∈ ds, c.isDigit := by
  cases h
  exact ⟨List.takeWhile_append_dropWhile.symm, all_takeWhile _ _⟩

/-- The sign at the head of a text, and the rest. -/
def splitSign : List Char → Bool × List Char
  | '+' :: r => (false, r)
  | '-' :: r => (true, r)
  | r => (false, r)

theorem splitSign_append {sign : List Char} {negative : Bool} (hs : Sign sign negative)
    (h : ∀ c ∈ cs.head?, c.isDigit) : splitSign (sign ++ cs) = (negative, cs) := by
  cases hs with
  | none =>
    unfold splitSign
    split
    · rename_i r hr
      exact absurd (h '+' (congrArg List.head? hr)) (by decide)
    · rename_i r hr
      exact absurd (h '-' (congrArg List.head? hr)) (by decide)
    · rfl
  | plus => rfl
  | minus => rfl

theorem splitSign_eq {negative : Bool} (h : splitSign cs = (negative, rest)) :
    ∃ sign, Sign sign negative ∧ cs = sign ++ rest := by
  unfold splitSign at h
  split at h
  · cases h
    exact ⟨_, .plus, rfl⟩
  · cases h
    exact ⟨_, .minus, rfl⟩
  · cases h
    exact ⟨_, .none, rfl⟩

theorem scanExponent_cons {c : Char} (hc : isExponentLetter c) (r : List Char) :
    scanExponent (c :: r) =
      match spanDigits (splitSign r).2 with
      | ([], _) => (0, c :: r)
      | (ds, rest) => (if (splitSign r).1 then -(ofDigits ds : Int) else ofDigits ds, rest) := by
  have hletter : c = 'e' ∨ c = 'E' := by simpa [isExponentLetter] using hc
  unfold scanExponent
  simp only [if_pos hletter]
  rfl

theorem scanExponent_cons_of_not {c : Char} (hc : isExponentLetter c = false) (r : List Char) :
    scanExponent (c :: r) = (0, c :: r) := by
  have hne : ¬ (c = 'e' ∨ c = 'E') := by simpa [isExponentLetter] using hc
  unfold scanExponent
  simp only [if_neg hne]

theorem scanExponent_append (hp : Power power e) (h : Clear isNumeralTail rest) :
    scanExponent (power ++ rest) = (e, rest) := by
  cases hp with
  | none =>
    cases rest with
    | nil => rfl
    | cons c r =>
      have htail := h c rfl
      simp only [isNumeralTail, Bool.or_eq_false_iff] at htail
      exact scanExponent_cons_of_not htail.2 r
  | @digits c sign ds negative hc hs hds hd =>
    have hspan := spanDigits_append hds (clear_isDigit h)
    cases ds with
    | nil => exact absurd rfl hd
    | cons x xs =>
      -- the first digit keeps what follows the sign from being read as a sign
      have hsplit : splitSign (sign ++ (x :: xs ++ rest)) = (negative, x :: xs ++ rest) := by
        apply splitSign_append hs
        intro d hx
        cases hx
        exact hds x List.mem_cons_self
      rw [List.cons_append, List.append_assoc, scanExponent_cons hc, hsplit, hspan]

theorem scanExponent_eq (h : scanExponent cs = (e, rest)) :
    ∃ power, Power power e ∧ cs = power ++ rest := by
  cases cs with
  | nil =>
    cases h
    exact ⟨[], .none, rfl⟩
  | cons c r =>
    cases hc : isExponentLetter c with
    | false =>
      rw [scanExponent_cons_of_not hc] at h
      cases h
      exact ⟨[], .none, rfl⟩
    | true =>
      rw [scanExponent_cons hc] at h
      obtain ⟨sign, hs, hr⟩ : ∃ sign, Sign sign (splitSign r).1 ∧ r = sign ++ (splitSign r).2 :=
        splitSign_eq rfl
      split at h
      · cases h
        exact ⟨[], .none, rfl⟩
      · rename_i ds after hne hspan
        cases h
        obtain ⟨hsplit, hds⟩ := spanDigits_eq hspan
        have hd : ds ≠ [] := fun hnil => hne hnil
        refine ⟨_, .digits hc hs hds hd, ?_⟩
        rw [List.cons_append, List.append_assoc, ← hsplit, ← hr]

/-- The digits of a fraction at the head of a text, and the rest. A point alone is no fraction if no
digit stands before it. -/
def scanFraction (whole cs : List Char) : List Char × List Char :=
  match cs with
  | '.' :: r => if whole.isEmpty && (spanDigits r).1.isEmpty then ([], cs) else spanDigits r
  | cs => ([], cs)

theorem scan?_of_parts {whole fraction r r' : List Char} (hw : spanDigits cs = (whole, r))
    (hf : scanFraction whole r = (fraction, r')) (he : scanExponent r' = (e, rest)) :
    scan? cs = if whole.isEmpty && fraction.isEmpty then none
      else some (⟨ofDigits (whole ++ fraction), e - fraction.length⟩, rest) := by
  have hscan : scan? cs =
      if (spanDigits cs).1.isEmpty &&
          (scanFraction (spanDigits cs).1 (spanDigits cs).2).1.isEmpty then none
      else some (⟨ofDigits ((spanDigits cs).1 ++
          (scanFraction (spanDigits cs).1 (spanDigits cs).2).1),
        (scanExponent (scanFraction (spanDigits cs).1 (spanDigits cs).2).2).1 -
          (scanFraction (spanDigits cs).1 (spanDigits cs).2).1.length⟩,
        (scanExponent (scanFraction (spanDigits cs).1 (spanDigits cs).2).2).2) := rfl
  rw [hscan, hw, hf]
  simp only [he]

theorem clear_exponentLetter {c : Char} (hc : isExponentLetter c) (r : List Char) :
    Clear (fun c => c.isDigit || c = '.') (c :: r) := by
  intro d hd
  cases hd
  have hcase : c = 'e' ∨ c = 'E' := by simpa [isExponentLetter] using hc
  obtain rfl | rfl := hcase <;> decide

theorem clear_power (hp : Power power e) (h : Clear isNumeralTail rest) :
    Clear (fun c => c.isDigit || c = '.') (power ++ rest) := by
  cases hp with
  | none =>
    intro c hc
    have htail := h c hc
    simp only [isNumeralTail, Bool.or_eq_false_iff] at htail
    simpa using htail.1
  | digits hletter => exact clear_exponentLetter hletter _

theorem scanFraction_append {whole point fraction : List Char} (hf : Fraction point fraction)
    (hd : whole ++ fraction ≠ []) (h : Clear (fun c => c.isDigit || c = '.') rest) :
    scanFraction whole (point ++ rest) = (fraction, rest) := by
  cases hf with
  | none =>
    unfold scanFraction
    split
    · rename_i r hr
      exact absurd (h '.' (congrArg List.head? hr)) (by decide)
    · rfl
  | digits hds =>
    have hclear : Clear Char.isDigit rest := by
      intro c hc
      have hboth := h c hc
      simp only [Bool.or_eq_false_iff] at hboth
      exact hboth.1
    rw [List.cons_append, scanFraction, spanDigits_append hds hclear, if_neg]
    simpa using hd

theorem scanFraction_eq {whole fraction : List Char}
    (h : scanFraction whole cs = (fraction, rest)) :
    ∃ point, Fraction point fraction ∧ cs = point ++ rest := by
  unfold scanFraction at h
  split at h
  · split at h
    · cases h
      exact ⟨[], .none, rfl⟩
    · obtain ⟨hr, hds⟩ := spanDigits_eq h
      exact ⟨_, .digits hds, by rw [hr]; rfl⟩
  · cases h
    exact ⟨[], .none, rfl⟩

theorem clear_fraction {point fraction : List Char} (hf : Fraction point fraction)
    (h : Clear (fun c => c.isDigit || c = '.') rest) : Clear Char.isDigit (point ++ rest) := by
  intro c hc
  cases hf with
  | none =>
    have hboth := h c hc
    simp only [Bool.or_eq_false_iff] at hboth
    exact hboth.1
  | digits hds =>
    cases hc
    decide

/-- A numeral is read whole, if nothing follows that might belong to a numeral. -/
theorem scan?_append (hn : Numeral s d) (h : Clear isNumeralTail rest) :
    scan? (s ++ rest) = some (d, rest) := by
  cases hn with
  | @intro whole point fraction power e hw hf hp hd =>
    have hpower := clear_power hp h
    have hspan := spanDigits_append hw (clear_fraction hf hpower)
    rw [List.append_assoc, List.append_assoc,
      scan?_of_parts hspan (scanFraction_append hf hd hpower) (scanExponent_append hp h), if_neg]
    simpa using hd

/-- What is read as a number is a numeral. -/
theorem scan?_eq (h : scan? cs = some (d, rest)) : ∃ s, Numeral s d ∧ cs = s ++ rest := by
  obtain ⟨whole, r, hspan⟩ : ∃ whole r, spanDigits cs = (whole, r) := ⟨_, _, rfl⟩
  obtain ⟨fraction, r', hfrac⟩ : ∃ fraction r', scanFraction whole r = (fraction, r') := ⟨_, _, rfl⟩
  obtain ⟨e, after, hexp⟩ : ∃ e after, scanExponent r' = (e, after) := ⟨_, _, rfl⟩
  rw [scan?_of_parts hspan hfrac hexp] at h
  split at h
  · cases h
  · rename_i hne
    cases h
    obtain ⟨hcs, hw⟩ := spanDigits_eq hspan
    obtain ⟨point, hf, hr⟩ := scanFraction_eq hfrac
    obtain ⟨power, hp, hr'⟩ := scanExponent_eq hexp
    have hd : whole ++ fraction ≠ [] := by simpa using hne
    refine ⟨_, .intro hw hf hp hd, ?_⟩
    rw [hcs, hr, hr', List.append_assoc, List.append_assoc]

theorem spanDigits_append_suffix (hd : ∀ c ∈ ds, c.isDigit) (rest : List Char) :
    ∃ more r, spanDigits (ds ++ rest) = (ds ++ more, r) ∧ r <:+ rest := by
  refine ⟨rest.takeWhile Char.isDigit, rest.dropWhile Char.isDigit, ?_, List.dropWhile_suffix _⟩
  rw [spanDigits, List.takeWhile_append_of_pos hd, List.dropWhile_append_of_pos hd]

theorem scanExponent_suffix (cs : List Char) : (scanExponent cs).2 <:+ cs := by
  have hexp : scanExponent cs = ((scanExponent cs).1, (scanExponent cs).2) := rfl
  obtain ⟨power, _, hcs⟩ := scanExponent_eq hexp
  exact ⟨power, hcs.symm⟩

theorem scanFraction_suffix (whole cs : List Char) : (scanFraction whole cs).2 <:+ cs := by
  have hfrac : scanFraction whole cs = ((scanFraction whole cs).1, (scanFraction whole cs).2) := rfl
  obtain ⟨point, _, hcs⟩ := scanFraction_eq hfrac
  exact ⟨point, hcs.symm⟩

/-- An exponent goes on with the digits that follow it. -/
theorem scanExponent_append_suffix (hp : Power power e) (rest : List Char) :
    (scanExponent (power ++ rest)).2 <:+ rest := by
  cases hp with
  | none => exact scanExponent_suffix rest
  | @digits c sign ds negative hc hs hds hd =>
    obtain ⟨more, r, hspan, hr⟩ := spanDigits_append_suffix hds rest
    cases ds with
    | nil => exact absurd rfl hd
    | cons x xs =>
      have hsplit : splitSign (sign ++ (x :: xs ++ rest)) = (negative, x :: xs ++ rest) := by
        apply splitSign_append hs
        intro d hx
        cases hx
        exact hds x List.mem_cons_self
      rw [List.cons_append, List.append_assoc, scanExponent_cons hc, hsplit, hspan]
      exact hr

theorem exists_scan?_of_parts {whole fraction r r' : List Char} (hw : spanDigits cs = (whole, r))
    (hf : scanFraction whole r = (fraction, r')) (hd : whole ++ fraction ≠ [])
    (he : (scanExponent r').2 <:+ rest) : ∃ d r, scan? cs = some (d, r) ∧ r <:+ rest := by
  have hne : ¬ (whole.isEmpty && fraction.isEmpty) = true := by simpa using hd
  exact ⟨_, _, (scan?_of_parts hw hf rfl).trans (if_neg hne), he⟩

/-- A numeral is read whole, or as the beginning of a longer one. -/
theorem scan?_append_suffix (hn : Numeral s d) (rest : List Char) :
    ∃ d' r, scan? (s ++ rest) = some (d', r) ∧ r <:+ rest := by
  cases hn with
  | @intro whole point fraction power e hw hf hp hd =>
    rw [List.append_assoc, List.append_assoc]
    have hexponent := scanExponent_append_suffix hp rest
    cases hp with
    | digits hc =>
      -- an exponent ends the digits before it, whatever follows
      have hclear := clear_exponentLetter hc
      exact exists_scan?_of_parts (spanDigits_append hw (clear_fraction hf (hclear _)))
        (scanFraction_append hf hd (hclear _)) hd hexponent
    | none =>
      cases hf with
      | none =>
        obtain ⟨more, r, hspan, hr⟩ := spanDigits_append_suffix hw rest
        have hd' : whole ++ more ++ (scanFraction (whole ++ more) r).1 ≠ [] := by
          rw [List.append_nil] at hd
          simp [hd]
        exact exists_scan?_of_parts hspan rfl hd'
          (((scanExponent_suffix _).trans (scanFraction_suffix _ r)).trans hr)
      | digits hds =>
        have hclear : Clear Char.isDigit ('.' :: (fraction ++ rest)) := by
          intro c hc
          cases hc
          decide
        obtain ⟨more, r, hspan, hr⟩ := spanDigits_append_suffix hds rest
        have hd' : whole ++ (fraction ++ more) ≠ [] := by
          rw [← List.append_assoc]
          exact List.append_ne_nil_of_left_ne_nil hd more
        have hfraction :
            scanFraction whole ('.' :: (fraction ++ rest)) = (fraction ++ more, r) := by
          rw [scanFraction, hspan, if_neg]
          simpa using hd'
        exact exists_scan?_of_parts (spanDigits_append hw hclear) hfraction hd'
          ((scanExponent_suffix r).trans hr)

/-- A numeral begins with a digit or with a point. -/
theorem Numeral.head (h : Numeral s d) : ∃ c r, s = c :: r ∧ (c.isDigit ∨ c = '.') := by
  cases h with
  | @intro whole point fraction power e hw hf hp hd =>
    cases whole with
    | cons c r => exact ⟨c, _, rfl, .inl (hw c List.mem_cons_self)⟩
    | nil =>
      cases hf with
      | none => exact absurd rfl hd
      | digits => exact ⟨'.', _, rfl, .inr rfl⟩

end Decimal

end DesignLoads
