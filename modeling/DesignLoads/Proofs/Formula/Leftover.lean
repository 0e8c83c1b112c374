import Mathlib.Control.Monad.Basic
import DesignLoads.Proofs.Formula.Completeness

/-! What a text goes on with after its formula. Reading never stops before the end of a formula that
the text begins with: each token is read as far as it goes, and an operator is left unread only if
no operand begins behind it, which the end of that formula would not allow. So what is left unread
stands behind the longest formula at the head of the text. -/

namespace DesignLoads

theorem length_skipBlanks_le_of_suffix {r rest : List Char} (h : r <:+ rest) :
    (skipBlanks r).length ≤ (skipBlanks rest).length := by
  obtain ⟨s, rfl⟩ := h
  rw [skipBlanks, skipBlanks, List.dropWhile_append]
  split
  · exact Nat.le_refl _
  · rw [List.length_append]
    exact Nat.le_trans (Reading.length_skipBlanks_le r) (Nat.le_add_left _ _)

namespace Grammar

variable {k : Level} {s rest : List Char} {t u left : Tree}

/-- A leaf is read whole, or as the beginning of a longer one. -/
theorem leaf?_append_suffix (h : Leaf s t) (rest : List Char) :
    ∃ t' r, leaf? (s ++ rest) = some (t', r) ∧ r <:+ rest := by
  cases h with
  | name hs =>
    cases s with
    | nil => cases hs
    | cons c r =>
      obtain ⟨hhead, htail⟩ : isNameHead c ∧ r.all isNameTail := by simpa [isName] using hs
      have hdrop : (r ++ rest).dropWhile isNameTail = rest.dropWhile isNameTail :=
        List.dropWhile_append_of_pos (List.all_eq_true.mp htail)
      have hsuffix : rest.dropWhile isNameTail <:+ rest := List.dropWhile_suffix _
      rw [List.cons_append, leaf?, if_pos hhead, hdrop]
      split
      · rename_i r' hdollar
        rw [hdollar] at hsuffix
        exact ⟨_, r', rfl, (List.suffix_cons '$' r').trans hsuffix⟩
      · exact ⟨_, _, rfl, hsuffix⟩
  | @family s hs =>
    cases s with
    | nil => cases hs
    | cons c r =>
      obtain ⟨hhead, htail⟩ : isNameHead c ∧ r.all isNameTail := by simpa [isName] using hs
      have hdrop : (r ++ '$' :: rest).dropWhile isNameTail = '$' :: rest := by
        apply dropWhile_append_of_clear (List.all_eq_true.mp htail)
        intro d hd
        cases hd
        decide
      rw [List.append_assoc, List.cons_append, leaf?, if_pos hhead, List.singleton_append, hdrop]
      exact ⟨_, rest, rfl, List.suffix_refl _⟩
  | number hn =>
    obtain ⟨d', r, hscan, hsuffix⟩ := Decimal.scan?_append_suffix hn rest
    obtain ⟨c, r', rfl, hc⟩ := hn.head
    rw [List.cons_append] at hscan ⊢
    rw [leaf?, if_neg (by simp [isNameHead_of_numeral hc]), hscan]
    exact ⟨_, r, rfl, hsuffix⟩

/-- What goes on after an operand is empty, or begins with an operator and so ends the operand. -/
theorem Derives.eq_nil_or_ends (h : Derives (.more k left) s u) :
    s = [] ∨ ∀ rest, Ends k.operand (s ++ rest) := by
  cases h with
  | last => exact .inl rfl
  | step hop hb =>
    refine .inr fun rest => ?_
    rw [List.append_assoc]
    exact ends_cons hb (Operator.isBlank_symbol _) (symbol_mem_closers hop)

end Grammar

open Grammar

namespace Reading

variable {α : Type} {o : Outcome α} {f : List Char → Outcome Operand} {k : Level} {p : Part}
  {φ : Phrase} {b s cs rest r : List Char} {t u left : Tree} {v : Operand} {c : Char}
  {n m fuel depth : Nat}

/-- Something is read, and no more than `n` characters after it are left; or the reading breaks. -/
def Outcome.LeavesAtMost (n : Nat) : Outcome α → Prop
  | done _ r => r.length ≤ n
  | absent _ => False
  | broken .. => True

theorem Outcome.LeavesAtMost.mono (h : o.LeavesAtMost n) (hle : n ≤ m) : o.LeavesAtMost m := by
  cases o with
  | done v r => exact Nat.le_trans h hle
  | absent => exact h
  | broken => trivial

theorem length_le_of_part (h : part depth p cs = .done v rest) : rest.length ≤ cs.length := by
  obtain ⟨s, b, _, rfl, _⟩ := reads_of_part reads_of_formula h
  simp only [List.length_append]
  omega

section Chains

variable {operator : Char → Bool} {combine : Operand → Step → Except (List Char) Operand}

theorem steps_leaves_step (hc : operator c) (hf : (f cs).LeavesAtMost m)
    (h : ∀ v r, f cs = .done v r → r.length ≤ m → (steps operator f fuel r).LeavesAtMost n) :
    (steps operator f (fuel + 1) (c :: cs)).LeavesAtMost n := by
  rw [steps, if_pos hc]
  cases hread : f cs with
  | absent =>
    rw [hread] at hf
    exact hf.elim
  | broken => trivial
  | done v r =>
    rw [hread] at hf
    have hrest := h v r hread hf
    dsimp only
    cases hsteps : steps operator f fuel r <;> rw [hsteps] at hrest <;> exact hrest

/-- To read on never gives anything back, and may find nothing. -/
theorem steps_leaves (hf : ∀ {cs v r}, f cs = .done v r → r.length ≤ cs.length) (fuel : Nat)
    (cs : List Char) : (steps operator f fuel cs).LeavesAtMost cs.length := by
  induction fuel generalizing cs with
  | zero => exact Nat.le_refl _
  | succ fuel ih =>
    cases cs with
    | nil => exact Nat.le_refl _
    | cons c r =>
      by_cases hc : operator c = true
      · cases hread : f r with
        | absent =>
          rw [steps, if_pos hc, hread]
          exact Nat.le_refl _
        | broken =>
          rw [steps, if_pos hc, hread]
          trivial
        | done v r' =>
          have hlen := hf hread
          have hdone : (f r).LeavesAtMost r.length := by rwa [hread]
          apply steps_leaves_step hc hdone
          intro w r'' _ hle
          exact (ih r'').mono (Nat.le_trans hle (Nat.le_succ _))
      · rw [steps, if_neg hc]
        exact Nat.le_refl _

theorem chain_leaves (hf : (f cs).LeavesAtMost m)
    (h : ∀ v r, f cs = .done v r → r.length ≤ m → (steps operator f r.length r).LeavesAtMost n) :
    (chain operator combine f cs).LeavesAtMost n := by
  unfold chain
  cases hread : f cs with
  | absent =>
    rw [hread] at hf
    exact hf.elim
  | broken => trivial
  | done v r =>
    rw [hread] at hf
    have hrest := h v r hread hf
    dsimp only
    cases hsteps : steps operator f r.length r with
    | absent =>
      rw [hsteps] at hrest
      exact hrest.elim
    | broken => trivial
    | done tail rest =>
      rw [hsteps] at hrest
      dsimp only
      cases tail.foldlM combine v with
      | error place => trivial
      | ok w => exact hrest

end Chains

/-- Whatever follows a phrase, reading goes at least to the end of the phrase. -/
def Reaches : Phrase → List Char → Prop
  | .part p, s => ∀ depth rest, (s ++ rest).length ≤ depth →
      (part depth p (s ++ rest)).LeavesAtMost (skipBlanks rest).length
  | .more k _, s => ∀ depth fuel rest, (s ++ rest).length ≤ depth →
      (skipBlanks (s ++ rest)).length ≤ fuel →
      (steps k.isOperator (part depth k.operand) fuel (skipBlanks (s ++ rest))).LeavesAtMost
        (skipBlanks rest).length

namespace Reaches

/-- An operand that an operator goes on after is read exactly, and another one at least to its end;
either way what follows is read on to the end. -/
theorem operand_more {s' : List Char} {t' : Tree} (hoperand : Reaches (.part k.operand) s)
    (operand : Derives (.part k.operand) s t) (hdiv : t.divisorsNumeric)
    (hmore : Reaches (.more k t') s') (more : Derives (.more k t') s' u)
    (hlen : (s ++ (s' ++ rest)).length ≤ depth) :
    ∃ m, (part depth k.operand (s ++ (s' ++ rest))).LeavesAtMost m ∧
      ∀ v r, part depth k.operand (s ++ (s' ++ rest)) = .done v r → r.length ≤ m →
        ∀ fuel, r.length ≤ fuel →
          (steps k.isOperator (part depth k.operand) fuel r).LeavesAtMost
            (skipBlanks rest).length := by
  obtain rfl | hends := more.eq_nil_or_ends
  · refine ⟨_, hoperand depth rest hlen, fun v r _ hle fuel _ => ?_⟩
    exact (steps_leaves length_le_of_part fuel r).mono hle
  · have hread := complete_of_derives operand hdiv depth (s' ++ rest) hlen (hends rest)
    refine ⟨(skipBlanks (s' ++ rest)).length, ?_, fun v r hv _ fuel hfuel => ?_⟩
    · rw [hread]
      exact Nat.le_refl _
    · have hlen' : (s' ++ rest).length ≤ depth := by
        rw [List.length_append] at hlen
        omega
      cases hread.symm.trans hv
      exact hmore depth fuel rest hlen' hfuel

theorem chain {s' : List Char} (hfirst : Reaches (.part k.operand) s)
    (first : Derives (.part k.operand) s t) (hdiv : t.divisorsNumeric)
    (hmore : Reaches (.more k t) s') (more : Derives (.more k t) s' u) :
    Reaches (.part (.chain k)) (s ++ s') := by
  intro depth rest hlen
  rw [List.append_assoc] at hlen ⊢
  obtain ⟨m, hread, hrest⟩ := hfirst.operand_more first hdiv hmore more hlen
  rw [part_chain]
  exact chain_leaves hread fun v r hv hle => hrest v r hv hle r.length (Nat.le_refl _)

theorem last : Reaches (.more k left) [] :=
  fun _ fuel rest _ _ => steps_leaves length_le_of_part fuel (skipBlanks rest)

theorem step {s' : List Char} {op : Operator} (hop : op.level = k) (hb : Blank b)
    (hoperand : Reaches (.part k.operand) s) (operand : Derives (.part k.operand) s t)
    (hdiv : t.divisorsNumeric) (hmore : Reaches (.more k (.binary op left t)) s')
    (more : Derives (.more k (.binary op left t)) s' u) :
    Reaches (.more k left) (b ++ op.symbol :: (s ++ s')) := by
  intro depth fuel rest hlen hfuel
  have htext : skipBlanks (b ++ op.symbol :: (s ++ s') ++ rest) =
      op.symbol :: (s ++ (s' ++ rest)) := by
    rw [List.append_assoc, List.cons_append, List.append_assoc,
      skipBlanks_append_cons hb op.isBlank_symbol]
  rw [htext] at hfuel ⊢
  cases fuel with
  | zero => cases hfuel
  | succ fuel =>
    have hdepth : (s ++ (s' ++ rest)).length ≤ depth := by
      simp only [List.length_append, List.length_cons] at hlen ⊢
      omega
    have hfuel' : (s ++ (s' ++ rest)).length ≤ fuel := Nat.le_of_succ_le_succ hfuel
    obtain ⟨m, hread, hrest⟩ := hoperand.operand_more operand hdiv hmore more hdepth
    apply steps_leaves_step (Level.isOperator_symbol hop) hread
    intro v r hv hle
    exact hrest v r hv hle fuel (Nat.le_trans (length_le_of_part hv) hfuel')

theorem negative (hb : Blank b) (hoperand : Reaches (.part .signed) s) :
    Reaches (.part .signed) (b ++ '-' :: s) := by
  intro depth rest hlen
  have hlen' : (s ++ rest).length ≤ depth := by
    simp only [List.length_append, List.length_cons] at hlen ⊢
    omega
  have hread : (signed (formula depth) (s ++ rest)).LeavesAtMost _ := hoperand depth rest hlen'
  rw [List.append_assoc, part, signed_append_blank hb, List.cons_append, signed,
    if_neg (by decide), if_pos rfl]
  cases hsigned : signed (formula depth) (s ++ rest) <;> rw [hsigned] at hread
  · exact hread
  · exact hread.elim
  · trivial

theorem plain (hb : Blank b) (hatom : Reaches (.part .atom) s)
    (atom : Derives (.part .atom) s t) : Reaches (.part .signed) (b ++ s) := by
  intro depth rest hlen
  have hlen' : (s ++ rest).length ≤ depth := by
    simp only [List.length_append] at hlen ⊢
    omega
  have hread := hatom depth rest hlen'
  obtain ⟨c, r, rfl, hblank, hne⟩ := atom.head
  rw [List.append_assoc, part, signed_append_blank hb, List.cons_append, signed_atom hblank hne]
  exact hread

theorem group (hb : Blank b) (inner : Derives (.part (.chain .choice)) s t)
    (hdiv : t.divisorsNumeric) : Reaches (.part .atom) ('(' :: (s ++ (b ++ [')']))) := by
  intro depth rest hlen
  rw [Complete.part_group hb (complete_of_derives inner hdiv) hlen]
  exact Nat.le_refl _

theorem leaf (h : Leaf s t) : Reaches (.part .atom) s := by
  intro depth rest _
  obtain ⟨t', r, hleaf, hsuffix⟩ := leaf?_append_suffix h rest
  obtain ⟨c, s', rfl, _, _, hne⟩ := h.head
  rw [part, List.cons_append, atom_cons_of_ne hne, ← List.cons_append, hleaf]
  exact length_skipBlanks_le_of_suffix hsuffix

end Reaches

/-- By induction on the derivation; divisors that are numeric are so in every part of it. -/
theorem reaches_of_derives (h : Derives φ s t) (hdiv : t.divisorsNumeric) : Reaches φ s := by
  induction h with
  | chain first more ihfirst ihmore =>
    have hfirst := divisorsNumeric_of_more more rfl hdiv
    exact .chain (ihfirst hfirst) first hfirst (ihmore hdiv) more
  | last => exact .last
  | step hop hb operand more ihoperand ihmore =>
    have hbinary := divisorsNumeric_of_more more rfl hdiv
    simp only [Tree.divisorsNumeric, Bool.and_eq_true] at hbinary
    have hoperand := hbinary.1.2
    exact .step hop hb (ihoperand hoperand) operand hoperand (ihmore hdiv) more
  | negative hb operand ih => exact .negative hb (ih hdiv)
  | plain hb atom ih => exact .plain hb (ih hdiv) atom
  | group inner hb => exact .group hb inner hdiv
  | leaf h => exact .leaf h

/-- If a text begins with a formula, and perhaps blanks after it, no more is left unread than what
follows these. -/
theorem length_le_of_writes (h : Writes cs t) (hdiv : t.divisorsNumeric)
    (hlen : (cs ++ r).length ≤ depth) (hread : formula (depth + 1) (cs ++ r) = .done v rest) :
    rest.length ≤ (skipBlanks r).length := by
  obtain ⟨s, b, rfl, hb, hs⟩ := h
  rw [List.append_assoc] at hlen hread
  have hreaches := reaches_of_derives hs hdiv depth (b ++ r) hlen
  change (formula (depth + 1) _).LeavesAtMost _ at hreaches
  rwa [hread, skipBlanks_append hb] at hreaches

theorem exists_of_operand_eq_leftover {source : List Char} {found : Option Char} {column : Nat}
    (h : operand source cs = .error (.leftover found column)) :
    ∃ v rest, formula (cs.length + 1) cs = .done v rest ∧ rest ≠ [] ∧
      Fault.locate source rest = (found, column) := by
  unfold operand at h
  split at h
  · cases h
  · rename_i v rest hne hread
    refine ⟨v, rest, hread, hne, ?_⟩
    cases h
    rfl
  all_goals cases h

/-- What is left unread begins with no blank. -/
theorem isBlank_of_formula (h : formula (cs.length + 1) cs = .done v (c :: r)) :
    isBlank c = false := by
  obtain ⟨s, b, t, rfl, hb, hs, hdiv, -⟩ := reads_of_formula h
  rw [← List.append_assoc] at h
  have hle := length_le_of_writes ⟨s, b, rfl, hb, hs⟩ hdiv (Nat.le_of_eq (by simp)) h
  rw [Bool.eq_false_iff]
  intro hc
  rw [skipBlanks, List.dropWhile_cons_of_pos hc, List.length_cons] at hle
  exact Nat.not_succ_le_self _ (Nat.le_trans hle (length_skipBlanks_le r))

end Reading

namespace Fault

/-- The sentence says that the character `c`, at this column, was not read. -/
def QuotesUnread (reason : String) (c : Char) (column : Nat) : Prop :=
  reason = s!"unbalanced '{c}' at column {column}" ∨
  reason = s!"operator '{c}' at column {column} is missing its right operand" ∨
  reason = s!"unexpected '{c}' at column {column}"

theorem message_leftover (c : Char) (column : Nat) : message (.leftover (some c) column) =
    if c = ')' then s!"unbalanced ')' at column {column}"
    else if isOperator c then s!"operator '{c}' at column {column} is missing its right operand"
    else s!"unexpected {describe (some c)} at column {column}" := rfl

theorem quotesUnread_message (c : Char) (column : Nat) :
    QuotesUnread (message (.leftover (some c) column)) c column := by
  rw [message_leftover]
  split
  · rename_i hc
    subst hc
    refine .inl (String.toList_injective ?_)
    have hopen : "unbalanced ')' at column ".toList =
        "unbalanced '".toList ++ (")".toList ++ "' at column ".toList) := by rfl
    have hchar : (toString ')').toList = ")".toList := by rfl
    simp only [String.toList_append, List.append_assoc, hchar]
    simp only [toString, hopen, List.append_assoc]
  · split
    · exact .inr (.inl rfl)
    · refine .inr (.inr (String.toList_injective ?_))
      have hopen : "unexpected '".toList = "unexpected ".toList ++ "'".toList := by rfl
      have hclose : "' at column ".toList = "'".toList ++ " at column ".toList := by rfl
      simp only [describe, toString, String.toList_append, List.append_assoc, hopen, hclose]

theorem locate_append_cons {c : Char} (hc : Unicode.isWhiteSpace c = false) (p r : List Char) :
    locate (p ++ c :: r) (c :: r) = (some c, Unicode.byteLength p + 1) := by
  rw [locate, Unicode.trimStart_cons hc, Unicode.byteLength_append, Nat.add_sub_cancel]
  rfl

end Fault

namespace Formula

open Reading

/-- A text that goes on after its formula is refused at the first character behind the longest
formula that it begins with, and that character is named. -/
theorem leftover_follows_longest {text : String} {found : Option Char} {column : Nat}
    (hspace : ∀ c ∈ text.toList, Unicode.isWhiteSpace c → isBlank c)
    (h : parse text = .error (.leftover found column)) :
    ∃ p c r, text.toList = p ++ c :: r ∧ found = some c ∧ column = Unicode.byteLength p + 1 ∧
      Fault.QuotesUnread (Fault.message (.leftover found column)) c column ∧
      (∃ e, parse (String.ofList p) = .ok e) ∧
      ∀ q, q <+: text.toList → p.length < q.length → ∀ e, parse (String.ofList q) ≠ .ok e := by
  obtain ⟨v, rest, hread, hne, hlocate⟩ := exists_of_operand_eq_leftover (parse_eq_error_iff.mp h)
  obtain ⟨s, b, t, htext, hb, hs, hdiv, -⟩ := reads_of_formula hread
  rw [← List.append_assoc] at htext
  cases rest with
  | nil => exact absurd rfl hne
  | cons c r =>
    have hblank := isBlank_of_formula hread
    have hwhite : Unicode.isWhiteSpace c = false := by
      rw [Bool.eq_false_iff]
      intro hc
      have hmem : c ∈ text.toList := by simp [htext]
      simp [hspace c hmem hc] at hblank
    rw [htext, Fault.locate_append_cons hwhite] at hlocate
    cases hlocate
    refine ⟨s ++ b, c, r, htext, rfl, rfl, Fault.quotesUnread_message c _, ?_, ?_⟩
    · rw [exists_parse_iff_writes, String.toList_ofList]
      exact ⟨t, ⟨s, b, rfl, hb, hs⟩, hdiv⟩
    -- behind any formula at the head of the text there is at least what was left unread
    · intro q hq hlt e he
      obtain ⟨t', ht', hdiv'⟩ := exists_parse_iff_writes.mp ⟨e, he⟩
      rw [String.toList_ofList] at ht'
      obtain ⟨r', hr'⟩ := hq
      have hle := length_le_of_writes ht' hdiv' (Nat.le_refl _) (hr' ▸ hread)
      have hle' := Nat.le_trans hle (length_skipBlanks_le r')
      have hlen := congrArg List.length (hr'.trans htext)
      simp only [List.length_append] at hlen hlt
      omega

/-- The second operator has an operand behind it and the last one has none, so that the text before
the last one is the longest formula. -/
theorem leftover_follows_longest_of_operator :
    (∀ c ∈ "2*g +\t- w *".toList, Unicode.isWhiteSpace c → isBlank c) ∧
    parse "2*g +\t- w *" = .error (.leftover (some '*') 11) ∧
    ∃ p c r, "2*g +\t- w *".toList = p ++ c :: r ∧ some '*' = some c ∧
      11 = Unicode.byteLength p + 1 ∧
      Fault.QuotesUnread (Fault.message (.leftover (some '*') 11)) c 11 ∧
      (∃ e, parse (String.ofList p) = .ok e) ∧
      ∀ q, q <+: "2*g +\t- w *".toList → p.length < q.length →
        ∀ e, parse (String.ofList q) ≠ .ok e := by
  have hall : "2*g +\t- w *".toList.all fun c => !Unicode.isWhiteSpace c || isBlank c := by
    decide +kernel
  have hspace : ∀ c ∈ "2*g +\t- w *".toList, Unicode.isWhiteSpace c → isBlank c := by
    intro c hc hwhite
    simpa [hwhite] using List.all_eq_true.mp hall c hc
  have hparse : parse "2*g +\t- w *" = .error (.leftover (some '*') 11) := by decide +kernel
  exact ⟨hspace, hparse, leftover_follows_longest hspace hparse⟩

end Formula

end DesignLoads
