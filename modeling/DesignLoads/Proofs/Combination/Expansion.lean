import DesignLoads.Proofs.Combination.Text
import DesignLoads.Proofs.LoadCase
import DesignLoads.Proofs.Rulebook.Invariants
import DesignLoads.Proofs.Rulebook.Limits

/-! What the text of a combination stands for. The terms of an alternative are added in the order of
their names, each to a load case that does not have its name yet; so every coefficient is the one
that was printed. -/

namespace DesignLoads

namespace LoadCase

variable {c : LoadCase} {n m : String} {k : Float} {e : String × Float}
  {es : List (String × Float)} {env : Surroundings (Except Failure)} {f : Formula}

theorem single_scaled (hk : (k == 0) = false) (x : Float) :
    (single n k).scaled x = single n (k * x) := by
  rw [scaled, entries_single hk]
  rfl

/-- No name comes into a load case but by a term. -/
theorem name_of_mem_add (h : e ∈ (c.add n k).entries) : e.1 = n ∨ e ∈ c.entries := by
  by_cases hzero : (c.get n + k == 0) = true
  · rw [add, dif_pos hzero] at h
    exact .inr (List.mem_filter.mp h).1
  · rw [add, dif_neg hzero] at h
    obtain rfl | h := NameMap.mem_insertEntry h
    · exact .inl rfl
    · exact .inr h

theorem names_addAll {Q : String → Prop} (hc : ∀ e ∈ c.entries, Q e.1)
    (hes : ∀ e ∈ es, Q e.1) : ∀ e ∈ (c.addAll es).entries, Q e.1 := by
  induction es generalizing c with
  | nil => exact hc
  | cons d ds ih =>
    apply ih _ fun e he => hes e (List.mem_cons_of_mem d he)
    intro e he
    obtain hd | he := name_of_mem_add he
    · rw [hd]
      exact hes d List.mem_cons_self
    · exact hc e he

end LoadCase

namespace Alternative

variable {n : String}

theorem stable_names (Q : String → Prop) : Stable fun a => ∀ e ∈ a.case.entries, Q e.1 := by
  have hempty : ∀ e ∈ LoadCase.empty.entries, Q e.1 := by
    simp [LoadCase.empty, LoadCase.entries, NameMap.empty]
  refine ⟨fun _ => hempty, ?_, fun a b ha hb => LoadCase.names_addAll ha hb⟩
  intro a k h
  have hscaled : ∀ e ∈ a.case.entries.map fun e => (e.1, e.2 * k), Q e.1 := by
    intro e he
    obtain ⟨d, hd, rfl⟩ := List.mem_map.mp he
    exact h d hd
  exact LoadCase.names_addAll hempty hscaled

theorem load_scaled (c : LoadCase) {x : Float} (hx : x.isFinite) :
    (load c).scaled x = load (c.scaled x) := by
  have hzero : unsignedZero (0 * x) = 0 := by
    rw [unsignedZero, if_pos (zero_mul_float hx)]
  rw [scaled, load, hzero]
  rfl

theorem load_merged (c d : LoadCase) : (load c).merged (load d) = load (c.merged d) := by
  have hzero : unsignedZero (0 + 0) = 0 := by decide
  rw [merged, load, load, hzero]
  rfl

end Alternative

namespace LoadCase

variable {c : LoadCase} {n m : String} {k : Float} {e : String × Float}
  {es : List (String × Float)} {env : Surroundings (Except Failure)} {f : Formula}

/-- A base load case times a number is the term of that number. -/
theorem atomic_scaled (n : String) {x y : Float} (hx : x.isFinite) (hy : 1 * x = y) :
    (Alternative.atomic n).scaled x = Alternative.load (single n y) := by
  rw [Alternative.atomic, Alternative.load_scaled _ hx, single_scaled (by decide), hy]

theorem value_number {x : Float} (hx : x.isFinite) : (Factor.number x).value = .ok x := by
  rw [Factor.value, Factor.finite, if_pos hx]

theorem abs_eq_one (h : (e.2.abs == 1) = true) (hz : (e.2.abs == 0) = false) : e.2.abs = 1 :=
  eq_of_beq_of_ne_zero h hz

theorem expand_term (h : Printable e) (hr : env.refer e.1 = .ok [.atomic e.1]) :
    (termFormula e).expand env = .ok [.load (single e.1 e.2.abs)] := by
  obtain ⟨hfin, hz, _, _⟩ := abs_cases h.finite h.nonzero
  unfold termFormula
  by_cases hone : (e.2.abs == 1) = true
  · rw [if_pos hone, abs_eq_one hone hz]
    exact hr
  · rw [if_neg hone]
    simp only [Formula.expand, value_number hfin, hr]
    change Except.ok [(Alternative.atomic e.1).scaled e.2.abs] = _
    rw [atomic_scaled e.1 hfin (one_mul_float hfin hz)]

theorem expand_first (h : Printable e) (hr : env.refer e.1 = .ok [.atomic e.1]) :
    (firstFormula e).expand env = .ok [.load (single e.1 e.2)] := by
  obtain ⟨hfin, hz, _, hsign⟩ := abs_cases h.finite h.nonzero
  unfold firstFormula
  by_cases hneg : e.2 < 0
  · rw [if_pos hneg] at hsign ⊢
    by_cases hone : (e.2.abs == 1) = true
    · have hminus : 1 * (-1) = e.2 := by
        rw [← hsign, abs_eq_one hone hz]
        decide
      rw [if_pos hone]
      simp only [Formula.expand, hr]
      change Except.ok [(Alternative.atomic e.1).scaled (-1)] = _
      rw [atomic_scaled e.1 (by decide) hminus]
    · have hvalue : (Factor.neg (.number e.2.abs)).value = .ok e.2 := by
        rw [Factor.value, value_number hfin]
        change Factor.finite _ (-e.2.abs) = _
        rw [hsign, Factor.finite, if_pos h.finite]
      rw [if_neg hone]
      simp only [Formula.expand, hvalue, hr]
      change Except.ok [(Alternative.atomic e.1).scaled e.2] = _
      rw [atomic_scaled e.1 h.finite (one_mul_float h.finite h.nonzero)]
  · rw [if_neg hneg] at hsign ⊢
    rw [expand_term h hr, hsign]

theorem expand_later (h : Printable e) (hr : env.refer e.1 = .ok [.atomic e.1]) :
    (laterFormula e).expand env = .ok [.load (single e.1 e.2)] := by
  obtain ⟨hfin, hz, _, hsign⟩ := abs_cases h.finite h.nonzero
  unfold laterFormula
  by_cases hneg : e.2 < 0
  · rw [if_pos hneg] at hsign ⊢
    simp only [Formula.expand, expand_term h hr]
    change Except.ok [(Alternative.load (single e.1 e.2.abs)).scaled (-1)] = _
    rw [Alternative.load_scaled _ (by decide), single_scaled hz, mul_neg_one_float hfin hz, hsign]
  · rw [if_neg hneg] at hsign ⊢
    rw [expand_term h hr, hsign]

/-- One alternative and one term of the next name. -/
theorem expand_sum (hlimit : ∀ l, env.limit = some l → 1 ≤ l) (h : Printable e)
    (hr : env.refer e.1 = .ok [.atomic e.1]) (hf : f.expand env = .ok [.load c]) :
    (Formula.sum f (laterFormula e)).expand env = .ok [.load (c.add e.1 e.2)] := by
  have hcount : Alternative.checkCount env.limit 1 = .ok () := by
    cases hl : env.limit with
    | none => rfl
    | some l => exact Alternative.checkCount_of_le (hlimit l hl)
  have hmerged : c.merged (single e.1 e.2) = c.add e.1 e.2 := by
    rw [merged, entries_single h.nonzero]
    rfl
  simp only [Formula.expand, hf, expand_later h hr]
  change (liftExcept (Alternative.sums env.limit [.load c] [.load (single e.1 e.2)]) :
    Except Failure (List Alternative)) = _
  rw [liftExcept_eq_self, Alternative.sums]
  change (Alternative.checkCount env.limit 1 >>= fun _ =>
    pure [(Alternative.load c).merged (Alternative.load (single e.1 e.2))]) = _
  rw [hcount, Alternative.load_merged, hmerged]
  rfl

theorem expand_sums (hlimit : ∀ l, env.limit = some l → 1 ≤ l) (h : ∀ e ∈ es, Printable e)
    (hr : ∀ e ∈ es, env.refer e.1 = .ok [.atomic e.1]) (hf : f.expand env = .ok [.load c]) :
    (es.foldl (fun f e => Formula.sum f (laterFormula e)) f).expand env =
      .ok [.load (c.addAll es)] := by
  induction es generalizing c f with
  | nil => exact hf
  | cons e es ih =>
    apply ih (fun d hd => h d (List.mem_cons_of_mem e hd))
      fun d hd => hr d (List.mem_cons_of_mem e hd)
    exact expand_sum hlimit (h e List.mem_cons_self) (hr e List.mem_cons_self) hf

/-- What the text of a load case is read as stands for that load case alone. -/
theorem expand_formula (hlimit : ∀ l, env.limit = some l → 1 ≤ l)
    (h : ∀ e ∈ c.entries, Printable e)
    (hr : ∀ e ∈ c.entries, env.refer e.1 = .ok [.atomic e.1]) :
    c.formula.expand env = .ok [.load c] := by
  unfold formula
  cases hc : c.entries with
  | nil =>
    have hempty : c = empty := ext_entries hc
    have hscalar : Alternative.scalar 0 = Alternative.load empty := by
      have hzero : unsignedZero 0 = 0 := by decide
      rw [Alternative.scalar, hzero]
      rfl
    simp only [Formula.expand, value_number (x := 0) (by decide)]
    change Except.ok [Alternative.scalar 0] = _
    rw [hscalar, hempty]
  | cons e es =>
    rw [hc] at h hr
    have hall := expand_sums hlimit (fun d hd => h d (List.mem_cons_of_mem e hd))
      (fun d hd => hr d (List.mem_cons_of_mem e hd))
      (expand_first (h e List.mem_cons_self) (hr e List.mem_cons_self))
    have hterms : (single e.1 e.2).addAll es = c := by
      have hself := rebuilt_eq c
      rw [rebuilt, hc] at hself
      exact hself
    rw [hterms] at hall
    exact hall

end LoadCase

namespace Combination

variable {env : Surroundings (Except Failure)} {as : List LoadCase}

theorem expand_choices (before : List LoadCase) {f : Formula}
    (hlimit : ∀ l, env.limit = some l → (before ++ as).length ≤ l ∧ 1 ≤ l)
    (h : ∀ a ∈ as, ∀ e ∈ a.entries, LoadCase.Printable e)
    (hr : ∀ a ∈ as, ∀ e ∈ a.entries, env.refer e.1 = .ok [.atomic e.1])
    (hf : f.expand env = .ok (before.map .load)) :
    (as.foldl (fun f a => Formula.choice f a.formula) f).expand env =
      .ok ((before ++ as).map .load) := by
  induction as generalizing before f with
  | nil => simpa using hf
  | cons a as ih =>
    have hone := LoadCase.expand_formula (fun l hl => (hlimit l hl).2) (h a List.mem_cons_self)
      (hr a List.mem_cons_self)
    have hcount : Alternative.checkCount env.limit
        ((before.map Alternative.load).length + [Alternative.load a].length) = .ok () := by
      cases hl : env.limit with
      | none => rfl
      | some l =>
        apply Alternative.checkCount_of_le
        have hle := (hlimit l hl).1
        simp only [List.length_append, List.length_cons, List.length_map, List.length_nil] at hle ⊢
        omega
    have hstep : (Formula.choice f a.formula).expand env = .ok ((before ++ [a]).map .load) := by
      simp only [Formula.expand, hf, hone]
      change (liftExcept (Alternative.choices env.limit (before.map .load) [.load a]) :
        Except Failure (List Alternative)) = _
      rw [liftExcept_eq_self, Alternative.choices, hcount, List.map_append]
      rfl
    have hall := ih (before ++ [a]) (by simpa using hlimit)
      (fun b hb => h b (List.mem_cons_of_mem a hb)) (fun b hb => hr b (List.mem_cons_of_mem a hb))
      hstep
    rwa [List.append_assoc, List.singleton_append] at hall

/-- What the text of a combination is read as stands for its alternatives. -/
theorem Printable.expand_formula {c : Combination} (hc : c.Printable env.limit)
    (hr : ∀ a ∈ c.alternatives, ∀ e ∈ a.entries, env.refer e.1 = .ok [.atomic e.1]) :
    (formula c.alternatives).expand env = .ok (c.alternatives.map .load) := by
  have hlimit := hc.within
  have h := hc.terms
  cases has : c.alternatives with
  | nil => exact absurd has hc.nonempty
  | cons a as =>
    rw [has] at hlimit h hr
    have hone : ∀ l, env.limit = some l → 1 ≤ l := by
      intro l hl
      have hle := hlimit l hl
      rw [List.length_cons] at hle
      omega
    have hfirst := LoadCase.expand_formula hone (h a List.mem_cons_self) (hr a List.mem_cons_self)
    exact expand_choices [a] (fun l hl => ⟨hlimit l hl, hone l hl⟩)
      (fun b hb => h b (List.mem_cons_of_mem a hb)) (fun b hb => hr b (List.mem_cons_of_mem a hb))
      hfirst

end Combination

end DesignLoads
