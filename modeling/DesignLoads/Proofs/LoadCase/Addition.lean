import DesignLoads.Proofs.LoadCase

/-! Load cases that are built term by term. What a load case holds under a name depends on the
coefficients that were added under that name, in their order, and on nothing else. -/

namespace DesignLoads

/-- The coefficients that a list of terms gives a name, in the order of the list. -/
def coefficientsOf (name : String) (es : List (String × Float)) : List Float :=
  (es.filter fun e => e.1 = name).map (·.2)

/-- Coefficients added one after the other to a sum; a sum of zero is zero without a sign. -/
def runningSum (start : Float) (ks : List Float) : Float :=
  ks.foldl (fun sum k => unsignedZero (sum + k)) start

namespace LoadCase

variable {n m : String}

theorem get_add_eq (c : LoadCase) (n : String) (k : Float) (name : String) :
    (c.add n k).get name = if n = name then unsignedZero (c.get name + k) else c.get name := by
  rw [get_add]
  by_cases h : n = name
  · subst h
    simp only [if_pos, unsignedZero]
  · rw [if_neg h, if_neg (Ne.symm h)]

/-- The coefficient of a name is the running sum of its own coefficients. -/
theorem get_addAll_eq (c : LoadCase) (es : List (String × Float)) (name : String) :
    (c.addAll es).get name = runningSum (c.get name) (coefficientsOf name es) := by
  induction es generalizing c with
  | nil => rfl
  | cons e es ih =>
    have hstep : (c.addAll (e :: es)).get name =
        runningSum ((c.add e.1 e.2).get name) (coefficientsOf name es) := ih (c.add e.1 e.2)
    rw [hstep, get_add_eq]
    by_cases h : e.1 = name
    · -- the term takes part in the sum of this name
      rw [if_pos h, coefficientsOf, coefficientsOf, List.filter_cons_of_pos (by simpa using h)]
      rfl
    · rw [if_neg h, coefficientsOf, coefficientsOf, List.filter_cons_of_neg (by simpa using h)]

theorem get_ofEntries (es : List (String × Float)) (name : String) :
    (ofEntries es).get name = runningSum 0 (coefficientsOf name es) :=
  get_addAll_eq empty es name

/-- A load case holds the coefficients that are not zero. -/
theorem get?_eq_ite (c : LoadCase) (name : String) : c.coefficients.get? name =
    if c.get name == 0 then none else some (c.get name) := by
  split
  · next hzero => exact get?_eq_none_iff.mpr hzero
  · next hne =>
    cases hv : c.coefficients.get? name with
    | none => exact absurd (get?_eq_none_iff.mp hv) hne
    | some v => rw [get, hv, Option.getD_some]

/-- Lists that give every name the same coefficients build the same load case. -/
theorem ofEntries_congr {es es' : List (String × Float)}
    (h : ∀ name, coefficientsOf name es = coefficientsOf name es') :
    ofEntries es = ofEntries es' := by
  apply ext_get
  intro name
  rw [get_ofEntries, get_ofEntries, h name]

theorem add_comm_of_ne (c : LoadCase) (h : n ≠ m) (k l : Float) :
    (c.add n k).add m l = (c.add m l).add n k := by
  apply ext_get
  intro name
  rw [get_add_eq, get_add_eq, get_add_eq, get_add_eq]
  by_cases hn : n = name
  · have hm : m ≠ name := fun hm => h (hn.trans hm.symm)
    simp only [if_pos hn, if_neg hm]
  · simp only [if_neg hn]

theorem unsignedZero_beq_zero (x : Float) : (unsignedZero x == 0) = (x == 0) := by
  unfold unsignedZero
  split
  · next h => rw [h]; decide
  · rfl

theorem get?_merged (a b : LoadCase) (name : String) : (a.merged b).coefficients.get? name =
    if a.get name + b.get name == 0 then none else some (a.get name + b.get name) := by
  rw [get?_eq_ite, get_merged, unsignedZero_beq_zero]
  split
  · rfl
  · next h => rw [unsignedZero, if_neg h]

theorem merged_empty (c : LoadCase) : c.merged empty = c := rfl

theorem empty_merged (c : LoadCase) : empty.merged c = c := by
  rw [merged_comm, merged_empty]

/-- The terms of a load case, in a map of their own, are its coefficients again. -/
theorem ofEntries_ofList (c : LoadCase) : ofEntries (NameMap.ofList c.entries).entries = c := by
  have hmap : NameMap.ofList c.entries = c.coefficients := NameMap.ofList_entries _
  rw [hmap]
  exact c.rebuilt_eq

theorem ofEntries_terms (c : LoadCase) :
    ofEntries (c.terms.map fun t => (t.name, t.coefficient)) = c := by
  have hentries : (c.terms.map fun t => (t.name, t.coefficient)) = c.entries := by
    rw [terms, List.map_map]
    exact List.map_id' c.entries
  rw [hentries]
  exact c.rebuilt_eq

/-- A load case depends on each name's own terms only. It holds the running sum of the coefficients
of a name, unless that is zero; so the terms of different names can be mixed in any way. A sum of
two load cases holds the sums of their coefficients that are not zero. The empty load case adds
nothing, and a load case is built again from its terms, listed or in a map. -/
theorem sums_by_name :
    (∀ es name, (ofEntries es).coefficients.get? name =
      if runningSum 0 (coefficientsOf name es) == 0 then none
      else some (runningSum 0 (coefficientsOf name es))) ∧
    (∀ es es', (∀ name, coefficientsOf name es = coefficientsOf name es') →
      ofEntries es = ofEntries es' ∧
      (¬ (ofEntries es).HasNaN → (ofEntries es).agrees (ofEntries es') = true)) ∧
    (∀ c n m k l, n ≠ m → (add c n k).add m l = (c.add m l).add n k) ∧
    (∀ a b name, (merged a b).coefficients.get? name =
      if a.get name + b.get name == 0 then none else some (a.get name + b.get name)) ∧
    ∀ c, merged c empty = c ∧ empty.merged c = c ∧ ofEntries c.entries = c ∧
      ofEntries (c.terms.map fun t => (t.name, t.coefficient)) = c ∧
      ofEntries (NameMap.ofList c.entries).entries = c := by
  refine ⟨fun es name => ?_, fun es es' h => ?_, fun c n m k l h => c.add_comm_of_ne h k l,
    get?_merged, fun c => ?_⟩
  · rw [get?_eq_ite, get_ofEntries]
  · have heq := ofEntries_congr h
    refine ⟨heq, fun hnan => ?_⟩
    rw [← heq]
    exact comparable_iff.mpr hnan
  · exact ⟨c.merged_empty, c.empty_merged, c.rebuilt_eq, c.ofEntries_terms, c.ofEntries_ofList⟩

/-- A coefficient that cancels out and comes back, mixed with those of another name. -/
theorem sums_by_name_of_cancellation :
    ofEntries [("g", 1.5), ("q", 2), ("g", -1.5), ("q", 0.5), ("g", 3)] =
      ofEntries [("q", 2), ("g", 1.5), ("g", -1.5), ("g", 3), ("q", 0.5)] ∧
    (ofEntries [("g", 1.5), ("q", 2), ("g", -1.5), ("q", 0.5), ("g", 3)]).coefficients.get? "g" =
      some 3 := by
  obtain ⟨hget, hcongr, -⟩ := sums_by_name
  have hsame (name : String) :
      coefficientsOf name [("g", 1.5), ("q", 2), ("g", -1.5), ("q", 0.5), ("g", 3)] =
        coefficientsOf name [("q", 2), ("g", 1.5), ("g", -1.5), ("g", 3), ("q", 0.5)] := by
    by_cases hg : "g" = name
    · subst hg
      rfl
    · by_cases hq : "q" = name
      · subst hq
        rfl
      · simp [coefficientsOf, hg, hq]
  refine ⟨(hcongr _ _ hsame).1, ?_⟩
  rw [hget]
  decide +kernel

end LoadCase

end DesignLoads
