import DesignLoads.Proofs.Decimal.Arithmetic
import DesignLoads.Proofs.FirstOccurrences

/-! Load cases and their terms. The terms of a load case are in order of name and none is zero; so
they add up to the load case itself, load cases without NaN that agree are the same, and two load
cases have the same sum in either order. -/

namespace DesignLoads

namespace NameMap

universe u

variable {β : Type u} {name : String} {value : β} {es : List (String × β)}

/-- A name behind all others is put at the end. -/
theorem insertEntry_of_lt (h : ∀ e ∈ es, e.1 < name) :
    insertEntry name value es = es ++ [(name, value)] := by
  induction es with
  | nil => rfl
  | cons e es ih =>
    have hlt := h e List.mem_cons_self
    have hne : name ≠ e.1 := fun heq => String.lt_irrefl _ (heq ▸ hlt)
    rw [insertEntry, if_neg (String.lt_asymm hlt), if_neg hne,
      ih fun d hd => h d (List.mem_cons_of_mem e hd), List.cons_append]

theorem get?_of_lt {m : NameMap β} (h : ∀ e ∈ m.entries, e.1 < name) : m.get? name = none := by
  cases hv : m.get? name with
  | none => rfl
  | some v =>
    have hmem := (get?_eq_some_iff m).mp hv
    exact absurd (h _ hmem) (String.lt_irrefl name)

theorem ext_entries {m m' : NameMap β} (h : m.entries = m'.entries) : m = m' := by
  cases m
  cases m'
  cases h
  rfl

theorem foldl_insert_entries {m : NameMap β} (hs : es.Pairwise fun a b => a.1 < b.1)
    (habove : ∀ e ∈ es, ∀ d ∈ m.entries, d.1 < e.1) :
    (es.foldl (fun m e => m.insert e.1 e.2) m).entries = m.entries ++ es := by
  induction es generalizing m with
  | nil => simp
  | cons e es ih =>
    obtain ⟨hhead, htail⟩ := List.pairwise_cons.mp hs
    have hlast : (m.insert e.1 e.2).entries = m.entries ++ [e] :=
      insertEntry_of_lt (habove e List.mem_cons_self)
    rw [List.foldl_cons, ih htail, hlast, List.append_assoc, List.singleton_append]
    intro d hd c hc
    rw [hlast] at hc
    obtain hc | hc := List.mem_append.mp hc
    · exact habove d (List.mem_cons_of_mem e hd) c hc
    · rw [List.mem_singleton.mp hc]
      exact hhead d hd

/-- A map is made of its own entries. -/
theorem ofList_entries (m : NameMap β) : ofList m.entries = m :=
  ext_entries (foldl_insert_entries m.sorted (by simp [empty]))

/-- Maps with the same values are the same, as both list their names in order. -/
theorem ext_get? {m m' : NameMap β} (h : ∀ name, m.get? name = m'.get? name) : m = m' := by
  have hnodup (m : NameMap β) : m.entries.Nodup := by
    refine m.sorted.imp ?_
    rintro a b hlt rfl
    exact String.lt_irrefl _ hlt
  have hperm : m.entries.Perm m'.entries := by
    apply (List.perm_ext_iff_of_nodup (hnodup m) (hnodup m')).mpr
    rintro ⟨n, v⟩
    rw [← get?_eq_some_iff, ← get?_eq_some_iff, h]
  apply ext_entries
  apply hperm.eq_of_pairwise _ m.sorted m'.sorted
  intro a b _ _ hab hba
  exact absurd hba (String.lt_asymm hab)

end NameMap

namespace LoadCase

variable {a b c : LoadCase} {name : String} {k : Float} {es : List (String × Float)}

theorem ext_entries (h : a.entries = b.entries) : a = b := by
  obtain ⟨_, _⟩ := a
  obtain ⟨_, _⟩ := b
  obtain rfl := NameMap.ext_entries h
  rfl

theorem sorted_entries (c : LoadCase) : c.entries.Pairwise fun a b => a.1 < b.1 :=
  c.coefficients.sorted

/-- A term behind all others stays as it is. -/
theorem entries_add_of_lt (h : ∀ e ∈ c.entries, e.1 < name) (hk : (k == 0) = false) :
    (c.add name k).entries = c.entries ++ [(name, k)] := by
  have hget : c.get name = 0 := by
    rw [get, NameMap.get?_of_lt h]
    rfl
  have hsum : c.get name + k = k := by rw [hget, zero_add_float hk]
  have hne : ¬ (c.get name + k == 0) = true := by
    rw [hsum, hk]
    exact Bool.false_ne_true
  rw [add, dif_neg hne]
  change NameMap.insertEntry name (c.get name + k) c.entries = _
  rw [hsum, NameMap.insertEntry_of_lt h]

theorem entries_single (hk : (k == 0) = false) : (single name k).entries = [(name, k)] :=
  entries_add_of_lt (c := empty) (by simp [empty, entries, NameMap.empty]) hk

/-- A zero behind all other terms is left out. -/
theorem entries_add_zero_of_lt (h : ∀ e ∈ c.entries, e.1 < name) (hk : (k == 0) = true) :
    (c.add name k).entries = c.entries := by
  have hget : c.get name = 0 := by
    rw [get, NameMap.get?_of_lt h]
    rfl
  have hzero : (c.get name + k == 0) = true := by
    rw [hget]
    obtain rfl | rfl := eq_zero_cases hk
    · decide
    · decide
  rw [add, dif_pos hzero]
  apply List.filter_eq_self.mpr
  intro e he
  have hne : e.1 ≠ name := fun heq => String.lt_irrefl _ (heq ▸ h e he)
  simpa using hne

theorem entries_addAll_of_lt (hs : es.Pairwise fun a b => a.1 < b.1)
    (habove : ∀ e ∈ es, ∀ d ∈ c.entries, d.1 < e.1) :
    (c.addAll es).entries = c.entries ++ es.filter fun e => !(e.2 == 0) := by
  induction es generalizing c with
  | nil => simp [addAll]
  | cons e es ih =>
    obtain ⟨hhead, htail⟩ := List.pairwise_cons.mp hs
    have hself := habove e List.mem_cons_self
    have hrest : ∀ d ∈ es, ∀ b ∈ c.entries, b.1 < d.1 :=
      fun d hd => habove d (List.mem_cons_of_mem e hd)
    have hstep : c.addAll (e :: es) = (c.add e.1 e.2).addAll es := rfl
    rw [hstep]
    -- a zero leaves the load case as it is, and any other term becomes its last
    by_cases hzero : (e.2 == 0) = true
    · have hsame := entries_add_zero_of_lt hself hzero
      rw [ih htail (by rwa [hsame]), hsame, List.filter_cons_of_neg (by simp [hzero])]
    · have hlast := entries_add_of_lt hself (Bool.eq_false_of_not_eq_true hzero)
      have habove' : ∀ d ∈ es, ∀ b ∈ (c.add e.1 e.2).entries, b.1 < d.1 := by
        intro d hd b hb
        rw [hlast] at hb
        obtain hb | hb := List.mem_append.mp hb
        · exact hrest d hd b hb
        · rw [List.mem_singleton.mp hb]
          exact hhead d hd
      rw [ih htail habove', hlast, List.filter_cons_of_pos (by simp [hzero]), List.append_assoc,
        List.singleton_append]

/-- The sum of terms in order of name lists those that are not zero. -/
theorem entries_ofEntries (hs : es.Pairwise fun a b => a.1 < b.1) :
    (ofEntries es).entries = es.filter fun e => !(e.2 == 0) :=
  entries_addAll_of_lt hs (by simp [empty, entries, NameMap.empty])

/-- To build a load case again from its terms changes nothing. -/
theorem rebuilt_eq (c : LoadCase) : c.rebuilt = c := by
  apply ext_entries
  rw [rebuilt, entries_ofEntries c.sorted_entries, List.filter_eq_self]
  intro e he
  rw [c.nonzero e he]
  rfl

theorem entries_scaled (c : LoadCase) (k : Float) : (c.scaled k).entries =
    (c.entries.map fun e => (e.1, e.2 * k)).filter fun e => !(e.2 == 0) :=
  entries_ofEntries (List.pairwise_map.mpr c.sorted_entries)

theorem scaled_empty (k : Float) : empty.scaled k = empty := rfl

/-- A factor of zero leaves no term, or a NaN, whatever its sign. -/
theorem scaled_unsignedZero (c : LoadCase) (k : Float) :
    c.scaled (unsignedZero k) = c.scaled k := by
  apply ext_entries
  rw [entries_scaled, entries_scaled]
  induction c.entries with
  | nil => rw [List.map_nil, List.map_nil]
  | cons e es ih =>
    rw [List.map_cons, List.map_cons]
    obtain h | ⟨hl, hr⟩ := mul_unsignedZero_cases e.2 k
    · rw [h, List.filter_cons, List.filter_cons, ih]
    · rw [List.filter_cons_of_neg (by simp [hl]), List.filter_cons_of_neg (by simp [hr]), ih]

theorem map_rebuilt (cs : List LoadCase) : cs.map rebuilt = cs := by
  rw [funext rebuilt_eq]
  exact List.map_id' cs

/-- No coefficient is zero, so equal coefficients are the same. -/
theorem eq_of_agrees (h : a.agrees b = true) : a = b := by
  obtain ⟨hsize, hall⟩ := Bool.and_eq_true_iff.mp h
  have hlen : a.entries.length = b.entries.length := eq_of_beq hsize
  apply ext_entries
  apply List.ext_getElem hlen
  intro i hi hi'
  have hpair : (a.entries[i], b.entries[i]) ∈ a.entries.zip b.entries := by
    rw [← List.getElem_zip (h := by simpa [List.length_zip] using ⟨hi, hi'⟩)]
    exact List.getElem_mem _
  have heq := List.all_eq_true.mp hall _ hpair
  obtain ⟨hname, hvalue⟩ := Bool.and_eq_true_iff.mp heq
  exact Prod.ext (eq_of_beq hname) (eq_of_beq_of_ne_zero hvalue (a.nonzero _ (List.getElem_mem hi)))

theorem get?_eq_none_iff : c.coefficients.get? name = none ↔ (c.get name == 0) = true := by
  rw [get]
  cases hv : c.coefficients.get? name with
  | none => exact iff_of_true rfl rfl
  | some v =>
    have hne := c.nonzero _ ((NameMap.get?_eq_some_iff _).mp hv)
    rw [Option.getD_some, hne]
    exact iff_of_false (Option.some_ne_none v) Bool.false_ne_true

/-- Load cases with the same coefficients are the same. -/
theorem ext_get (h : ∀ name, a.get name = b.get name) : a = b := by
  have hget : ∀ name, a.coefficients.get? name = b.coefficients.get? name := by
    intro name
    have hname := h name
    cases ha : a.coefficients.get? name with
    | none =>
      rw [get?_eq_none_iff, hname] at ha
      exact (get?_eq_none_iff.mpr ha).symm
    | some v =>
      cases hb : b.coefficients.get? name with
      | none =>
        rw [get?_eq_none_iff, ← hname, ← get?_eq_none_iff, ha] at hb
        cases hb
      | some w =>
        rw [get, get, ha, hb] at hname
        exact congrArg some hname
  exact ext_entries (congrArg NameMap.entries (NameMap.ext_get? hget))

theorem unsignedZero_get_add_zero (c : LoadCase) (name : String) :
    unsignedZero (c.get name + 0) = c.get name := by
  by_cases hzero : (c.get name == 0) = true
  · have hget : c.get name = 0 := by rw [get, get?_eq_none_iff.mpr hzero, Option.getD_none]
    rw [hget]
    decide
  · rw [add_zero_float (Bool.eq_false_of_not_eq_true hzero), unsignedZero, if_neg hzero]

theorem get_addAll (hs : es.Pairwise fun a b => a.1 < b.1) :
    (c.addAll es).get name = unsignedZero (c.get name + (es.lookup name).getD 0) := by
  induction es generalizing c with
  | nil => exact (unsignedZero_get_add_zero c name).symm
  | cons e es ih =>
    obtain ⟨hhead, htail⟩ := List.pairwise_cons.mp hs
    have hstep : c.addAll (e :: es) = (c.add e.1 e.2).addAll es := rfl
    rw [hstep, ih htail, List.lookup_cons]
    by_cases hname : name = e.1
    -- no later term has this name again
    · have hnone : es.lookup name = none := by
        rw [List.lookup_eq_none_iff]
        intro d hd
        have hne : name ≠ d.1 := fun heq => String.lt_irrefl _ (heq ▸ hname ▸ hhead d hd)
        simpa using hne
      rw [hnone, Option.getD_none, unsignedZero_get_add_zero, get_add, if_pos hname, hname,
        beq_self_eq_true]
      rfl
    · rw [get_add, if_neg hname, beq_false_of_ne hname]

/-- Every coefficient of a sum is the sum of the coefficients. -/
theorem get_merged (a b : LoadCase) (name : String) :
    (a.merged b).get name = unsignedZero (a.get name + b.get name) :=
  get_addAll b.sorted_entries

theorem merged_comm (a b : LoadCase) : a.merged b = b.merged a := by
  apply ext_get
  intro name
  rw [get_merged, get_merged, add_comm_float]

end LoadCase

theorem Alternative.case_of_isScalar {a : Alternative} (h : a.isScalar) : a.case = .empty :=
  LoadCase.ext_entries (List.isEmpty_iff.mp h)

end DesignLoads
