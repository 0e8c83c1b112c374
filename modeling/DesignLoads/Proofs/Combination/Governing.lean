import DesignLoads.Combination
import DesignLoads.Proofs.Extremes
import DesignLoads.Proofs.Outcomes

/-! Governing responses. A base load case without a result is reported, the first that is met; if
there is none, the governing responses are the extremes of all alternatives of all combinations. -/

namespace DesignLoads

section Results

variable {α β : Type} {results : NameMap Float} {names : List String} {a : α}

/-- A value that is computed from the results of some names. The first of the names that has no
result is reported. -/
def unlessMissing (results : NameMap Float) (names : List String) (a : α) : Except Failure α :=
  match names.find? fun n => !results.contains n with
  | some n => .error (.missingBaseResult n)
  | none => .ok a

theorem unlessMissing_eq_ok (h : ∀ n ∈ names, results.contains n = true) :
    unlessMissing results names a = .ok a := by
  have hnone : (names.find? fun n => !results.contains n) = none := by
    rw [List.find?_eq_none]
    intro n hn
    rw [h n hn]
    exact Bool.false_ne_true
  rw [unlessMissing, hnone]

theorem unlessMissing_eq_error_iff {e : Failure} : unlessMissing results names a = .error e ↔
    ∃ before name rest, names = before ++ name :: rest ∧
      (∀ n ∈ before, results.contains n = true) ∧ results.contains name = false ∧
      e = .missingBaseResult name := by
  have hfirst (name : String) : (names.find? fun n => !results.contains n) = some name ↔
      ∃ before rest, names = before ++ name :: rest ∧
        (∀ n ∈ before, results.contains n = true) ∧ results.contains name = false := by
    rw [List.find?_eq_some_iff_append]
    simp only [Bool.not_not, Bool.not_eq_true']
    constructor
    · rintro ⟨hname, before, rest, hsplit, hbefore⟩
      exact ⟨before, rest, hsplit, hbefore, hname⟩
    · rintro ⟨before, rest, hsplit, hbefore, hname⟩
      exact ⟨hname, before, rest, hsplit, hbefore⟩
  unfold unlessMissing
  split
  · next name hname =>
    obtain ⟨before, rest, hsplit, hbefore, hout⟩ := (hfirst name).mp hname
    constructor
    · rintro ⟨⟩
      exact ⟨before, name, rest, hsplit, hbefore, hout, rfl⟩
    · rintro ⟨before', name', rest', hsplit', hbefore', hout', rfl⟩
      have hname' := (hfirst name').mpr ⟨before', rest', hsplit', hbefore', hout'⟩
      rw [hname, Option.some.injEq] at hname'
      rw [hname']
  · next hnone =>
    refine iff_of_false nofun ?_
    rintro ⟨before, name, rest, hsplit, hbefore, hout, -⟩
    rw [(hfirst name).mpr ⟨before, rest, hsplit, hbefore, hout⟩] at hnone
    cases hnone

theorem unlessMissing_map (f : α → β) :
    (unlessMissing results names a).map f = unlessMissing results names (f a) := by
  unfold unlessMissing
  split <;> rfl

/-- Of a list of values the names are asked for one value after the other. -/
theorem mapM_unlessMissing {xs : List α} {f : α → Except Failure β} {ns : α → List String}
    {g : α → β} (h : ∀ x ∈ xs, f x = unlessMissing results (ns x) (g x)) :
    xs.mapM f = unlessMissing results (xs.flatMap ns) (xs.map g) := by
  induction xs with
  | nil => rfl
  | cons x xs ih =>
    have hrest := ih fun y hy => h y (List.mem_cons_of_mem x hy)
    rw [List.mapM_cons, h x List.mem_cons_self, hrest, List.flatMap_cons, unlessMissing,
      unlessMissing, unlessMissing, List.find?_append]
    cases (ns x).find? fun n => !results.contains n with
    | some n => rfl
    | none =>
      rw [Option.none_or]
      cases (xs.flatMap ns).find? fun n => !results.contains n <;> rfl

end Results

namespace LoadCase

def names (c : LoadCase) : List String := c.entries.map (·.1)

def response (c : LoadCase) (results : NameMap Float) : Float :=
  c.entries.foldl (fun total e => total + e.2 * (results.get? e.1).getD 0) 0

theorem superpose_eq (c : LoadCase) (results : NameMap Float) :
    c.superpose results = unlessMissing results c.names (c.response results) := by
  have hfold (f : Float → String × Float → Except Failure Float)
      (hsome : ∀ total e x, results.get? e.1 = some x → f total e = .ok (total + e.2 * x))
      (hnone : ∀ total e, results.get? e.1 = none → f total e = .error (.missingBaseResult e.1))
      (es : List (String × Float)) (start : Float) : es.foldlM f start =
        unlessMissing results (es.map (·.1))
          (es.foldl (fun total e => total + e.2 * (results.get? e.1).getD 0) start) := by
    induction es generalizing start with
    | nil => rfl
    | cons e es ih =>
      rw [List.foldlM_cons, List.map_cons, List.foldl_cons]
      cases hv : results.get? e.1 with
      | none =>
        have hout : results.contains e.1 = false := by
          rw [NameMap.contains, hv, Option.isSome_none]
        rw [hnone start e hv, unlessMissing,
          List.find?_cons_of_pos (by rw [hout, Bool.not_false])]
        rfl
      | some x =>
        have hin : results.contains e.1 = true := by
          rw [NameMap.contains, hv, Option.isSome_some]
        rw [hsome start e x hv, unlessMissing,
          List.find?_cons_of_neg (by rw [hin]; exact Bool.false_ne_true)]
        exact ih (start + e.2 * x)
  unfold superpose
  refine hfold _ (fun total e x hx => ?_) (fun total e hx => ?_) c.entries 0
  · rw [hx]
  · rw [hx]

end LoadCase

namespace Combination

variable {results : NameMap Float}

def names (c : Combination) : List String := c.alternatives.flatMap (·.names)

def responses (c : Combination) (results : NameMap Float) : List (Response Nat) :=
  c.alternatives.mapIdx fun i a => ⟨a.response results, i⟩

theorem evaluate_eq (c : Combination) (results : NameMap Float) : c.evaluate results =
    unlessMissing results c.names (c.alternatives.map (·.response results)) :=
  mapM_unlessMissing fun a _ => a.superpose_eq results

theorem envelope_eq (c : Combination) (results : NameMap Float) : c.envelope results =
    unlessMissing results c.names (Extremes.ofList? ((c.responses results).map .single)) := by
  have hmap : c.envelope results = (c.evaluate results).map fun values =>
      Extremes.ofList? (values.mapIdx fun i x => .single ⟨x, i⟩) := by
    unfold envelope
    cases c.evaluate results <;> rfl
  have hindex : (c.alternatives.map (·.response results)).mapIdx
      (fun i x => Extremes.single ⟨x, i⟩) = (c.responses results).map .single := by
    rw [List.mapIdx_eq_iff]
    intro i
    rw [responses, List.getElem?_map, List.getElem?_map, List.getElem?_mapIdx]
    cases c.alternatives[i]? <;> rfl
  rw [hmap, evaluate_eq, unlessMissing_map, hindex]

end Combination

def usedNames (cs : List Combination) : List String := cs.flatMap (·.names)

def allResponses (cs : List Combination) (results : NameMap Float) :
    List (Response (String × Nat)) :=
  cs.flatMap fun c => (c.responses results).map fun r => ⟨r.value, (c.name, r.place)⟩

theorem governing_eq (cs : List Combination) (results : NameMap Float) : governing cs results =
    unlessMissing results (usedNames cs) (Extremes.ofList? ((cs.map fun c =>
      (Extremes.ofList? ((c.responses results).map .single)).map
        (Extremes.mapPlace fun i => (c.name, i))).filterMap id)) := by
  have hmap : governing cs results = (cs.mapM fun c : Combination =>
      (c.envelope results).map (Option.map (Extremes.mapPlace fun i => (c.name, i)))).map
        fun envelopes => Extremes.ofList? (envelopes.filterMap id) := by
    have hone (c : Combination) : (c.envelope results >>= fun e =>
        pure (e.map (Extremes.mapPlace fun i => (c.name, i)))) =
          (c.envelope results).map (Option.map (Extremes.mapPlace fun i => (c.name, i))) := by
      cases c.envelope results <;> rfl
    unfold governing
    simp only [hone]
    generalize cs.mapM (m := Except Failure) (fun c : Combination => _) = x
    cases x <;> rfl
  have hnamed (c : Combination) (_ : c ∈ cs) :
      (c.envelope results).map (Option.map (Extremes.mapPlace fun i => (c.name, i))) =
        unlessMissing results c.names ((Extremes.ofList? ((c.responses results).map .single)).map
          (Extremes.mapPlace fun i => (c.name, i))) := by
    rw [c.envelope_eq, unlessMissing_map]
  have henvelopes := mapM_unlessMissing hnamed
  rw [hmap, henvelopes, unlessMissing_map]
  rfl

/-- Every combination has been scanned before its extremes are compared with those of others. -/
theorem scanOf_allResponses {cs : List Combination} {results : NameMap Float}
    (h : Extremes.Numbers (allResponses cs results)) :
    Extremes.ScanOf (allResponses cs results) (Extremes.ofList? ((cs.map fun c =>
      (Extremes.ofList? ((c.responses results).map .single)).map
        (Extremes.mapPlace fun i => (c.name, i))).filterMap id)) := by
  rw [allResponses, List.flatMap_def]
  refine Extremes.scanOf_ofList? ?_
  rw [List.forall₂_map_left_iff, List.forall₂_map_right_iff, List.forall₂_same]
  intro c hc
  have hnumbers : Extremes.Numbers
      ((c.responses results).map fun r => (⟨r.value, (c.name, r.place)⟩ : Response _)) := by
    intro r hr
    exact h r (List.mem_flatMap.mpr ⟨c, hc, hr⟩)
  have hown : Extremes.Numbers (c.responses results) := by
    intro r hr
    exact hnumbers ⟨r.value, (c.name, r.place)⟩ (List.mem_map_of_mem hr)
  exact ⟨(Extremes.scanOf_singles hown).mapPlace fun i => (c.name, i), hnumbers⟩

/-- What a search for extremes among responses comes to, when it asks for the results of some names
in this order: the first name without a result, or else the extremes of the responses. -/
structure Finds {ι : Type} (results : NameMap Float) (names : List String)
    (rs : List (Response ι)) (found : Except Failure (Option (Extremes ι))) : Prop where
  missing : ∀ e, found = .error e ↔ ∃ before name rest, names = before ++ name :: rest ∧
    (∀ n ∈ before, results.contains n = true) ∧ results.contains name = false ∧
    e = .missingBaseResult name
  extremes : (∀ n ∈ names, results.contains n = true) → (∀ r ∈ rs, ¬ r.value.isNaN) →
    ∃ o, found = .ok o ∧ Extremes.AreFirst rs o

theorem finds_of_eq {ι : Type} {results : NameMap Float} {names : List String}
    {rs : List (Response ι)} {o : Option (Extremes ι)} {found : Except Failure (Option (Extremes ι))}
    (hfound : found = unlessMissing results names o)
    (ho : Extremes.Numbers rs → Extremes.ScanOf rs o) : Finds results names rs found := by
  subst hfound
  refine ⟨fun e => unlessMissing_eq_error_iff, fun hnames hrs => ?_⟩
  exact ⟨o, unlessMissing_eq_ok hnames, (ho hrs).areFirst hrs⟩

/-- The governing responses are the true extremes of all alternatives of all combinations, and those
of one combination are the extremes of its own. Of equal responses the first counts; a base load
case without a result is reported, the first that an alternative uses; and what is computed
combination by combination is what one scan of all alternatives gives. -/
theorem governing_are_extremes (cs : List Combination) (results : NameMap Float) :
    Finds results (usedNames cs) (allResponses cs results) (governing cs results) ∧
    (∀ c : Combination, Finds results c.names (c.responses results) (c.envelope results)) ∧
    (allResponses cs results = [] ↔ ∀ c ∈ cs, c.alternatives = []) ∧
    ∀ c : LoadCase, (∀ n ∈ c.names, results.contains n = true) →
      c.superpose results = .ok (c.response results) := by
  refine ⟨finds_of_eq (governing_eq cs results) scanOf_allResponses,
    fun c => finds_of_eq (c.envelope_eq results) Extremes.scanOf_singles, ?_, fun c hnames => ?_⟩
  · rw [allResponses, List.flatMap_eq_nil_iff]
    refine forall₂_congr fun c _ => ?_
    rw [List.map_eq_nil_iff, Combination.responses, List.mapIdx_eq_nil_iff]
  · rw [c.superpose_eq, unlessMissing_eq_ok hnames]

/-- A combination without alternatives, two greatest responses, and a result that is missing. -/
theorem governing_are_extremes_of_tie :
    let cs : List Combination := [⟨"A", [], none⟩, ⟨"B", [.single "g" 2, .single "g" 3], none⟩,
      ⟨"C", [.single "q" 3, .single "g" (-1)], none⟩]
    governing cs (.ofList [("g", 1), ("q", 1)]) = .ok (some ⟨⟨3, ("B", 1)⟩, ⟨-1, ("C", 1)⟩⟩) ∧
    governing cs (.ofList [("g", 1)]) = .error (.missingBaseResult "q") := by
  intro cs
  constructor
  · obtain ⟨o, ho, hfirst⟩ := (governing_are_extremes cs (.ofList [("g", 1), ("q", 1)])).1.extremes
      (by decide +kernel) (by decide +kernel)
    have hflat : o = some ⟨⟨3, ("B", 1)⟩, ⟨-1, ("C", 1)⟩⟩ :=
      hfirst.flat.trans (by decide +kernel)
    rw [ho, hflat]
  · apply ((governing_are_extremes cs (.ofList [("g", 1)])).1.missing _).mpr
    exact ⟨["g", "g"], "q", ["g"], by decide +kernel, by decide +kernel, by decide +kernel, rfl⟩

end DesignLoads
