import DesignLoads.Proofs.Pattern
import DesignLoads.Proofs.Rulebook.Limits
import DesignLoads.Proofs.Session.History

/-! Queries for many rules at once. Each of them gives the combinations that its rules resolve to,
one after the other, and fails with the first failure among them; it differs from the others in the
order of the rules, and in the sets of factors that it passes over. -/

namespace DesignLoads

open Query

namespace Alternative

variable {rule : String} {as : List Alternative}

theorem loadCases_eq_ok_iff {cases' : List LoadCase} : loadCases rule as = .ok cases' ↔
    (∀ a ∈ as, (a.constant == 0) = true) ∧ cases' = LoadCase.canonical (as.map (·.case)) := by
  constructor
  · intro h
    have hzero : ∀ a ∈ as, (a.constant == 0) = true := by
      obtain ⟨cs, hcs, _⟩ := bind_eq_ok_iff.mp h
      intro a ha
      obtain ⟨c, hc⟩ := mapM_ok_of_mem hcs a ha
      by_contra hne
      rw [if_neg hne] at hc
      cases hc
    rw [loadCases_ok hzero] at h
    cases h
    exact ⟨hzero, rfl⟩
  · rintro ⟨hzero, rfl⟩
    exact loadCases_ok hzero

/-- What fails is a number that is left. -/
theorem loadCases_error {e : Failure} (h : loadCases rule as = .error e) :
    ∃ k, (k == 0) = false ∧ e = .constantTerm rule k := by
  obtain h | ⟨_, _, h⟩ := bind_eq_error_iff.mp h
  · obtain ⟨a, _, ha⟩ := mapM_error h
    by_cases hzero : (a.constant == 0) = true
    · rw [if_pos hzero] at ha
      cases ha
    · rw [if_neg hzero] at ha
      cases ha
      exact ⟨a.constant, by simpa using hzero, rfl⟩
  · cases h

end Alternative

namespace Rulebook

variable {book : Rulebook} {first : Progress} {name : String}

/-- The combination of a name, computed without a memory. -/
def combinationAnew (book : Rulebook) (name : String) : Except Failure Combination :=
  (book.loadCasesAnew name).map fun cases => ⟨name, cases, book.optionsFor name⟩

def isFactors (book : Rulebook) (name : String) : Bool :=
  match book.recompute [] name with
  | .ok as => Alternative.isFactorSet as
  | .error _ => false

theorem isFactors_iff : book.isFactors name ↔
    ∃ as, book.recompute [] name = .ok as ∧ Alternative.isFactorSet as := by
  unfold isFactors
  cases book.recompute [] name with
  | ok as => simp
  | error e => simp

theorem combinationAnew_of_isRule (h : book.isRule name) : book.combinationAnew name = (do
    let as ← book.recompute [] name
    book.combination name as) := by
  rw [combinationAnew, loadCasesAnew, if_pos h]
  cases book.recompute [] name with
  | error e => rfl
  | ok as =>
    change (Alternative.loadCases name as).map _ = book.combination name as
    rw [combination]
    cases Alternative.loadCases name as <;> rfl

theorem name_of_combinationAnew {c : Combination} (h : book.combinationAnew name = .ok c) :
    c.name = name := by
  unfold combinationAnew at h
  cases hc : book.loadCasesAnew name with
  | error e =>
    rw [hc] at h
    cases h
  | ok cases' =>
    rw [hc] at h
    cases h
    rfl

/-- The rules of a list that a query resolves: all but the sets of factors that are not `wanted`. -/
def resolved (book : Rulebook) (wanted : String → Bool) (names : List String) : List String :=
  names.filter fun n => wanted n || !book.isFactors n

theorem mem_resolved {wanted : String → Bool} {names : List String} :
    name ∈ book.resolved wanted names ↔
      name ∈ names ∧ (wanted name = true ∨ book.isFactors name = false) := by
  simp [resolved]

theorem resolved_append_cons {wanted : String → Bool} (h : wanted name = true)
    (before rest : List String) : book.resolved wanted (before ++ name :: rest) =
      book.resolved wanted before ++ name :: book.resolved wanted rest := by
  simp [resolved, h]

/-- To decide by its alternatives whether a rule is passed over comes to the same as to decide by
its name. -/
theorem recompute_bind_ite {α : Type} (h : book.isRule name) (wanted : String → Bool)
    (k : Combination → Except Failure α) (rest : Except Failure α) :
    (do
      let as ← book.recompute [] name
      if Alternative.isFactorSet as && !wanted name then rest
      else book.combination name as >>= k) =
    if wanted name || !book.isFactors name then book.combinationAnew name >>= k else rest := by
  rw [combinationAnew_of_isRule h, isFactors]
  cases book.recompute [] name with
  | error e =>
    rw [if_pos (by simp)]
    rfl
  | ok as =>
    change (if Alternative.isFactorSet as && !wanted name then rest else _) =
      if wanted name || !Alternative.isFactorSet as then book.combination name as >>= k else rest
    cases Alternative.isFactorSet as <;> cases wanted name <;> rfl

/-- A set of factors keeps a number. -/
theorem combinationAnew_of_isFactors (hrule : book.isRule name) (h : book.isFactors name) :
    ∃ k, (k == 0) = false ∧ book.combinationAnew name = .error (.constantTerm name k) := by
  obtain ⟨as, has, hset⟩ := isFactors_iff.mp h
  obtain ⟨_, hany⟩ := Bool.and_eq_true_iff.mp hset
  obtain ⟨a, ha, hne⟩ := List.any_eq_true.mp hany
  have hcases : book.combinationAnew name = book.combination name as := by
    rw [combinationAnew_of_isRule hrule, has]
    rfl
  rw [hcases, combination]
  cases hl : Alternative.loadCases name as with
  | ok cs =>
    have hzero := (Alternative.loadCases_eq_ok_iff.mp hl).1 a ha
    rw [hzero] at hne
    cases hne
  | error e =>
    obtain ⟨k, hk, rfl⟩ := Alternative.loadCases_error hl
    exact ⟨k, hk, rfl⟩

theorem combinations_answers (wanted : String → Bool) {names : List String}
    (hrule : ∀ n ∈ names, book.isRule n) :
    Answers (book.Sound [] first) (book.combinations wanted names)
      ((book.resolved wanted names).mapM book.combinationAnew) := by
  induction names with
  | nil => exact answers_pure []
  | cons n ns ih =>
    have hrest := ih fun m hm => hrule m (List.mem_cons_of_mem n hm)
    -- the names are filtered before, while the query decides when it has the alternatives
    have hsplit : (book.resolved wanted (n :: ns)).mapM book.combinationAnew =
        if wanted n || !book.isFactors n then book.combinationAnew n >>= fun c => do
          let cs ← (book.resolved wanted ns).mapM book.combinationAnew
          return c :: cs
        else (book.resolved wanted ns).mapM book.combinationAnew := by
      rw [resolved, List.filter_cons]
      split
      · rw [List.mapM_cons]
        rfl
      · rfl
    rw [hsplit, ← recompute_bind_ite (hrule n List.mem_cons_self)]
    apply (alternatives_answers n).bind
    intro as _
    split
    · exact hrest
    · have hone := answers_liftExcept (I := book.Sound [] first) (book.combination n as)
      rw [liftExcept_eq_self] at hone
      apply hone.bind
      intro c _
      apply hrest.bind
      intro cs _
      exact answers_pure (c :: cs)

/-- To resolve rules one after the other is to make their combinations, and to drop them. -/
theorem resolveEach_eq (names : List String) : book.resolveEach names =
    (fun _ => ()) <$> book.combinations (fun _ => false) names := by
  induction names with
  | nil => rfl
  | cons n ns ih =>
    change (book.alternatives n >>= fun as => if !Alternative.isFactorSet as then
      liftExcept (Alternative.loadCases n as) >>= fun _ => pure () else pure ()) >>=
        (fun _ => book.resolveEach ns) = _
    rw [ih, combinations, map_bind, bind_assoc]
    congr 1
    funext as
    cases Alternative.isFactorSet as with
    | true => rw [if_neg (by simp), if_pos (by simp), pure_bind]
    | false =>
      rw [if_pos (by simp), if_neg (by simp), combination]
      cases Alternative.loadCases n as with
      | error e => rfl
      | ok cases' => simp [liftExcept]

theorem isRule_of_mem_sortedNames (h : name ∈ book.sortedNames) : book.isRule name :=
  isRule_iff_mem_ruleNames.mpr (List.mem_mergeSort.mp h)

/-- The names of the rules are in strictly increasing order. -/
theorem sortedNames_sorted (book : Rulebook) : book.sortedNames.Pairwise (· < ·) := by
  have hle : book.sortedNames.Pairwise fun a b => decide (a ≤ b) = true :=
    List.pairwise_mergeSort (fun a b c => by simpa using String.le_trans)
      (fun a b => by simpa using String.le_total a b) _
  have hne : book.sortedNames.Pairwise (· ≠ ·) :=
    (List.mergeSort_perm _ _).nodup_iff.mpr book.distinct
  refine (hle.and hne).imp ?_
  rintro a b ⟨hab, hne⟩
  exact Std.lt_of_le_of_ne (by simpa using hab) hne

theorem ordered_answers : Answers (book.Sound [] first) book.ordered
    ((book.resolved (fun _ => false) book.sortedNames).mapM book.combinationAnew) :=
  combinations_answers _ fun _ hn => isRule_of_mem_sortedNames hn

theorem resolveAll_answers : Answers (book.Sound [] first) book.resolveAll
    (((book.resolved (fun _ => false) book.ruleNames).mapM book.combinationAnew).map
      fun _ => ()) := by
  have hall : book.resolveAll = (do
      let _ ← book.combinations (fun _ => false) book.ruleNames
      return ()) := (resolveEach_eq book.ruleNames).trans (map_eq_pure_bind _ _)
  have hmap : ((book.resolved (fun _ => false) book.ruleNames).mapM book.combinationAnew).map
      (fun _ => ()) = (do
        let _ ← (book.resolved (fun _ => false) book.ruleNames).mapM book.combinationAnew
        return ()) := by
    cases (book.resolved (fun _ => false) book.ruleNames).mapM book.combinationAnew <;> rfl
  rw [hall, hmap]
  apply (combinations_answers _ fun n hn => isRule_iff_mem_ruleNames.mpr hn).bind
  intro cs _
  exact answers_pure ()

theorem isRule_of_select {ps : List Pattern} {names : List String}
    (h : Pattern.select ps book.sortedNames = .ok names) : ∀ n ∈ names, book.isRule n :=
  fun _ hn => isRule_of_mem_sortedNames ((Pattern.mem_select_iff h).mp hn).1

theorem select_answers [RegexLibrary] (patterns : List String) : Answers (book.Sound [] first)
    (book.select patterns) (do
      let ps ← patterns.mapM Pattern.parse
      let names ← Pattern.select ps book.sortedNames
      (book.resolved (fun n => ps.any fun p => p.names n) names).mapM book.combinationAnew) := by
  have hlift {α : Type} (r : Except Failure α) :
      Answers (book.Sound [] first) (liftExcept r) r := by
    have h := answers_liftExcept (I := book.Sound [] first) r
    rwa [liftExcept_eq_self] at h
  apply (hlift _).bind
  intro ps _
  apply (hlift _).bind
  intro names hnames
  exact combinations_answers _ (isRule_of_select hnames)

/-- The empty expression chooses all rules, none by its very name. -/
theorem select_empty_regex [RegexLibrary] (hempty : RegexLibrary.FindsEmpty) (book : Rulebook) :
    book.select ["&"] = book.ordered := by
  obtain ⟨found, hcompile, hall⟩ := hempty
  have hone : Pattern.parse "&" = .ok (.regex "" found) := Pattern.parse_of_compile rfl hcompile
  have hparse : ["&"].mapM Pattern.parse = .ok [.regex "" found] := by
    rw [List.mapM_cons, hone]
    rfl
  have hnames : Pattern.select [.regex "" found] book.sortedNames = .ok book.sortedNames := by
    have hnodup : book.sortedNames.Nodup :=
      (List.mergeSort_perm _ _).nodup_iff.mpr book.distinct
    have hmatched : [Pattern.regex "" found].flatMap (Pattern.matched book.sortedNames) =
        book.sortedNames := by
      rw [List.flatMap_singleton, Pattern.matched, List.filter_eq_self.mpr fun n _ => hall n]
    exact Pattern.select_eq_ok_iff.mpr ⟨by simp, by rw [hmatched, eraseDups_eq_self hnodup]⟩
  rw [select, hparse]
  change (liftExcept (Pattern.select [.regex "" found] book.sortedNames) >>= _ : Query _) = _
  rw [hnames]
  rfl

/-- Whether a book is resolved at once has no part in what its rules resolve to. -/
theorem alternativesWithin_eager (book : Rulebook) (eager : Bool) (fuel : Nat) :
    alternativesWithin { book with settings := { book.settings with eager } } fuel =
      book.alternativesWithin fuel := by
  induction fuel with
  | zero => rfl
  | succ fuel ih =>
    unfold alternativesWithin
    rw [ih]
    rfl

theorem resolveAll_eager (book : Rulebook) (eager : Bool) :
    resolveAll { book with settings := { book.settings with eager } } = book.resolveAll := by
  have halt : alternatives { book with settings := { book.settings with eager } } =
      book.alternatives := by
    funext name
    exact congrFun (alternativesWithin_eager book eager _) name
  unfold resolveAll
  rw [halt]
  rfl

end Rulebook

end DesignLoads
