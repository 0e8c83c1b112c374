import DesignLoads.Pattern
import DesignLoads.Proofs.FirstOccurrences
import DesignLoads.Proofs.Outcomes
import Mathlib.Data.List.Nodup

/-! Selection by patterns. The names that patterns choose stand in the order of the patterns, and
where an expression matches several of them in the order of the candidates; a name that is chosen
again stays at its first place. Of a regular expression nothing is known but the names in which it is
found, whichever these are. -/

namespace DesignLoads

namespace Selection

variable {s : Selection} {names : List String}

/-- What has been selected, as a list and as a set, when `names` have been chosen, some of them
perhaps again. -/
structure Has (s : Selection) (names : List String) : Prop where
  listed : s.names.toList = names.eraseDups
  seen : ∀ n, s.seen.contains n = true ↔ n ∈ names

theorem has_empty : empty.Has [] := ⟨rfl, by simp [empty]⟩

theorem Has.add (h : s.Has names) (name : String) : (s.add name).Has (names ++ [name]) := by
  unfold Selection.add
  split
  · rename_i hseen
    have hmem := (h.seen name).mp hseen
    refine ⟨?_, fun n => ?_⟩
    · rw [h.listed, List.eraseDups_append]
      simp [List.removeAll, hmem]
    · rw [h.seen, List.mem_append, List.mem_singleton]
      exact ⟨.inl, fun hn => hn.elim id (· ▸ hmem)⟩
  · rename_i hnew
    have hout : name ∉ names := fun hmem => hnew ((h.seen name).mpr hmem)
    refine ⟨?_, fun n => ?_⟩
    · rw [Array.toList_push, h.listed, List.eraseDups_append]
      simp [List.removeAll, hout, eraseDups_eq_self (List.nodup_singleton name)]
    · rw [Std.HashSet.contains_insert, Bool.or_eq_true, h.seen, List.mem_append,
        List.mem_singleton, beq_iff_eq, or_comm, eq_comm]

theorem Has.foldl_add (h : s.Has names) (chosen : List String) :
    (chosen.foldl Selection.add s).Has (names ++ chosen) := by
  induction chosen generalizing s names with
  | nil => rwa [List.append_nil]
  | cons n ns ih =>
    have hall := ih (h.add n)
    rwa [List.append_assoc] at hall

/-- The one pass over the patterns selects what they choose, one after the other, without later
repetitions. -/
theorem Has.foldlM_addChosen (h : s.Has names) (candidates : List String) (ps : List Pattern) :
    (ps.foldlM (addChosen candidates) s).map (fun t => t.names.toList) =
      (ps.mapM (Pattern.choose candidates)).map fun chosen =>
        (names ++ chosen.flatten).eraseDups := by
  induction ps generalizing s names with
  | nil =>
    change Except.ok s.names.toList = Except.ok (names ++ []).eraseDups
    rw [h.listed, List.append_nil]
  | cons p ps ih =>
    rw [List.mapM_cons, List.foldlM_cons, addChosen]
    cases Pattern.choose candidates p with
    | error e => rfl
    | ok chosen =>
      change (ps.foldlM (addChosen candidates) (chosen.foldl Selection.add s)).map _ = _
      rw [ih (h.foldl_add chosen)]
      cases ps.mapM (Pattern.choose candidates) with
      | error e => rfl
      | ok rest =>
        change Except.ok (names ++ chosen ++ rest.flatten).eraseDups =
          Except.ok (names ++ (chosen ++ rest.flatten)).eraseDups
        rw [List.append_assoc]

end Selection

namespace Pattern

variable {p : Pattern} {ps qs : List Pattern} {candidates names : List String} {e : Failure}

/-- The names that a pattern stands for: the name itself, or all candidates that match. -/
def matched (candidates : List String) : Pattern → List String
  | literal name => [name]
  | regex _ found => candidates.filter found

theorem parse_of_compile [RegexLibrary] {text : String} {cs : List Char} {found : String → Bool}
    (htext : text.toList = marker :: cs)
    (h : RegexLibrary.compile (String.ofList cs) = .ok found) :
    parse text = .ok (regex (String.ofList cs) found) := by
  rw [parse, htext]
  dsimp only
  rw [if_pos rfl, h]

theorem find?_candidate (candidates : List String) (name : String) :
    candidates.find? (· = name) = if name ∈ candidates then some name else none := by
  split
  · rename_i hmem
    cases hfind : candidates.find? (· = name) with
    | none => simpa using List.find?_eq_none.mp hfind name hmem
    | some other => exact congrArg some (by simpa using List.find?_some hfind)
  · rename_i hout
    rw [List.find?_eq_none]
    rintro other hother heq
    exact hout (of_decide_eq_true heq ▸ hother)

theorem choose_eq_ok (h : ∀ n, p = literal n → n ∈ candidates) :
    choose candidates p = .ok (p.matched candidates) := by
  cases p with
  | literal name => rw [choose, find?_candidate, if_pos (h name rfl), matched]
  | regex source found => rfl

theorem choose_eq_error_iff : choose candidates p = .error e ↔
    ∃ name, p = literal name ∧ name ∉ candidates ∧ e = .unknownCombination name := by
  cases p with
  | literal name =>
    by_cases hmem : name ∈ candidates
    · rw [choose_eq_ok (by rintro _ ⟨⟩; exact hmem)]
      refine iff_of_false nofun ?_
      rintro ⟨_, ⟨⟩, hout, _⟩
      exact hout hmem
    · have hchoose : choose candidates (literal name) = .error (.unknownCombination name) := by
        rw [choose, find?_candidate, if_neg hmem]
      rw [hchoose, Except.error.injEq]
      constructor
      · rintro rfl
        exact ⟨name, rfl, hmem, rfl⟩
      · rintro ⟨_, ⟨⟩, _, rfl⟩
        rfl
  | regex source found =>
    refine iff_of_false nofun ?_
    rintro ⟨_, ⟨⟩, _⟩

/-- Only a literal that is no candidate chooses nothing. -/
theorem exists_choose_iff :
    (∃ ns, choose candidates p = .ok ns) ↔ ∀ n, p = literal n → n ∈ candidates := by
  constructor
  · rintro ⟨ns, h⟩ n hn
    by_contra hout
    rw [choose_eq_error_iff.mpr ⟨n, hn, hout, rfl⟩] at h
    cases h
  · intro h
    exact ⟨_, choose_eq_ok h⟩

theorem select_eq (ps : List Pattern) (candidates : List String) : select ps candidates =
    (ps.mapM (choose candidates)).map fun chosen => chosen.flatten.eraseDups := by
  have hpass := Selection.has_empty.foldlM_addChosen candidates ps
  have hselect : select ps candidates =
      (ps.foldlM (Selection.addChosen candidates) .empty).map fun t => t.names.toList := by
    unfold select
    cases ps.foldlM (Selection.addChosen candidates) .empty <;> rfl
  rw [hselect, hpass]
  rfl

theorem select_eq_error_iff : select ps candidates = .error e ↔
    ∃ before name rest, ps = before ++ literal name :: rest ∧
      (∀ n, literal n ∈ before → n ∈ candidates) ∧ name ∉ candidates ∧
      e = .unknownCombination name := by
  rw [select_eq, map_eq_error_iff, mapM_eq_error_iff]
  constructor
  · rintro ⟨before, p, rest, rfl, hbefore, hp⟩
    obtain ⟨name, rfl, hout, rfl⟩ := choose_eq_error_iff.mp hp
    refine ⟨before, name, rest, rfl, fun n hn => ?_, hout, rfl⟩
    exact exists_choose_iff.mp (hbefore _ hn) n rfl
  · rintro ⟨before, name, rest, rfl, hbefore, hout, rfl⟩
    refine ⟨before, literal name, rest, rfl, fun q hq => ?_,
      choose_eq_error_iff.mpr ⟨name, rfl, hout, rfl⟩⟩
    apply exists_choose_iff.mpr
    rintro n rfl
    exact hbefore n hq

theorem select_eq_ok_iff : select ps candidates = .ok names ↔
    (∀ n, literal n ∈ ps → n ∈ candidates) ∧
      names = (ps.flatMap (matched candidates)).eraseDups := by
  have hselect (h : ∀ n, literal n ∈ ps → n ∈ candidates) :
      select ps candidates = .ok (ps.flatMap (matched candidates)).eraseDups := by
    have hchoose : ps.mapM (choose candidates) = .ok (ps.map (matched candidates)) := by
      apply mapM_ok
      intro p hp
      apply choose_eq_ok
      rintro n rfl
      exact h n hp
    rw [select_eq, hchoose, List.flatMap_def]
    rfl
  constructor
  · intro h
    have hknown : ∀ n, literal n ∈ ps → n ∈ candidates := by
      rw [select_eq] at h
      obtain ⟨chosen, hchosen⟩ := exists_map_ok_iff.mp ⟨names, h⟩
      exact fun n hn => exists_choose_iff.mp (mapM_ok_of_mem hchosen _ hn) n rfl
    refine ⟨hknown, ?_⟩
    rw [hselect hknown] at h
    exact (Except.ok.inj h).symm
  · rintro ⟨hknown, rfl⟩
    exact hselect hknown

/-- What is selected are the candidates that some pattern covers. -/
theorem mem_select_iff (h : select ps candidates = .ok names) {n : String} :
    n ∈ names ↔ n ∈ candidates ∧ ∃ p ∈ ps, p.covers n := by
  obtain ⟨hknown, rfl⟩ := select_eq_ok_iff.mp h
  have hmatched : ∀ p ∈ ps, n ∈ p.matched candidates ↔ n ∈ candidates ∧ p.covers n := by
    intro p hp
    cases p with
    | literal name =>
      rw [matched, covers, List.mem_singleton, beq_iff_eq]
      constructor
      · rintro rfl
        exact ⟨hknown n hp, rfl⟩
      · rintro ⟨_, rfl⟩
        rfl
    | regex source found => exact List.mem_filter
  rw [List.mem_eraseDups, List.mem_flatMap]
  constructor
  · rintro ⟨p, hp, hn⟩
    obtain ⟨hmem, hcovers⟩ := (hmatched p hp).mp hn
    exact ⟨hmem, p, hp, hcovers⟩
  · rintro ⟨hmem, p, hp, hcovers⟩
    exact ⟨p, hp, (hmatched p hp).mpr ⟨hmem, hcovers⟩⟩

/-- Further patterns add the names that have not been selected yet. -/
theorem select_append {more : List String} (h : select ps candidates = .ok names)
    (h' : select qs candidates = .ok more) :
    select (ps ++ qs) candidates = .ok (names ++ more.filter fun n => n ∉ names) := by
  obtain ⟨hknown, rfl⟩ := select_eq_ok_iff.mp h
  obtain ⟨hknown', rfl⟩ := select_eq_ok_iff.mp h'
  refine select_eq_ok_iff.mpr ⟨fun n hn => ?_, ?_⟩
  · obtain hn | hn := List.mem_append.mp hn
    · exact hknown n hn
    · exact hknown' n hn
  · rw [List.flatMap_append, List.eraseDups_append, List.removeAll, eraseDups_filter]
    congr 1
    apply List.filter_congr
    intro n _
    simp only [List.elem_eq_mem, List.mem_eraseDups, decide_not]

/-- A selection, made in one pass over the patterns, is what the patterns choose, one after the
other, without later repetitions. The first literal that is no candidate is reported. If there is
none, what is selected is what the patterns stand for: names that differ, and those of the candidates
that some pattern covers. Further patterns only append names. -/
theorem select_first_matches (ps : List Pattern) (candidates : List String) :
    select ps candidates =
      (ps.mapM (choose candidates)).map (fun chosen => chosen.flatten.eraseDups) ∧
    (∀ e, select ps candidates = .error e ↔ ∃ before name rest,
      ps = before ++ literal name :: rest ∧ (∀ n, literal n ∈ before → n ∈ candidates) ∧
      name ∉ candidates ∧ e = .unknownCombination name) ∧
    (∀ names, select ps candidates = .ok names ↔ (∀ n, literal n ∈ ps → n ∈ candidates) ∧
      names = (ps.flatMap (matched candidates)).eraseDups) ∧
    ∀ names, select ps candidates = .ok names → names.Nodup ∧
      (∀ n, n ∈ names ↔ n ∈ candidates ∧ ∃ p ∈ ps, p.covers n) ∧
      ∀ qs more, select qs candidates = .ok more →
        select (ps ++ qs) candidates = .ok (names ++ more.filter fun n => n ∉ names) := by
  refine ⟨select_eq ps candidates, fun e => select_eq_error_iff, fun names => select_eq_ok_iff,
    fun names h => ⟨?_, ?_, ?_⟩⟩
  · rw [(select_eq_ok_iff.mp h).2]
    exact nodup_eraseDups _
  · exact fun n => mem_select_iff h
  · exact fun qs more h' => select_append h h'

/-- A literal before an expression that matches it again, and an expression that matches all. -/
theorem select_first_matches_of_overlap :
    let ps := [literal "LC2", regex "^LC" fun n => ['L', 'C'].isPrefixOf n.toList]
    let qs := [regex "L" fun n => n.toList.contains 'L']
    select ps ["LC1", "LC2", "SLS", "ULS"] = .ok ["LC2", "LC1"] ∧
    select (ps ++ qs) ["LC1", "LC2", "SLS", "ULS"] = .ok ["LC2", "LC1", "SLS", "ULS"] := by
  intro ps qs
  have hfirst : select ps ["LC1", "LC2", "SLS", "ULS"] = .ok ["LC2", "LC1"] :=
    ((select_first_matches ps _).2.2.1 _).mpr ⟨by simp [ps], by decide +kernel⟩
  have hsecond : select qs ["LC1", "LC2", "SLS", "ULS"] = .ok ["LC1", "LC2", "SLS", "ULS"] :=
    ((select_first_matches qs _).2.2.1 _).mpr ⟨by simp [qs], by decide +kernel⟩
  exact ⟨hfirst, ((select_first_matches ps _).2.2.2 _ hfirst).2.2 qs _ hsecond⟩

end Pattern

end DesignLoads
