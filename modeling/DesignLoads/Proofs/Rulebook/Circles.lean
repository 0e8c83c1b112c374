import DesignLoads.Proofs.Session.History
import Mathlib.Data.List.Chain

/-! Circles of references. A name resolves only if no circle can be reached from it, and the path
that a circular reference is reported with is such a circle: the part of the stack of active rules
from the rule that is referred to again. -/

namespace DesignLoads

namespace Rulebook

variable {book : Rulebook} {stack : List String} {name n : String} {path : List String}

/-- A path of the reference graph from a rule back to itself, which visits no rule twice. -/
structure IsCircle (book : Rulebook) (n : String) (path : List String) : Prop where
  two_le : 2 ≤ path.length
  head : path.head? = some n
  last : path.getLast? = some n
  nodup : path.dropLast.Nodup
  chain : path.IsChain book.Refers

theorem takeWhile_of_split {above below : List String} (h : name ∉ above) :
    (above ++ name :: below).takeWhile (· ≠ name) = above := by
  rw [List.takeWhile_append_of_pos]
  · simp
  · intro m hm
    have hne : m ≠ name := fun he => h (he ▸ hm)
    simpa using hne

/-- The rules from the outermost of the same name on, turned round, close a circle. -/
theorem isCircle_of_stack (hs : name ∈ stack) (hnodup : stack.Nodup)
    (hnested : book.Nested (name :: stack)) :
    book.IsCircle name (name :: (stack.takeWhile (· ≠ name)).reverse ++ [name]) := by
  obtain ⟨above, below, rfl, hnot⟩ := List.eq_append_cons_of_mem hs
  rw [takeWhile_of_split hnot]
  refine ⟨by simp, rfl, List.getLast?_concat, ?_, ?_⟩
  · have hpart : above.Nodup := (List.nodup_append.mp hnodup).1
    rw [List.dropLast_concat]
    exact List.nodup_cons.mpr ⟨by simpa using hnot, List.nodup_reverse.mpr hpart⟩
  · have hloop : (name :: above ++ [name]).IsChain fun inner outer => book.Refers outer inner := by
      apply hnested.chain.prefix
      exact ⟨below, by simp⟩
    simpa using List.isChain_reverse.mpr hloop

/-- A circular reference is reported with a circle that all rules on the stack reach. -/
theorem recompute_circular (hnodup : stack.Nodup)
    (hname : book.isRule name → book.Nested (name :: stack))
    (h : book.recompute stack name = .error (.circularReference n path)) :
    book.IsCircle n path ∧ ∀ s ∈ name :: stack, book.Reaches s n := by
  induction stack, name using recompute.induct book with
  | case1 stack name hr =>
    rw [recompute_of_none hr] at h
    cases h
  | case2 stack name rule hr hs =>
    have hnested := hname (isRule_iff.mpr ⟨rule, hr⟩)
    rw [recompute_of_mem hr hs] at h
    cases h
    refine ⟨isCircle_of_stack hs hnodup hnested, ?_⟩
    intro s hm
    obtain rfl | hm := List.mem_cons.mp hm
    · exact Relation.ReflTransGen.refl
    · exact (hnested.reached s hm).to_reflTransGen
  | case3 stack name rule hr hs ih =>
    have hnested := hname (isRule_iff.mpr ⟨rule, hr⟩)
    rw [recompute_of_not_mem hr hs] at h
    cases he : rule.formula.expand (book.surroundings name (book.recompute (name :: stack))) with
    | ok as =>
      rw [he] at h
      cases h
    | error e =>
      rw [he] at h
      cases h
      -- no step of the expansion reports a circle, so one of the names in the formula does
      obtain hstep | ⟨m, hm, hcircle⟩ := Formula.expand_error he
      · exact absurd rfl (hstep.ne_circular n path)
      have hrule : book.isRule m → book.Nested (m :: name :: stack) :=
        fun hrule => hnested.cons (Refers.intro hr hrule hm)
      obtain ⟨hpath, hreach⟩ := ih m (List.nodup_cons.mpr ⟨hs, hnodup⟩) hrule hcircle
      exact ⟨hpath, fun s hmem => hreach s (List.mem_cons_of_mem m hmem)⟩

theorem recompute_of_loadCasesAnew {cases : List LoadCase}
    (h : book.loadCasesAnew name = .ok cases) : ∃ as, book.recompute [] name = .ok as := by
  unfold loadCasesAnew at h
  split at h
  · obtain ⟨as, ha, _⟩ := bind_eq_ok_iff.mp h
    exact ⟨as, ha⟩
  · rename_i hrule
    exact ⟨_, recompute_of_none (by simpa [isRule_eq] using hrule)⟩

theorem recompute_of_loadCasesAnew_circular
    (h : book.loadCasesAnew name = .error (.circularReference n path)) :
    book.recompute [] name = .error (.circularReference n path) := by
  unfold loadCasesAnew at h
  split at h
  · obtain h | ⟨as, _, h⟩ := bind_eq_error_iff.mp h
    · exact h
    -- load cases fail over a constant alone
    obtain h | ⟨_, _, h⟩ := bind_eq_error_iff.mp h
    · obtain ⟨a, _, ha⟩ := mapM_error h
      split at ha <;> cases ha
    · cases h
  · cases h

end Rulebook

namespace Session

variable {s : Session}

/-- Circles are detected exactly, after any calls. With fuel for every rule a name resolves to what
a recursion computes that needs no fuel; a name that resolves reaches no circle; and a circular
reference is reported with a circle that the name reaches. -/
theorem resolve_detects_circles [RegexLibrary] {lines baseCases : List String} {settings : Settings}
    (h : ofLines lines baseCases settings = .ok s) (calls : List Call) (name : String) :
    (∀ fuel, s.book.rules.length < fuel →
      ((s.after calls).ask fun b => b.alternativesWithin fuel name).1 =
        s.book.recompute [] name) ∧
    (∀ c, ((s.after calls).ask fun b => b.resolve name).1 = .ok c →
      ∀ m, s.book.Reaches name m → ¬ s.book.OnCircle m) ∧
    ∀ n path, ((s.after calls).ask fun b => b.resolve name).1 = .error (.circularReference n path) →
      s.book.IsCircle n path ∧ s.book.Reaches name n := by
  have hs := (sound_of_ofLines h).after calls
  refine ⟨?_, ?_, ?_⟩
  · intro fuel hfuel
    obtain ⟨as, hbook⟩ := after_book s calls
    have hlen : (s.after calls).book.rules.length < fuel := by rwa [hbook]
    have hans := (Rulebook.alternativesWithin_answers_of_lt hlen name _ hs).1
    rw [hbook, Rulebook.recompute_attachments, ← hbook] at hans
    exact hans
  · intro c hc
    rw [hs.resolve_eq, loadCasesAnew_after] at hc
    cases hl : s.book.loadCasesAnew name with
    | error e =>
      rw [hl] at hc
      cases hc
    | ok cases =>
      obtain ⟨as, ha⟩ := Rulebook.recompute_of_loadCasesAnew hl
      intro m hm
      exact Rulebook.recompute_acyclic ha hm
  · intro n path hc
    rw [hs.resolve_eq, loadCasesAnew_after] at hc
    cases hl : s.book.loadCasesAnew name with
    | ok cases =>
      rw [hl] at hc
      cases hc
    | error e =>
      rw [hl] at hc
      cases hc
      have hnew := Rulebook.recompute_of_loadCasesAnew_circular hl
      obtain ⟨hpath, hreach⟩ :=
        Rulebook.recompute_circular List.nodup_nil Rulebook.nested_singleton hnew
      exact ⟨hpath, hreach name List.mem_cons_self⟩

attribute [local instance] Regex.library

/-- A circle through a family, behind a rule that is not on it and after a failed call. -/
theorem resolve_detects_circle_of_family : ∃ s,
    ofLines ["U = g + w", "w = 2*x$", "x2 = w - q", "x1 = q"] [] .standard = .ok s ∧
    (((s.after [.resolve "x2"]).ask fun b => b.resolve "U").1.map (·.alternatives)) =
      .error (.circularReference "w" ["w", "x2", "w"]) ∧
    s.book.IsCircle "w" ["w", "x2", "w"] ∧ s.book.Reaches "U" "w" := by
  have hrun : (match ofLines ["U = g + w", "w = 2*x$", "x2 = w - q", "x1 = q"] [] .standard with
      | .error _ => false
      | .ok s => match ((s.after [.resolve "x2"]).ask fun b => b.resolve "U").1 with
        | .error e => e = .circularReference "w" ["w", "x2", "w"]
        | .ok _ => false) = true := by decide +kernel
  cases hs : ofLines ["U = g + w", "w = 2*x$", "x2 = w - q", "x1 = q"] [] .standard with
  | error e => simp [hs] at hrun
  | ok s =>
    cases hr : ((s.after [.resolve "x2"]).ask fun b => b.resolve "U").1 with
    | ok c => simp [hs, hr] at hrun
    | error e =>
      obtain rfl : e = .circularReference "w" ["w", "x2", "w"] := by simpa [hs, hr] using hrun
      exact ⟨s, rfl, by rw [hr]; rfl, (resolve_detects_circles hs _ "U").2.2 _ _ hr⟩

end Session

end DesignLoads
