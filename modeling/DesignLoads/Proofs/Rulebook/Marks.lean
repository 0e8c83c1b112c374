import DesignLoads.Rulebook.Resolution
import Mathlib.Data.List.Nodup

/-! Marks and path. The resolution of a rule sets its mark and puts it on the path, which are two
steps, and two others undo this, on success and on failure alike. Whatever happens between them, the
rules that are marked as being resolved are those on the path. -/

namespace DesignLoads

namespace Progress

variable {p : Progress} {name other : String} {stack : List String} {as : List Alternative}

theorem get?_mark (p : Progress) (name other : String) (slot : Slot) :
    (p.mark name slot).slots.get? other =
      if other = name then some slot else p.slots.get? other :=
  NameMap.get?_insert _ _ _ _

theorem get?_unmark (p : Progress) (name other : String) : (p.unmark name).slots.get? other =
    if other = name then none else p.slots.get? other :=
  NameMap.get?_erase _ _ _

theorem known?_eq_some_iff : p.known? name = some as ↔ p.slots.get? name = some (.resolved as) := by
  unfold known?
  split <;> simp_all

theorem known?_congr {q : Progress} (h : q.slots.get? name = p.slots.get? name) :
    q.known? name = p.known? name := by
  rw [known?, h, known?]

theorem status_eq_resolved_iff : p.status name = .resolved ↔ (p.known? name).isSome := by
  unfold status known?
  split <;> simp_all

theorem status_eq_resolving_iff :
    p.status name = .resolving ↔ p.slots.get? name = some .resolving := by
  unfold status
  split <;> simp_all

/-- The place of a name on a path that it has not stood on before. -/
theorem idxOf?_append_cons {outer : List String} (h : name ∉ outer) (inner : List String) :
    (outer ++ name :: inner).idxOf? name = some outer.length := by
  induction outer with
  | nil => simp [List.idxOf?_cons]
  | cons n ns ih =>
    rw [List.mem_cons, not_or] at h
    obtain ⟨hn, hns⟩ := h
    rw [List.cons_append, List.idxOf?_cons, ih hns, if_neg (by simpa using Ne.symm hn)]
    rfl

def enter (p : Progress) (name : String) : Progress := (p.mark name .resolving).push name

def finish (p : Progress) (name : String) (as : List Alternative) : Progress :=
  p.pop.mark name (.resolved as)

def abandon (p : Progress) (name : String) : Progress := p.pop.unmark name

/-- The rules of `stack` are being resolved, innermost first: they differ, they are those on the
path, and they are those that are marked so. -/
structure Open (p : Progress) (stack : List String) : Prop where
  distinct : stack.Nodup
  path : p.path = stack.reverse
  marks : ∀ n, p.slots.get? n = some .resolving ↔ n ∈ stack

theorem open_start : start.Open [] := ⟨.nil, rfl, by simp [start]⟩

theorem Open.known?_eq_none (h : p.Open stack) (hname : name ∈ stack) : p.known? name = none := by
  rw [known?, (h.marks name).mpr hname]

theorem Open.not_mem (h : p.Open stack) (hnew : p.slots.get? name = none) : name ∉ stack := by
  rw [← h.marks, hnew]
  simp

theorem Open.enter (h : p.Open stack) (hnew : p.slots.get? name = none) :
    (p.enter name).Open (name :: stack) := by
  refine ⟨List.nodup_cons.mpr ⟨h.not_mem hnew, h.distinct⟩, ?_, fun n => ?_⟩
  · rw [List.reverse_cons, ← h.path]
    rfl
  · change (p.mark name .resolving).slots.get? n = _ ↔ _
    rw [get?_mark, List.mem_cons, ← h.marks]
    split <;> simp [*]

/-- The innermost rule is no longer being resolved once it is off the path and has another mark, or
none, if no other rule is touched. -/
theorem Open.leave {q : Progress} (h : p.Open (name :: stack)) (hpath : q.path = p.pop.path)
    (hslot : q.slots.get? name ≠ some .resolving)
    (hother : ∀ n, n ≠ name → q.slots.get? n = p.slots.get? n) : q.Open stack := by
  obtain ⟨hout, hdistinct⟩ := List.nodup_cons.mp h.distinct
  refine ⟨hdistinct, ?_, fun n => ?_⟩
  · rw [hpath, pop, h.path, List.reverse_cons, List.dropLast_concat]
  · by_cases hn : n = name
    · subst hn
      exact iff_of_false hslot hout
    · rw [hother n hn, h.marks, List.mem_cons, or_iff_right hn]

theorem Open.finish (h : p.Open (name :: stack)) (as : List Alternative) :
    (p.finish name as).Open stack := by
  refine h.leave rfl ?_ fun n hn => ?_
  · rw [Progress.finish, get?_mark, if_pos rfl]
    simp
  · rw [Progress.finish, get?_mark, if_neg hn]
    rfl

theorem Open.abandon (h : p.Open (name :: stack)) : (p.abandon name).Open stack := by
  refine h.leave rfl ?_ fun n hn => ?_
  · rw [Progress.abandon, get?_unmark, if_pos rfl]
    simp
  · rw [Progress.abandon, get?_unmark, if_neg hn]
    rfl

/-! What is known changes only where a resolution succeeds. -/

theorem known?_enter (p : Progress) (name n : String) :
    (p.enter name).known? n = if n = name then none else p.known? n := by
  have hslot : (p.enter name).slots.get? n =
      if n = name then some .resolving else p.slots.get? n := get?_mark _ _ _ _
  split at hslot
  · rw [if_pos ‹_›, known?, hslot]
  · rw [if_neg ‹_›]
    exact known?_congr hslot

theorem known?_enter_of_new (hnew : p.slots.get? name = none) (n : String) :
    (p.enter name).known? n = p.known? n := by
  rw [known?_enter]
  split
  · rename_i heq
    rw [heq, known?, hnew]
  · rfl

theorem known?_finish (p : Progress) (name n : String) (as : List Alternative) :
    (p.finish name as).known? n = if n = name then some as else p.known? n := by
  have hslot : (p.finish name as).slots.get? n =
      if n = name then some (.resolved as) else p.slots.get? n := get?_mark _ _ _ _
  split at hslot
  · rw [if_pos ‹_›, known?, hslot]
  · rw [if_neg ‹_›]
    exact known?_congr hslot

theorem known?_abandon (p : Progress) (name n : String) :
    (p.abandon name).known? n = if n = name then none else p.known? n := by
  have hslot : (p.abandon name).slots.get? n = if n = name then none else p.slots.get? n :=
    get?_unmark _ _ _
  split at hslot
  · rw [if_pos ‹_›, known?, hslot]
  · rw [if_neg ‹_›]
    exact known?_congr hslot

theorem Open.known?_abandon (h : p.Open (name :: stack)) (n : String) :
    (p.abandon name).known? n = p.known? n := by
  rw [Progress.known?_abandon]
  split
  · rename_i heq
    rw [heq, h.known?_eq_none List.mem_cons_self]
  · rfl

end Progress

end DesignLoads
