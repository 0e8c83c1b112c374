import DesignLoads.Proofs.NotANumber
import Mathlib.Data.List.Basic
import Std.Data.HashSet.Lemmas

/-! The order of first occurrences. Lists are alike if they hold the same alternatives and, unless
one of these has a NaN, have them first in the same order. To remove repetitions from the operands
of an operator leaves what the operator gives alike. -/

namespace DesignLoads

section Lists

variable {α β : Type} [DecidableEq α]

/-- Induction along the first occurrences in a list: what follows the first item is looked at
without the repetitions of that item. -/
theorem first_induction {P : List α → Prop} (nil : P [])
    (cons : ∀ x xs, P (xs.filter (!· == x)) → P (x :: xs)) : ∀ xs, P xs
  | [] => nil
  | x :: xs => cons x xs (first_induction nil cons (xs.filter (!· == x)))
termination_by xs => xs.length
decreasing_by
  have hle := List.length_filter_le (!· == x) xs
  rw [List.length_cons]
  omega

theorem eraseDups_filter (p : α → Bool) (xs : List α) :
    (xs.filter p).eraseDups = xs.eraseDups.filter p := by
  induction xs using first_induction with
  | nil => rfl
  | cons x xs ih =>
    rw [List.eraseDups_cons]
    by_cases hp : p x = true
    · rw [List.filter_cons_of_pos hp, List.filter_cons_of_pos hp, List.eraseDups_cons, ← ih,
        List.filter_comm]
    -- the items removed as repetitions of `x` are dropped by `p` as well
    · have hdrop : xs.filter p = (xs.filter (!· == x)).filter p := by
        rw [List.filter_filter]
        apply List.filter_congr
        intro y _
        by_cases hy : y = x
        · subst hy
          simp [hp]
        · simp [hy]
      rw [List.filter_cons_of_neg hp, List.filter_cons_of_neg hp, ← ih, ← hdrop]

theorem eraseDups_append_congr {as as' bs bs' : List α} (ha : as.eraseDups = as'.eraseDups)
    (hb : bs.eraseDups = bs'.eraseDups) : (as ++ bs).eraseDups = (as' ++ bs').eraseDups := by
  have hmem : ∀ x, as.elem x = as'.elem x := by
    intro x
    rw [Bool.eq_iff_iff, List.elem_iff, List.elem_iff, ← List.mem_eraseDups, ha,
      List.mem_eraseDups]
  rw [List.eraseDups_append, List.eraseDups_append, List.removeAll, List.removeAll,
    eraseDups_filter, eraseDups_filter, ha, hb]
  simp only [hmem]

theorem eraseDups_flatMap_congr {f g : β → List α} {xs : List β}
    (h : ∀ x ∈ xs, (f x).eraseDups = (g x).eraseDups) :
    (xs.flatMap f).eraseDups = (xs.flatMap g).eraseDups := by
  induction xs with
  | nil => rfl
  | cons x xs ih =>
    rw [List.flatMap_cons, List.flatMap_cons]
    apply eraseDups_append_congr (h x List.mem_cons_self)
    exact ih fun y hy => h y (List.mem_cons_of_mem x hy)

variable [DecidableEq β]

/-- Behind the block of `x`, later blocks of `x` are made of repetitions alone. -/
theorem removeAll_flatMap (f : α → List β) (x : α) (xs : List α) :
    (xs.flatMap f).removeAll (f x) = ((xs.filter (!· == x)).flatMap f).removeAll (f x) := by
  induction xs with
  | nil => rfl
  | cons y ys ih =>
    have happ (bs cs : List β) :
        (bs ++ cs).removeAll (f x) = bs.removeAll (f x) ++ cs.removeAll (f x) := by
      rw [List.removeAll, List.filter_append]
      rfl
    rw [List.flatMap_cons, happ, ih]
    by_cases hy : y = x
    · subst hy
      have hself : (f y).removeAll (f y) = [] := by
        rw [List.removeAll, List.filter_eq_nil_iff]
        intro b hb
        simp [hb]
      rw [hself, List.filter_cons_of_neg (by simp), List.nil_append]
    · rw [List.filter_cons_of_pos (by simpa using hy), List.flatMap_cons, happ]

/-- The first occurrences among blocks depend on the first occurrences of their indices alone. -/
theorem eraseDups_flatMap (f : α → List β) (xs : List α) :
    (xs.flatMap f).eraseDups = (xs.eraseDups.flatMap f).eraseDups := by
  induction xs using first_induction with
  | nil => rfl
  | cons x xs ih =>
    calc
      ((x :: xs).flatMap f).eraseDups =
          (f x).eraseDups ++ ((xs.flatMap f).removeAll (f x)).eraseDups := by
        rw [List.flatMap_cons, List.eraseDups_append]
      _ = (f x).eraseDups ++
          (((xs.filter (!· == x)).flatMap f).removeAll (f x)).eraseDups := by
        rw [removeAll_flatMap]
      _ = (f x).eraseDups ++
          (((xs.filter (!· == x)).eraseDups.flatMap f).removeAll (f x)).eraseDups := by
        rw [List.removeAll, List.removeAll, eraseDups_filter, eraseDups_filter, ih]
      _ = ((x :: xs).eraseDups.flatMap f).eraseDups := by
        rw [List.eraseDups_cons, List.flatMap_cons, List.eraseDups_append]

theorem eraseDups_flatMap_of_eq {xs ys : List α} (h : xs.eraseDups = ys.eraseDups)
    (f : α → List β) : (xs.flatMap f).eraseDups = (ys.flatMap f).eraseDups := by
  rw [eraseDups_flatMap, h, ← eraseDups_flatMap]

theorem eraseDups_map_of_eq {xs ys : List α} (h : xs.eraseDups = ys.eraseDups) (f : α → β) :
    (xs.map f).eraseDups = (ys.map f).eraseDups := by
  rw [List.map_eq_flatMap, List.map_eq_flatMap]
  exact eraseDups_flatMap_of_eq h _

theorem eraseDups_idem (xs : List α) : xs.eraseDups.eraseDups = xs.eraseDups := by
  have h := eraseDups_flatMap (fun x => [x]) xs
  simpa using h.symm

theorem nodup_eraseDups (xs : List α) : xs.eraseDups.Nodup := by
  induction xs using first_induction with
  | nil => exact List.nodup_nil
  | cons x xs ih =>
    rw [List.eraseDups_cons, List.nodup_cons]
    exact ⟨by simp, ih⟩

theorem eraseDups_eq_self {xs : List α} (h : xs.Nodup) : xs.eraseDups = xs := by
  induction xs with
  | nil => rfl
  | cons x xs ih =>
    obtain ⟨hnot, hrest⟩ := List.nodup_cons.mp h
    have hfilter : xs.filter (!· == x) = xs := by
      rw [List.filter_eq_self]
      intro y hy
      have hne : y ≠ x := fun heq => hnot (heq ▸ hy)
      simpa using hne
    rw [List.eraseDups_cons, hfilter, ih hrest]

/-- The first item not seen before is kept, and then counts as seen. -/
theorem eraseDups_unseen_cons (seen : α → Bool) (x : α) (xs : List α) :
    ((x :: xs).filter (!seen ·)).eraseDups =
      if seen x then (xs.filter (!seen ·)).eraseDups
      else x :: (xs.filter fun y => !(x == y || seen y)).eraseDups := by
  by_cases hx : seen x = true
  · rw [if_pos hx, List.filter_cons_of_neg (by simpa using hx)]
  · rw [if_neg hx, List.filter_cons_of_pos (by simpa using hx), List.eraseDups_cons,
      List.filter_filter]
    congr 2
    apply List.filter_congr
    intro y _
    rw [Bool.not_or, BEq.comm]

variable [Hashable α]

theorem mem_distinctFrom {comparable : α → Bool} {seen : Std.HashSet α} {xs : List α} {x : α}
    (h : x ∉ seen) : x ∈ distinctFrom comparable seen xs ↔ x ∈ xs := by
  induction xs generalizing seen with
  | nil => rfl
  | cons y ys ih =>
    unfold distinctFrom
    split
    · rename_i hy
      have hseen : y ∈ seen := by simpa using (Bool.and_eq_true_iff.mp hy).2
      have hne : x ≠ y := fun he => h (he ▸ hseen)
      rw [ih h, List.mem_cons]
      simp [hne]
    · by_cases he : x = y
      · subst he
        simp
      · have hout : x ∉ seen.insert y := by
          rw [Std.HashSet.mem_insert]
          simpa [Ne.symm he] using h
        rw [List.mem_cons, List.mem_cons, ih hout]

/-- Nothing is lost but repetitions. -/
theorem mem_distinct {comparable : α → Bool} {xs : List α} {x : α} :
    x ∈ distinct comparable xs ↔ x ∈ xs :=
  mem_distinctFrom Std.HashSet.not_mem_empty

theorem distinct_singleton (comparable : α → Bool) (x : α) : distinct comparable [x] = [x] := by
  simp [distinct, distinctFrom]

theorem distinctFrom_sublist (comparable : α → Bool) (seen : Std.HashSet α) (xs : List α) :
    (distinctFrom comparable seen xs).Sublist xs := by
  induction xs generalizing seen with
  | nil => exact .slnil
  | cons x xs ih =>
    unfold distinctFrom
    split
    · exact (ih seen).cons x
    · exact (ih _).cons_cons x

theorem distinctFrom_eq {comparable : α → Bool} {seen : Std.HashSet α} {xs : List α}
    (h : ∀ x ∈ xs, comparable x = true) :
    distinctFrom comparable seen xs = (xs.filter (!seen.contains ·)).eraseDups := by
  induction xs generalizing seen with
  | nil => rfl
  | cons x xs ih =>
    obtain ⟨hx, hrest⟩ := List.forall_mem_cons.mp h
    rw [distinctFrom, hx, Bool.true_and, eraseDups_unseen_cons, ih hrest, ih hrest]
    -- an item joins those seen, or was among them already
    simp only [Std.HashSet.contains_insert]

/-- Items that are all comparable are kept at their first occurrences. -/
theorem distinct_eq_eraseDups {comparable : α → Bool} {xs : List α}
    (h : ∀ x ∈ xs, comparable x = true) : distinct comparable xs = xs.eraseDups := by
  rw [distinct, distinctFrom_eq h]
  simp

end Lists

namespace Alternative

/-- Two lists with the same alternatives, which occur first in the same order unless one of them has
a NaN. -/
structure Alike (as bs : List Alternative) : Prop where
  mem : ∀ a, a ∈ as ↔ a ∈ bs
  firsts : (∀ a ∈ as, ¬ a.HasNaN) → as.eraseDups = bs.eraseDups

variable {as as' bs bs' : List Alternative}

theorem Alike.refl (as : List Alternative) : Alike as as := ⟨fun _ => Iff.rfl, fun _ => rfl⟩

theorem distinct_sublist (as : List Alternative) : (distinct as).Sublist as :=
  distinctFrom_sublist comparable ∅ as

theorem distinct_eq (h : ∀ a ∈ as, ¬ a.HasNaN) : distinct as = as.eraseDups :=
  distinct_eq_eraseDups fun a ha => comparable_iff.mpr (h a ha)

/-- Repetitions may be removed. -/
theorem Alike.distinct (h : Alike as bs) : Alike as (distinct bs) := by
  refine ⟨fun a => (h.mem a).trans mem_distinct.symm, ?_⟩
  intro hnum
  have hb : ∀ b ∈ bs, ¬ b.HasNaN := fun b hb => hnum b ((h.mem b).mpr hb)
  rw [distinct_eq hb, eraseDups_idem, h.firsts hnum]

theorem Alike.append (h : Alike as as') (h' : Alike bs bs') : Alike (as ++ bs) (as' ++ bs') := by
  refine ⟨fun a => ?_, fun hnum => ?_⟩
  · rw [List.mem_append, List.mem_append, h.mem, h'.mem]
  · exact eraseDups_append_congr (h.firsts fun a ha => hnum a (List.mem_append_left _ ha))
      (h'.firsts fun b hb => hnum b (List.mem_append_right _ hb))

theorem Alike.map (h : Alike as bs) {f : Alternative → Alternative}
    (hf : ∀ a, a.HasNaN → (f a).HasNaN) : Alike (as.map f) (bs.map f) := by
  refine ⟨fun a => ?_, fun hnum => ?_⟩
  · simp only [List.mem_map, h.mem]
  · have hfirsts := h.firsts fun a ha hn => hnum (f a) (List.mem_map_of_mem ha) (hf a hn)
    exact eraseDups_map_of_eq hfirsts f

theorem Alike.eq_nil_iff (h : Alike as bs) : as = [] ↔ bs = [] := by
  simp only [List.eq_nil_iff_forall_not_mem, h.mem]

/-- The combinations of all pairs are alike, when a NaN on either side is not lost. An operand that
has a NaN does not matter beside one without alternatives. -/
theorem Alike.pairs (h : Alike as as') (h' : Alike bs bs')
    {f : Alternative → Alternative → Alternative}
    (hf : ∀ a ∈ as, ∀ b ∈ bs, a.HasNaN ∨ b.HasNaN → (f a b).HasNaN) :
    Alike (as.flatMap fun a => bs.map (f a)) (as'.flatMap fun a => bs'.map (f a)) := by
  refine ⟨fun c => ?_, fun hnum => ?_⟩
  · simp only [List.mem_flatMap, List.mem_map, h.mem, h'.mem]
  have hpair : ∀ a ∈ as, ∀ b ∈ bs, ¬ (a.HasNaN ∨ b.HasNaN) := by
    intro a ha b hb hn
    exact hnum (f a b) (List.mem_flatMap.mpr ⟨a, ha, List.mem_map_of_mem hb⟩) (hf a ha b hb hn)
  cases ha : as with
  | nil => rw [h.eq_nil_iff.mp ha]; rfl
  | cons a₀ as₀ =>
    cases hb : bs with
    | nil =>
      have hnone (xs : List Alternative) : (xs.flatMap fun a => [].map (f a)) = [] :=
        List.flatMap_eq_nil_iff.mpr fun _ _ => rfl
      rw [h'.eq_nil_iff.mp hb, hnone, hnone]
    | cons b₀ bs₀ =>
      rw [← ha, ← hb]
      have ha₀ : a₀ ∈ as := ha ▸ List.mem_cons_self
      have hb₀ : b₀ ∈ bs := hb ▸ List.mem_cons_self
      have hleft := h.firsts fun a ha hn => hpair a ha b₀ hb₀ (.inl hn)
      have hright := h'.firsts fun b hb hn => hpair a₀ ha₀ b hb (.inr hn)
      rw [eraseDups_flatMap_of_eq hleft]
      exact eraseDups_flatMap_congr fun a _ => eraseDups_map_of_eq hright (f a)

end Alternative

end DesignLoads
