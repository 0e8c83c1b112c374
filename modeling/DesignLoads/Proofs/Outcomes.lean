import Mathlib.Data.List.Perm.Basic
import Mathlib.Tactic.Choose

/-! Results that may be failures: when one step after the other succeeds, which failure is the first,
and what two results have in common that succeed or fail together. -/

namespace DesignLoads

section Outcomes

variable {ε α β : Type} {x : Except ε α} {f : α → Except ε β} {xs : List α}

theorem bind_eq_ok_iff {b : β} : x >>= f = .ok b ↔ ∃ a, x = .ok a ∧ f a = .ok b := by
  cases x with
  | ok a => simp [bind, Except.bind]
  | error e => simp [bind, Except.bind]

theorem bind_eq_error_iff {e : ε} :
    x >>= f = .error e ↔ x = .error e ∨ ∃ a, x = .ok a ∧ f a = .error e := by
  cases x with
  | ok a => simp [bind, Except.bind]
  | error e => simp [bind, Except.bind]

theorem exists_map_ok_iff {g : α → β} : (∃ b, x.map g = .ok b) ↔ ∃ a, x = .ok a := by
  cases x with
  | ok a => exact iff_of_true ⟨g a, rfl⟩ ⟨a, rfl⟩
  | error e => exact iff_of_false nofun nofun

theorem map_eq_error_iff {g : α → β} {e : ε} : x.map g = .error e ↔ x = .error e := by
  cases x with
  | ok a => exact iff_of_false nofun nofun
  | error e' => rw [Except.map, Except.error.injEq, Except.error.injEq]

@[simp] theorem liftExcept_eq_self : (liftExcept x : Except ε α) = x := by
  cases x <;> rfl

/-- Whether there is a value, with a property that can be computed. -/
def okWith (x : Except ε α) (p : α → Bool) : Bool :=
  match x with
  | .ok a => p a
  | .error _ => false

theorem okWith_iff {p : α → Bool} : okWith x p = true ↔ ∃ a, x = .ok a ∧ p a = true := by
  cases x with
  | ok a => simp [okWith]
  | error e => simp [okWith]

/-- Whether there is a failure, with a property that can be computed. -/
def errorWith (x : Except ε α) (p : ε → Bool) : Bool :=
  match x with
  | .ok _ => false
  | .error e => p e

theorem errorWith_iff {p : ε → Bool} : errorWith x p = true ↔ ∃ e, x = .error e ∧ p e = true := by
  cases x with
  | ok a => simp [errorWith]
  | error e => simp [errorWith]

/-- A list of operations succeeds if all of them do. -/
theorem mapM_eq_ok_iff {ys : List β} : xs.mapM f = .ok ys ↔ xs.map f = ys.map .ok := by
  induction xs generalizing ys with
  | nil => cases ys <;> simp [pure, Except.pure]
  | cons x xs ih =>
    rw [List.mapM_cons, bind_eq_ok_iff]
    constructor
    · rintro ⟨y, hy, h⟩
      obtain ⟨zs, hzs, h⟩ := bind_eq_ok_iff.mp h
      cases h
      rw [List.map_cons, List.map_cons, hy, ih.mp hzs]
    · intro h
      cases ys with
      | nil => cases h
      | cons y ys =>
        obtain ⟨hy, hys⟩ := List.cons.inj h
        exact ⟨y, hy, bind_eq_ok_iff.mpr ⟨ys, ih.mpr hys, rfl⟩⟩

theorem mapM_ok {g : α → β} (h : ∀ x ∈ xs, f x = .ok (g x)) : xs.mapM f = .ok (xs.map g) := by
  rw [mapM_eq_ok_iff, List.map_map]
  exact List.map_congr_left h

theorem mapM_ok_of_mem {ys : List β} (h : xs.mapM f = .ok ys) : ∀ x ∈ xs, ∃ y, f x = .ok y := by
  intro x hx
  have hmem : f x ∈ ys.map .ok := mapM_eq_ok_iff.mp h ▸ List.mem_map_of_mem hx
  obtain ⟨y, _, hy⟩ := List.mem_map.mp hmem
  exact ⟨y, hy.symm⟩

theorem length_mapM {ys : List β} (h : xs.mapM f = .ok ys) : ys.length = xs.length := by
  have hlen := congrArg List.length (mapM_eq_ok_iff.mp h)
  simpa using hlen.symm

theorem exists_mapM_ok_iff : (∃ ys, xs.mapM f = .ok ys) ↔ ∀ x ∈ xs, ∃ y, f x = .ok y := by
  constructor
  · rintro ⟨ys, h⟩
    exact mapM_ok_of_mem h
  · intro h
    induction xs with
    | nil => exact ⟨[], rfl⟩
    | cons x xs ih =>
      obtain ⟨y, hy⟩ := h x List.mem_cons_self
      obtain ⟨ys, hys⟩ := ih fun z hz => h z (List.mem_cons_of_mem x hz)
      rw [List.mapM_cons]
      exact ⟨y :: ys, bind_eq_ok_iff.mpr ⟨y, hy, bind_eq_ok_iff.mpr ⟨ys, hys, rfl⟩⟩⟩

/-- The first of a list of operations to fail is the one that fails the list. -/
theorem mapM_error_of_split {before rest : List α} {x : α} {e : ε} (hxs : xs = before ++ x :: rest)
    (hbefore : ∀ y ∈ before, ∃ z, f y = .ok z) (h : f x = .error e) : xs.mapM f = .error e := by
  obtain ⟨ys, hys⟩ := exists_mapM_ok_iff.mpr hbefore
  rw [hxs, List.mapM_append, hys, List.mapM_cons, h]
  rfl

theorem mapM_eq_error_iff {e : ε} : xs.mapM f = .error e ↔ ∃ before x rest,
    xs = before ++ x :: rest ∧ (∀ y ∈ before, ∃ z, f y = .ok z) ∧ f x = .error e := by
  constructor
  · intro h
    induction xs with
    | nil => cases h
    | cons x xs ih =>
      rw [List.mapM_cons] at h
      obtain h | ⟨z, hz, h⟩ := bind_eq_error_iff.mp h
      · exact ⟨[], x, xs, rfl, by simp, h⟩
      obtain h | ⟨_, _, h⟩ := bind_eq_error_iff.mp h
      · obtain ⟨before, y, rest, rfl, hbefore, hy⟩ := ih h
        refine ⟨x :: before, y, rest, rfl, ?_, hy⟩
        exact List.forall_mem_cons.mpr ⟨⟨z, hz⟩, hbefore⟩
      · cases h
  · rintro ⟨before, x, rest, hxs, hbefore, hx⟩
    exact mapM_error_of_split hxs hbefore hx

theorem mapM_error {e : ε} (h : xs.mapM f = .error e) : ∃ x ∈ xs, f x = .error e := by
  obtain ⟨before, x, rest, rfl, _, hx⟩ := mapM_eq_error_iff.mp h
  exact ⟨x, List.mem_append_right _ List.mem_cons_self, hx⟩

end Outcomes

/-- Both fail, or both succeed with values that `R` relates. -/
inductive Together {ε α : Type} (R : α → α → Prop) : Except ε α → Except ε α → Prop where
  | ok {a b : α} (h : R a b) : Together R (.ok a) (.ok b)
  | error (e e' : ε) : Together R (.error e) (.error e')

namespace Together

variable {ε α β : Type} {R : α → α → Prop} {S : β → β → Prop} {x y : Except ε α}

theorem refl (hR : ∀ a, R a a) (x : Except ε α) : Together R x x := by
  cases x with
  | ok a => exact .ok (hR a)
  | error e => exact .error e e

theorem mono (h : Together R x y) {Q : α → α → Prop} (hRQ : ∀ a b, R a b → Q a b) :
    Together Q x y := by
  cases h with
  | ok h => exact .ok (hRQ _ _ h)
  | error e e' => exact .error e e'

theorem intro (h : ∀ a, x = .ok a → ∃ b, y = .ok b ∧ R a b) (h' : ∀ b, y = .ok b → ∃ a, x = .ok a) :
    Together R x y := by
  cases x with
  | ok a =>
    obtain ⟨b, rfl, hab⟩ := h a rfl
    exact .ok hab
  | error e =>
    cases y with
    | ok b =>
      obtain ⟨a, ha⟩ := h' b rfl
      cases ha
    | error e' => exact .error e e'

theorem of_ok {a : α} (h : Together R (.ok a) y) : ∃ b, y = .ok b ∧ R a b := by
  cases h with
  | ok h => exact ⟨_, rfl, h⟩

theorem bind (h : Together R x y) {f g : α → Except ε β}
    (hfg : ∀ a b, R a b → Together S (f a) (g b)) : Together S (x >>= f) (y >>= g) := by
  cases h with
  | ok h => exact hfg _ _ h
  | error e e' => exact .error e e'

theorem bind_self (x : Except ε α) {f g : α → Except ε β} (hfg : ∀ a, Together S (f a) (g a)) :
    Together S (x >>= f) (x >>= g) := by
  cases x with
  | ok a => exact hfg a
  | error e => exact .error e e

/-- The order of operations makes no difference, but to the failure that is seen first. -/
theorem mapM_perm [Inhabited β] {f : α → Except ε β} {xs ys : List α} (h : xs.Perm ys) :
    Together List.Perm (xs.mapM f) (ys.mapM f) := by
  by_cases hall : ∀ x ∈ xs, ∃ z, f x = .ok z
  · choose! g hg using hall
    rw [mapM_ok hg, mapM_ok fun y hy => hg y (h.mem_iff.mpr hy)]
    exact .ok (h.map g)
  · have hfails {zs : List α} (hzs : ∀ z, z ∈ zs ↔ z ∈ xs) : ∃ e, zs.mapM f = .error e := by
      cases hz : zs.mapM f with
      | ok ws => exact absurd (fun x hx => mapM_ok_of_mem hz x ((hzs x).mpr hx)) hall
      | error e => exact ⟨e, rfl⟩
    obtain ⟨e, he⟩ := hfails fun _ => Iff.rfl
    obtain ⟨e', he'⟩ := hfails fun _ => h.mem_iff.symm
    rw [he, he']
    exact .error e e'

end Together

end DesignLoads
