import DesignLoads.Factor
import DesignLoads.Proofs.Outcomes

/-! The values of factors. A factor has a value if and only if each of its parts passes a check, and
otherwise the first part that fails its check is blamed. A division looks at its divisor before
anything of its dividend is evaluated, so that a zero below the line is found before any fault above
it. -/

namespace DesignLoads

namespace Factor

/-- The value by floating-point arithmetic alone, whatever comes of it. -/
def plainValue : Factor → Float
  | number x => x
  | neg a => -a.plainValue
  | add a b => a.plainValue + b.plainValue
  | sub a b => a.plainValue - b.plainValue
  | mul a b => a.plainValue * b.plainValue
  | div a b => a.plainValue / b.plainValue

def operands : Factor → List Factor
  | number _ => []
  | neg a => [a]
  | add a b | sub a b | mul a b | div a b => [a, b]

def parts : Factor → List Factor
  | number x => [number x]
  | neg a => neg a :: a.parts
  | add a b => add a b :: (a.parts ++ b.parts)
  | sub a b => sub a b :: (a.parts ++ b.parts)
  | mul a b => mul a b :: (a.parts ++ b.parts)
  | div a b => div a b :: (a.parts ++ b.parts)

/-- What is asked of a part: of a division whether its divisor is zero, and of every part whether
its value is finite. -/
inductive Check where
  | divisor (left right : Factor)
  | result (part : Factor)

/-- The checks of all parts in the order in which the parts are visited. Operands are visited from
left to right, but a divisor before its dividend, and the division is looked at in between. -/
def checks : Factor → List Check
  | number x => [.result (number x)]
  | neg a => a.checks ++ [.result (neg a)]
  | add a b => a.checks ++ (b.checks ++ [.result (add a b)])
  | sub a b => a.checks ++ (b.checks ++ [.result (sub a b)])
  | mul a b => a.checks ++ (b.checks ++ [.result (mul a b)])
  | div a b => b.checks ++ .divisor a b :: (a.checks ++ [.result (div a b)])

namespace Check

def part : Check → Factor
  | divisor a b => div a b
  | result g => g

def Passes : Check → Prop
  | divisor _ b => (b.plainValue == 0) = false
  | result g => g.plainValue.isFinite

/-- The check fails with `e`, though the operands it needs have values. -/
def Fails : Check → Failure → Prop
  | divisor a b, e => e = .divisionByZero (div a b).text ∧ ∃ y, b.value = .ok y ∧ (y == 0) = true
  | result g, e => e = .nonFiniteFactor g.text ∧ (∀ a ∈ g.operands, ∃ y, a.value = .ok y) ∧
      ¬ g.plainValue.isFinite

end Check

/-- The first check that does not pass fails with `e`. -/
def FirstFails (cs : List Check) (e : Failure) : Prop :=
  ∃ before c after, cs = before ++ c :: after ∧ (∀ d ∈ before, d.Passes) ∧ c.Fails e

variable {f g a b : Factor} {c : Check} {cs ds : List Check} {e : Failure} {x v : Float}

namespace FirstFails

theorem head (h : c.Fails e) (cs : List Check) : FirstFails (c :: cs) e :=
  ⟨[], c, cs, rfl, nofun, h⟩

theorem append_right (h : FirstFails cs e) (ds : List Check) : FirstFails (cs ++ ds) e := by
  obtain ⟨before, c, after, rfl, hbefore, hc⟩ := h
  exact ⟨before, c, after ++ ds, by rw [List.append_assoc, List.cons_append], hbefore, hc⟩

theorem append_left (hcs : ∀ c ∈ cs, c.Passes) (h : FirstFails ds e) :
    FirstFails (cs ++ ds) e := by
  obtain ⟨before, c, after, rfl, hbefore, hc⟩ := h
  refine ⟨cs ++ before, c, after, (List.append_assoc ..).symm, ?_, hc⟩
  exact List.forall_mem_append.mpr ⟨hcs, hbefore⟩

end FirstFails

theorem finite_eq_ok_iff : finite g x = .ok v ↔ x.isFinite ∧ x = v := by
  unfold finite
  split
  · rename_i hfin
    rw [Except.ok.injEq]
    exact ⟨fun h => ⟨hfin, h⟩, And.right⟩
  · rename_i hfin
    exact iff_of_false nofun fun h => hfin h.1

theorem finite_eq_error_iff :
    finite g x = .error e ↔ e = .nonFiniteFactor g.text ∧ ¬ x.isFinite := by
  unfold finite
  split
  · rename_i hfin
    exact iff_of_false nofun fun h => h.2 hfin
  · rename_i hfin
    rw [Except.error.injEq, eq_comm]
    exact ⟨fun h => ⟨h, hfin⟩, And.left⟩

/-- There is a value exactly if all checks pass, and it is the one of plain arithmetic. -/
theorem value_eq_ok_iff_checks :
    f.value = .ok v ↔ (∀ c ∈ f.checks, c.Passes) ∧ f.plainValue = v := by
  induction f generalizing v with
  | number x =>
    rw [checks, List.forall_mem_singleton]
    exact finite_eq_ok_iff
  | neg a ih =>
    rw [checks, List.forall_mem_append, List.forall_mem_singleton, value, bind_eq_ok_iff]
    simp only [ih, finite_eq_ok_iff]
    constructor
    · rintro ⟨_, ⟨ha, rfl⟩, h⟩
      exact ⟨⟨ha, h.1⟩, h.2⟩
    · rintro ⟨⟨ha, hfin⟩, h⟩
      exact ⟨_, ⟨ha, rfl⟩, hfin, h⟩
  | add a b iha ihb | sub a b iha ihb | mul a b iha ihb =>
    simp only [checks, List.forall_mem_append, List.forall_mem_singleton, value, bind_eq_ok_iff,
      iha, ihb, finite_eq_ok_iff]
    constructor
    · rintro ⟨_, ⟨ha, rfl⟩, _, ⟨hb, rfl⟩, h⟩
      exact ⟨⟨ha, hb, h.1⟩, h.2⟩
    · rintro ⟨⟨ha, hb, hfin⟩, h⟩
      exact ⟨_, ⟨ha, rfl⟩, _, ⟨hb, rfl⟩, hfin, h⟩
  | div a b iha ihb =>
    rw [checks, List.forall_mem_append, List.forall_mem_cons, List.forall_mem_append,
      List.forall_mem_singleton, value, bind_eq_ok_iff]
    simp only [ihb]
    constructor
    · rintro ⟨_, ⟨hb, rfl⟩, h⟩
      split at h
      · cases h
      · rename_i hzero
        simp only [bind_eq_ok_iff, iha, finite_eq_ok_iff] at h
        obtain ⟨_, ⟨ha, rfl⟩, h⟩ := h
        exact ⟨⟨hb, Bool.eq_false_iff.mpr hzero, ha, h.1⟩, h.2⟩
    · rintro ⟨⟨hb, hzero, ha, hfin⟩, h⟩
      refine ⟨_, ⟨hb, rfl⟩, ?_⟩
      rw [if_neg (Bool.eq_false_iff.mp hzero)]
      simp only [bind_eq_ok_iff, iha, finite_eq_ok_iff]
      exact ⟨_, ⟨ha, rfl⟩, hfin, h⟩

theorem passes_of_value (h : f.value = .ok v) : ∀ c ∈ f.checks, c.Passes :=
  (value_eq_ok_iff_checks.mp h).1

theorem plainValue_of_value (h : f.value = .ok v) : f.plainValue = v :=
  (value_eq_ok_iff_checks.mp h).2

/-- A value that is not finite is blamed on the part that has it. -/
theorem firstFails_of_finite (h : finite g g.plainValue = .error e)
    (hoperands : ∀ a ∈ g.operands, ∃ y, a.value = .ok y) : FirstFails [.result g] e := by
  obtain ⟨rfl, hfin⟩ := finite_eq_error_iff.mp h
  have hfails : (Check.result g).Fails (.nonFiniteFactor g.text) := ⟨rfl, hoperands, hfin⟩
  exact .head hfails []

/-- A failure is that of the first check that does not pass. -/
theorem firstFails_of_value (h : f.value = .error e) : FirstFails f.checks e := by
  induction f with
  | number x => exact firstFails_of_finite h nofun
  | neg a ih =>
    obtain h | ⟨x, hx, h⟩ := bind_eq_error_iff.mp h
    · exact (ih h).append_right _
    · obtain rfl := plainValue_of_value hx
      exact .append_left (passes_of_value hx)
        (firstFails_of_finite h (List.forall_mem_singleton.mpr ⟨_, hx⟩))
  | add a b iha ihb | sub a b iha ihb | mul a b iha ihb =>
    obtain h | ⟨x, hx, h⟩ := bind_eq_error_iff.mp h
    · exact (iha h).append_right _
    refine .append_left (passes_of_value hx) ?_
    obtain h | ⟨y, hy, h⟩ := bind_eq_error_iff.mp h
    · exact (ihb h).append_right _
    · obtain rfl := plainValue_of_value hx
      obtain rfl := plainValue_of_value hy
      exact .append_left (passes_of_value hy)
        (firstFails_of_finite h (by simp [operands, hx, hy]))
  | div a b iha ihb =>
    obtain h | ⟨y, hy, h⟩ := bind_eq_error_iff.mp h
    · exact (ihb h).append_right _
    refine .append_left (passes_of_value hy) ?_
    split at h
    -- the dividend has not been looked at yet
    · rename_i hzero
      cases h
      have hfails : (Check.divisor a b).Fails (.divisionByZero (div a b).text) :=
        ⟨rfl, y, hy, hzero⟩
      exact .head hfails _
    · rename_i hzero
      obtain rfl := plainValue_of_value hy
      have hdivisor : ∀ c ∈ [Check.divisor a b], c.Passes :=
        List.forall_mem_singleton.mpr (Bool.eq_false_iff.mpr hzero)
      refine .append_left hdivisor ?_
      obtain h | ⟨x, hx, h⟩ := bind_eq_error_iff.mp h
      · exact (iha h).append_right _
      · obtain rfl := plainValue_of_value hx
        exact .append_left (passes_of_value hx)
          (firstFails_of_finite h (by simp [operands, hx, hy]))

theorem result_mem_checks : .result g ∈ f.checks ↔ g ∈ f.parts := by
  induction f with
  | number x => simp [checks, parts]
  | neg a ih => simp [checks, parts, ih, or_comm]
  | add a b iha ihb | sub a b iha ihb | mul a b iha ihb =>
    simp only [checks, parts, List.mem_append, List.mem_cons, List.not_mem_nil, or_false, iha, ihb,
      Check.result.injEq]
    tauto
  | div a b iha ihb =>
    simp only [checks, parts, List.mem_append, List.mem_cons, List.not_mem_nil, or_false, iha, ihb,
      Check.result.injEq, reduceCtorEq, false_or]
    tauto

theorem divisor_mem_checks : .divisor a b ∈ f.checks ↔ div a b ∈ f.parts := by
  induction f with
  | number x => simp [checks, parts]
  | neg a ih => simp [checks, parts, ih]
  | add a b iha ihb | sub a b iha ihb | mul a b iha ihb =>
    simp [checks, parts, iha, ihb]
  | div a b iha ihb =>
    simp only [checks, parts, List.mem_append, List.mem_cons, List.not_mem_nil, or_false, iha, ihb,
      Check.divisor.injEq, div.injEq, reduceCtorEq]
    tauto

/-- Every check is about a part. -/
theorem part_mem_parts (h : c ∈ f.checks) : c.part ∈ f.parts := by
  cases c with
  | divisor a b => exact divisor_mem_checks.mp h
  | result g => exact result_mem_checks.mp h

theorem passes_iff : (∀ c ∈ f.checks, c.Passes) ↔
    (∀ a b, div a b ∈ f.parts → (b.plainValue == 0) = false) ∧
      ∀ g ∈ f.parts, g.plainValue.isFinite := by
  constructor
  · intro h
    exact ⟨fun a b hab => h _ (divisor_mem_checks.mpr hab),
      fun g hg => h _ (result_mem_checks.mpr hg)⟩
  · rintro ⟨hdivisors, hresults⟩ c hc
    cases c with
    | divisor a b => exact hdivisors a b (divisor_mem_checks.mp hc)
    | result g => exact hresults g (result_mem_checks.mp hc)

/-- A factor has a value if and only if no part of it divides by a zero and all parts are finite by
plain arithmetic, which then gives the value. A failure is that of the first check that does not
pass, in the order of visits. It quotes the part that is looked at: a division whose divisor has a
value, which is zero, or a part whose operands all have values and whose own value is not finite. -/
theorem value_blames_first (f : Factor) :
    (∀ v, f.value = .ok v ↔ ((∀ a b, div a b ∈ f.parts → (b.plainValue == 0) = false) ∧
      ∀ g ∈ f.parts, g.plainValue.isFinite) ∧ f.plainValue = v) ∧
    ∀ e, f.value = .error e → ∃ before c after, f.checks = before ++ c :: after ∧
      (∀ d ∈ before, d.Passes) ∧ c.part ∈ f.parts ∧ c.Fails e := by
  refine ⟨fun v => ?_, fun e h => ?_⟩
  · rw [value_eq_ok_iff_checks, passes_iff]
  · obtain ⟨before, c, after, hchecks, hbefore, hc⟩ := firstFails_of_value h
    have hmem : c ∈ f.checks := hchecks ▸ List.mem_append_right _ List.mem_cons_self
    exact ⟨before, c, after, hchecks, hbefore, part_mem_parts hmem, hc⟩

/-- A product that overflows, above a difference that is zero: the division is blamed. -/
theorem value_blames_first_of_two_faults :
    let f := div (mul (number 1e200) (number 1e200)) (sub (number 2) (number 2))
    f.value = .error (.divisionByZero f.text) ∧
      ∃ before c after, f.checks = before ++ c :: after ∧ (∀ d ∈ before, d.Passes) ∧
        c.part ∈ f.parts ∧ c.Fails (.divisionByZero f.text) := by
  intro f
  have hvalue : f.value = .error (.divisionByZero f.text) := by decide +kernel
  exact ⟨hvalue, (value_blames_first f).2 _ hvalue⟩

end Factor

end DesignLoads
