import DesignLoads.Formula.Expansion
import DesignLoads.Proofs.Outcomes

/-! The names that the expansion of a formula asks for, and what the expansion owes to the answers:
equal answers give equal expansions, and every name of a formula that can be expanded has been
answered. -/

namespace DesignLoads

namespace Formula

def refs : Formula → List String
  | ref name => [name]
  | family _ | number _ => []
  | scale a _ | neg a => a.refs
  | sum a b | product a b | zip a b | choice a b => a.refs ++ b.refs

def stems : Formula → List String
  | family stem => [stem]
  | ref _ | number _ => []
  | scale a _ | neg a => a.stems
  | sum a b | product a b | zip a b | choice a b => a.stems ++ b.stems

/-- The names that an expansion asks for, in its order, when `members` lists a family. -/
def names (members : String → List String) : Formula → List String
  | ref name => [name]
  | family stem => members stem
  | number _ => []
  | scale a _ | neg a => a.names members
  | sum a b | product a b | zip a b | choice a b => a.names members ++ b.names members

def operands : Formula → Option (Formula × Formula)
  | sum a b | product a b | zip a b | choice a b => some (a, b)
  | _ => none

/-- What a formula with two operands makes of their alternatives. -/
def combine (limit : Option Nat) (rule : String) :
    Formula → List Alternative → List Alternative → Except Failure (List Alternative)
  | sum .. => Alternative.sums limit
  | product .. => Alternative.products limit rule
  | zip .. => Alternative.zips
  | choice .. => Alternative.choices limit
  | _ => fun _ _ => .ok []

/-- Induction on formulas. The operators with two operands differ in how they combine alternatives
only. -/
theorem operand_induction {P : Formula → Prop} (ref : ∀ name, P (ref name))
    (family : ∀ stem, P (family stem)) (number : ∀ f, P (number f))
    (scale : ∀ a f, P a → P (scale a f)) (neg : ∀ a, P a → P (neg a))
    (binary : ∀ f a b, f.operands = some (a, b) → P a → P b → P f) (f : Formula) : P f := by
  induction f with
  | ref name => exact ref name
  | family stem => exact family stem
  | number f => exact number f
  | scale a f ih => exact scale a f ih
  | neg a ih => exact neg a ih
  | sum a b iha ihb | product a b iha ihb | zip a b iha ihb | choice a b iha ihb =>
    exact binary _ a b rfl iha ihb

theorem expand_of_operands {m : Type → Type} [Monad m] [MonadExceptOf Failure m]
    (env : Surroundings m) {f a b : Formula} (h : f.operands = some (a, b)) : f.expand env = (do
      let as ← a.expand env
      let bs ← b.expand env
      liftExcept (f.combine env.limit env.rule as bs)) := by
  cases f with
  | sum | product | zip | choice =>
    cases h
    rfl
  | _ => cases h

theorem names_of_operands (members : String → List String) {f a b : Formula}
    (h : f.operands = some (a, b)) : f.names members = a.names members ++ b.names members := by
  cases f with
  | sum | product | zip | choice =>
    cases h
    rfl
  | _ => cases h

theorem stems_of_operands {f a b : Formula} (h : f.operands = some (a, b)) :
    f.stems = a.stems ++ b.stems := by
  cases f with
  | sum | product | zip | choice =>
    cases h
    rfl
  | _ => cases h

theorem mem_names_iff {members : String → List String} {f : Formula} {name : String} :
    name ∈ f.names members ↔ name ∈ f.refs ∨ ∃ stem ∈ f.stems, name ∈ members stem := by
  induction f with
  | ref | family | number => simp [names, refs, stems]
  | scale a _ ih | neg a ih => simpa only [names, refs, stems] using ih
  | sum a b iha ihb | product a b iha ihb | zip a b iha ihb | choice a b iha ihb =>
    simp only [names, refs, stems, List.mem_append, iha, ihb]
    grind

end Formula

/-- A failure that one step of an expansion raises by itself, whatever the names in it stand for. -/
inductive StepFailure : Failure → Prop where
  | divisionByZero (e : String) : StepFailure (.divisionByZero e)
  | nonFiniteFactor (e : String) : StepFailure (.nonFiniteFactor e)
  | incompatibleZip (l r : Nat) : StepFailure (.incompatibleZip l r)
  | nonLinearProduct (rule : String) : StepFailure (.nonLinearProduct rule)
  | tooManyAlternatives (count limit : Nat) : StepFailure (.tooManyAlternatives count limit)

theorem StepFailure.ne_circular {e : Failure} (h : StepFailure e) (n : String)
    (path : List String) : e ≠ .circularReference n path := by
  rintro rfl
  cases h

namespace Factor

theorem finite_error {f : Factor} {x : Float} {e : Failure} (h : f.finite x = .error e) :
    StepFailure e := by
  unfold finite at h
  split at h
  · cases h
  · cases h
    exact .nonFiniteFactor _

theorem value_error {f : Factor} {e : Failure} (h : f.value = .error e) : StepFailure e := by
  induction f with
  | number x => exact finite_error h
  | neg a ih =>
    obtain h | ⟨x, _, h⟩ := bind_eq_error_iff.mp h
    · exact ih h
    · exact finite_error h
  | add a b iha ihb | sub a b iha ihb | mul a b iha ihb =>
    obtain h | ⟨x, _, h⟩ := bind_eq_error_iff.mp h
    · exact iha h
    obtain h | ⟨y, _, h⟩ := bind_eq_error_iff.mp h
    · exact ihb h
    · exact finite_error h
  | div a b iha ihb =>
    obtain h | ⟨y, _, h⟩ := bind_eq_error_iff.mp h
    · exact ihb h
    split at h
    · cases h
      exact .divisionByZero _
    obtain h | ⟨x, _, h⟩ := bind_eq_error_iff.mp h
    · exact iha h
    · exact finite_error h

end Factor

namespace Alternative

variable {limit : Option Nat} {as bs : List Alternative} {e : Failure}

theorem checkCount_error {count : Nat} (h : checkCount limit count = .error e) :
    StepFailure e := by
  unfold checkCount at h
  split at h
  · split at h
    · cases h
      exact .tooManyAlternatives _ _
    · cases h
  · cases h

theorem sums_error (h : sums limit as bs = .error e) : StepFailure e := by
  obtain h | ⟨_, _, h⟩ := bind_eq_error_iff.mp h
  · exact checkCount_error h
  · cases h

theorem choices_error (h : choices limit as bs = .error e) : StepFailure e := by
  obtain h | ⟨_, _, h⟩ := bind_eq_error_iff.mp h
  · exact checkCount_error h
  · cases h

theorem products_error {rule : String} (h : products limit rule as bs = .error e) :
    StepFailure e := by
  obtain h | ⟨_, _, h⟩ := bind_eq_error_iff.mp h
  · exact checkCount_error h
  obtain ⟨⟨a, b⟩, _, h⟩ := mapM_error h
  dsimp only at h
  split at h
  · cases h
  · cases h
    exact .nonLinearProduct _

/-- Products of which every one exists. -/
theorem products_eq {rule : String} {g : Alternative × Alternative → Alternative}
    (hcount : checkCount limit (as.length * bs.length) = .ok ())
    (h : ∀ p ∈ pairs as bs, p.1.product? p.2 = some (g p)) :
    products limit rule as bs = .ok ((pairs as bs).map g) := by
  rw [products, hcount]
  apply mapM_ok
  intro p hp
  dsimp only
  rw [h p hp]

/-- The ways in which two operands can be zipped. -/
theorem zips_cases {cs : List Alternative} (h : zips as bs = .ok cs) :
    (as.length = bs.length ∧ cs = as.zipWith merged bs) ∨
    (as.length ≠ bs.length ∧ ∃ a, as = [a] ∧ cs = bs.map a.merged) ∨
    (as.length ≠ bs.length ∧ as.length ≠ 1 ∧ ∃ b, bs = [b] ∧ cs = as.map (merged · b)) := by
  unfold zips at h
  split at h
  · rename_i heq
    cases h
    exact .inl ⟨heq, rfl⟩
  · rename_i hne
    right
    split at h
    · rename_i a
      cases h
      exact .inl ⟨hne, a, rfl, rfl⟩
    · rename_i b hmany
      cases h
      refine .inr ⟨hne, ?_, b, rfl, rfl⟩
      intro hone
      obtain ⟨a, rfl⟩ := List.length_eq_one_iff.mp hone
      exact hmany a rfl
    · cases h

/-- A zip fails by itself exactly if the numbers of its operands are different and neither is
one. -/
theorem zips_error_iff : zips as bs = .error e ↔
    (as.length ≠ bs.length ∧ as.length ≠ 1 ∧ bs.length ≠ 1) ∧
      e = .incompatibleZip as.length bs.length := by
  unfold zips
  split
  · rename_i heq
    exact iff_of_false nofun fun h => h.1.1 heq
  · rename_i hne
    split
    · exact iff_of_false nofun fun h => h.1.2.1 rfl
    · exact iff_of_false nofun fun h => h.1.2.2 rfl
    · rename_i hleft hright
      have hleft' : as.length ≠ 1 := by
        intro hone
        obtain ⟨a, rfl⟩ := List.length_eq_one_iff.mp hone
        exact hleft a rfl
      have hright' : bs.length ≠ 1 := by
        intro hone
        obtain ⟨b, rfl⟩ := List.length_eq_one_iff.mp hone
        exact hright b rfl
      rw [Except.error.injEq]
      exact ⟨fun h => ⟨⟨hne, hleft', hright'⟩, h.symm⟩, fun h => h.2.symm⟩

theorem zips_error (h : zips as bs = .error e) : StepFailure e := by
  obtain ⟨_, rfl⟩ := zips_error_iff.mp h
  exact .incompatibleZip _ _

end Alternative

namespace Formula

variable {env env' : Surroundings (Except Failure)}

theorem expandNames_congr (hl : env'.limit = env.limit) {names : List String}
    (h : ∀ n ∈ names, env'.refer n = env.refer n) (before : List Alternative) :
    expandNames env' before names = expandNames env before names := by
  induction names generalizing before with
  | nil => rfl
  | cons n ns ih =>
    simp only [expandNames, hl, h n List.mem_cons_self]
    simp only [ih fun m hm => h m (List.mem_cons_of_mem n hm)]

/-- Surroundings that agree on the names and the families of a formula expand it alike. -/
theorem expand_congr (hl : env'.limit = env.limit) (hr : env'.rule = env.rule) {f : Formula}
    (hf : ∀ stem ∈ f.stems, env'.family stem = env.family stem)
    (h : ∀ n ∈ f.names env.family, env'.refer n = env.refer n) :
    f.expand env' = f.expand env := by
  induction f using operand_induction with
  | ref name => exact h name (List.mem_singleton.mpr rfl)
  | family stem =>
    simp only [expand, hf stem (List.mem_singleton.mpr rfl)]
    exact expandNames_congr hl h []
  | number f => rfl
  | scale a f ih | neg a ih => simp only [expand, ih hf h]
  | binary f a b hab iha ihb =>
    rw [stems_of_operands hab] at hf
    rw [names_of_operands _ hab] at h
    have ha := iha (fun stem hs => hf stem (List.mem_append_left _ hs))
      fun n hn => h n (List.mem_append_left _ hn)
    have hb := ihb (fun stem hs => hf stem (List.mem_append_right _ hs))
      fun n hn => h n (List.mem_append_right _ hn)
    rw [expand_of_operands env' hab, expand_of_operands env hab, ha, hb, hl, hr]

/-- An operator goes by its right operand once the left one is known. -/
theorem expand_of_left {f a b : Formula} {as : List Alternative}
    {k : List Alternative → List Alternative} (hab : f.operands = some (a, b))
    (ha : a.expand env = .ok as)
    (hcombine : ∀ bs, b.expand env = .ok bs → f.combine env.limit env.rule as bs = .ok (k bs)) :
    f.expand env = (b.expand env).map k := by
  rw [expand_of_operands env hab, ha]
  cases hb : b.expand env with
  | error e => rfl
  | ok bs =>
    change liftExcept (f.combine env.limit env.rule as bs) = Except.ok (k bs)
    rw [liftExcept_eq_self, hcombine bs hb]

/-- An operator goes by its left operand once the right one is known. -/
theorem expand_of_right {f a b : Formula} {bs : List Alternative}
    {k : List Alternative → List Alternative} (hab : f.operands = some (a, b))
    (hb : b.expand env = .ok bs)
    (hcombine : ∀ as, a.expand env = .ok as → f.combine env.limit env.rule as bs = .ok (k as)) :
    f.expand env = (a.expand env).map k := by
  rw [expand_of_operands env hab, hb]
  cases ha : a.expand env with
  | error e => rfl
  | ok as =>
    change liftExcept (f.combine env.limit env.rule as bs) = Except.ok (k as)
    rw [liftExcept_eq_self, hcombine as ha]

theorem expandNames_refers {names : List String} {before as : List Alternative}
    (h : expandNames env before names = .ok as) : ∀ n ∈ names, ∃ bs, env.refer n = .ok bs := by
  induction names generalizing before with
  | nil => simp
  | cons n ns ih =>
    obtain ⟨bs, hn, h⟩ := bind_eq_ok_iff.mp h
    obtain ⟨all, _, h⟩ := bind_eq_ok_iff.mp h
    intro m hm
    obtain rfl | hm := List.mem_cons.mp hm
    · exact ⟨bs, hn⟩
    · exact ih h m hm

/-- Every operand is expanded, so a formula that can be expanded has an answer for each name. -/
theorem expand_refers {f : Formula} {as : List Alternative} (h : f.expand env = .ok as) :
    ∀ n ∈ f.names env.family, ∃ bs, env.refer n = .ok bs := by
  induction f generalizing as with
  | ref name =>
    intro n hn
    obtain rfl := List.mem_singleton.mp hn
    exact ⟨as, h⟩
  | family stem => exact expandNames_refers h
  | number f => simp [names]
  | scale a f ih =>
    obtain ⟨_, _, h⟩ := bind_eq_ok_iff.mp h
    obtain ⟨_, ha, _⟩ := bind_eq_ok_iff.mp h
    exact ih ha
  | neg a ih =>
    obtain ⟨_, ha, _⟩ := bind_eq_ok_iff.mp h
    exact ih ha
  | sum a b iha ihb | product a b iha ihb | zip a b iha ihb | choice a b iha ihb =>
    obtain ⟨_, ha, h⟩ := bind_eq_ok_iff.mp h
    obtain ⟨_, hb, _⟩ := bind_eq_ok_iff.mp h
    intro n hn
    obtain hn | hn := List.mem_append.mp hn
    · exact iha ha n hn
    · exact ihb hb n hn

theorem expandNames_error {names : List String} {before : List Alternative} {e : Failure}
    (h : expandNames env before names = .error e) :
    StepFailure e ∨ ∃ n ∈ names, env.refer n = .error e := by
  induction names generalizing before with
  | nil => cases h
  | cons n ns ih =>
    obtain h | ⟨_, _, h⟩ := bind_eq_error_iff.mp h
    · exact .inr ⟨n, List.mem_cons_self, h⟩
    obtain h | ⟨_, _, h⟩ := bind_eq_error_iff.mp h
    · rw [liftExcept_eq_self] at h
      exact .inl (Alternative.choices_error h)
    · refine (ih h).imp_right ?_
      rintro ⟨m, hm, he⟩
      exact ⟨m, List.mem_cons_of_mem n hm, he⟩

theorem combine_error {f : Formula} {limit : Option Nat} {rule : String} {as bs : List Alternative}
    {e : Failure} (h : f.combine limit rule as bs = .error e) : StepFailure e := by
  cases f with
  | sum => exact Alternative.sums_error h
  | product => exact Alternative.products_error h
  | zip => exact Alternative.zips_error h
  | choice => exact Alternative.choices_error h
  | _ => cases h

/-- A formula that cannot be expanded fails by itself, or because one of its names does. -/
theorem expand_error {f : Formula} {e : Failure} (h : f.expand env = .error e) :
    StepFailure e ∨ ∃ n ∈ f.names env.family, env.refer n = .error e := by
  induction f using operand_induction with
  | ref name => exact .inr ⟨name, List.mem_singleton.mpr rfl, h⟩
  | family stem => exact expandNames_error h
  | number f =>
    obtain h | ⟨_, _, h⟩ := bind_eq_error_iff.mp h
    · rw [liftExcept_eq_self] at h
      exact .inl (Factor.value_error h)
    · cases h
  | scale a f ih =>
    obtain h | ⟨_, _, h⟩ := bind_eq_error_iff.mp h
    · rw [liftExcept_eq_self] at h
      exact .inl (Factor.value_error h)
    obtain h | ⟨_, _, h⟩ := bind_eq_error_iff.mp h
    · exact ih h
    · cases h
  | neg a ih =>
    obtain h | ⟨_, _, h⟩ := bind_eq_error_iff.mp h
    · exact ih h
    · cases h
  | binary f a b hab iha ihb =>
    -- an operator fails in its left operand, in its right one, or by itself
    rw [expand_of_operands env hab] at h
    rw [names_of_operands _ hab]
    obtain h | ⟨as, _, h⟩ := bind_eq_error_iff.mp h
    · refine (iha h).imp_right ?_
      rintro ⟨n, hn, he⟩
      exact ⟨n, List.mem_append_left _ hn, he⟩
    obtain h | ⟨bs, _, h⟩ := bind_eq_error_iff.mp h
    · refine (ihb h).imp_right ?_
      rintro ⟨n, hn, he⟩
      exact ⟨n, List.mem_append_right _ hn, he⟩
    · rw [liftExcept_eq_self] at h
      exact .inl (combine_error h)

end Formula

end DesignLoads
