import DesignLoads.Proofs.FirstOccurrences
import DesignLoads.Proofs.Rulebook.Recomputation

/-! Properties of alternatives that no operation can take away. If numbers, multiples and sums have
such a property, and so has every name that stands for itself, then all that a rule stands for has
it. -/

namespace DesignLoads

namespace Alternative

/-- A property that numbers have, and that multiples and sums of alternatives with it have too. -/
structure Stable (P : Alternative → Prop) : Prop where
  scalar : ∀ x, P (scalar x)
  scaled : ∀ a k, P a → P (a.scaled k)
  merged : ∀ a b, P a → P b → P (a.merged b)

variable {P Q R : Alternative → Prop} {limit : Option Nat} {as bs cs : List Alternative}

theorem forall_product {a b p : Alternative} (ha : P a) (hb : Q b)
    (hleft : ∀ a b, P a → Q b → a.isScalar → R (b.scaled a.constant))
    (hright : ∀ a b, P a → Q b → b.isScalar → R (a.scaled b.constant))
    (h : a.product? b = some p) : R p := by
  unfold product? at h
  split at h
  · rename_i hs
    cases h
    exact hleft a b ha hb hs
  · split at h
    · rename_i hs
      cases h
      exact hright a b ha hb hs
    · cases h

theorem mem_of_pairs {α : Type} {as bs : List α} {x : α × α} (h : x ∈ pairs as bs) :
    x.1 ∈ as ∧ x.2 ∈ bs := by
  obtain ⟨a, ha, hx⟩ := List.mem_flatMap.mp h
  obtain ⟨b, hb, rfl⟩ := List.mem_map.mp hx
  exact ⟨ha, hb⟩

theorem forall_sums (ha : ∀ a ∈ as, P a) (hb : ∀ b ∈ bs, Q b)
    (hmerged : ∀ a b, P a → Q b → R (a.merged b)) (h : sums limit as bs = .ok cs) :
    ∀ c ∈ cs, R c := by
  obtain ⟨_, _, h⟩ := bind_eq_ok_iff.mp h
  cases h
  intro c hc
  obtain ⟨x, hx, rfl⟩ := List.mem_map.mp hc
  obtain ⟨hleft, hright⟩ := mem_of_pairs hx
  exact hmerged _ _ (ha _ hleft) (hb _ hright)

theorem forall_products {rule : String} (ha : ∀ a ∈ as, P a) (hb : ∀ b ∈ bs, Q b)
    (hproduct : ∀ a b p, P a → Q b → a.product? b = some p → R p)
    (h : products limit rule as bs = .ok cs) : ∀ c ∈ cs, R c := by
  obtain ⟨_, _, h⟩ := bind_eq_ok_iff.mp h
  intro c hc
  have hmem : Except.ok c ∈ (pairs as bs).map _ := mapM_eq_ok_iff.mp h ▸ List.mem_map_of_mem hc
  obtain ⟨x, hx, hprod⟩ := List.mem_map.mp hmem
  obtain ⟨hleft, hright⟩ := mem_of_pairs hx
  dsimp only at hprod
  split at hprod
  · rename_i p hp
    cases hprod
    exact hproduct _ _ _ (ha _ hleft) (hb _ hright) hp
  · cases hprod

theorem forall_zips (ha : ∀ a ∈ as, P a) (hb : ∀ b ∈ bs, Q b)
    (hmerged : ∀ a b, P a → Q b → R (a.merged b)) (h : zips as bs = .ok cs) : ∀ c ∈ cs, R c := by
  intro c hc
  obtain ⟨_, rfl⟩ | ⟨_, a, rfl, rfl⟩ | ⟨_, _, b, rfl, rfl⟩ := zips_cases h
  · rw [← List.map_uncurry_zip_eq_zipWith] at hc
    obtain ⟨x, hx, rfl⟩ := List.mem_map.mp hc
    obtain ⟨hleft, hright⟩ := List.of_mem_zip hx
    exact hmerged _ _ (ha _ hleft) (hb _ hright)
  · obtain ⟨b, hb', rfl⟩ := List.mem_map.mp hc
    exact hmerged _ _ (ha _ List.mem_cons_self) (hb b hb')
  · obtain ⟨a, ha', rfl⟩ := List.mem_map.mp hc
    exact hmerged _ _ (ha a ha') (hb _ List.mem_cons_self)

theorem Stable.product (hP : Stable P) {a b p : Alternative} (ha : P a) (hb : P b)
    (h : a.product? b = some p) : P p :=
  forall_product ha hb (fun _ b _ hb _ => hP.scaled b _ hb) (fun a _ ha _ _ => hP.scaled a _ ha) h

theorem forall_choices (ha : ∀ a ∈ as, P a) (hb : ∀ b ∈ bs, P b)
    (h : choices limit as bs = .ok cs) : ∀ c ∈ cs, P c := by
  obtain ⟨_, _, h⟩ := bind_eq_ok_iff.mp h
  cases h
  intro c hc
  obtain hc | hc := List.mem_append.mp hc
  · exact ha c hc
  · exact hb c hc

end Alternative

namespace Formula

variable {P : Alternative → Prop} {env : Surroundings (Except Failure)}

theorem combine_forall (hP : Alternative.Stable P) {f : Formula} {limit : Option Nat}
    {rule : String} {as bs cs : List Alternative} (ha : ∀ a ∈ as, P a) (hb : ∀ b ∈ bs, P b)
    (h : f.combine limit rule as bs = .ok cs) : ∀ c ∈ cs, P c := by
  cases f with
  | sum => exact Alternative.forall_sums ha hb hP.merged h
  | product => exact Alternative.forall_products ha hb (fun _ _ _ => hP.product) h
  | zip => exact Alternative.forall_zips ha hb hP.merged h
  | choice => exact Alternative.forall_choices ha hb h
  | _ =>
    cases h
    simp

theorem expandNames_forall {names : List String} {before as : List Alternative}
    (hbefore : ∀ a ∈ before, P a)
    (hrefer : ∀ n ∈ names, ∀ bs, env.refer n = .ok bs → ∀ b ∈ bs, P b)
    (h : expandNames env before names = .ok as) : ∀ a ∈ as, P a := by
  induction names generalizing before with
  | nil =>
    cases h
    exact hbefore
  | cons n ns ih =>
    obtain ⟨next, hn, h⟩ := bind_eq_ok_iff.mp h
    obtain ⟨all, hall, h⟩ := bind_eq_ok_iff.mp h
    rw [liftExcept_eq_self] at hall
    have hnext := hrefer n List.mem_cons_self next hn
    exact ih (Alternative.forall_choices hbefore hnext hall)
      (fun m hm => hrefer m (List.mem_cons_of_mem n hm)) h

/-- What its names have, the formula has. -/
theorem expand_forall (hP : Alternative.Stable P) {f : Formula} {as : List Alternative}
    (hrefer : ∀ n ∈ f.names env.family, ∀ bs, env.refer n = .ok bs → ∀ b ∈ bs, P b)
    (h : f.expand env = .ok as) : ∀ a ∈ as, P a := by
  induction f using operand_induction generalizing as with
  | ref name => exact hrefer name (List.mem_singleton.mpr rfl) as h
  | family stem => exact expandNames_forall (by simp) hrefer h
  | number f =>
    obtain ⟨x, _, h⟩ := bind_eq_ok_iff.mp h
    cases h
    intro a ha
    rw [List.mem_singleton.mp ha]
    exact hP.scalar x
  | scale a f ih =>
    obtain ⟨x, _, h⟩ := bind_eq_ok_iff.mp h
    obtain ⟨bs, hb, h⟩ := bind_eq_ok_iff.mp h
    cases h
    intro c hc
    obtain ⟨b, hb', rfl⟩ := List.mem_map.mp hc
    exact hP.scaled b x (ih hrefer hb b hb')
  | neg a ih =>
    obtain ⟨bs, hb, h⟩ := bind_eq_ok_iff.mp h
    cases h
    intro c hc
    obtain ⟨b, hb', rfl⟩ := List.mem_map.mp hc
    exact hP.scaled b (-1) (ih hrefer hb b hb')
  | binary f a b hab iha ihb =>
    rw [names_of_operands _ hab] at hrefer
    rw [expand_of_operands _ hab] at h
    obtain ⟨bs, hb, h⟩ := bind_eq_ok_iff.mp h
    obtain ⟨cs, hc, h⟩ := bind_eq_ok_iff.mp h
    rw [liftExcept_eq_self] at h
    have hleft := iha (fun n hn => hrefer n (List.mem_append_left _ hn)) hb
    have hright := ihb (fun n hn => hrefer n (List.mem_append_right _ hn)) hc
    exact combine_forall hP hleft hright h

end Formula

namespace Rulebook

variable {book : Rulebook} {stack : List String} {name : String} {P : Alternative → Prop}

/-- A name that a rule asks for stands in its formula, or is a rule of a family. -/
theorem mem_refs_of_none {f : Formula} (hn : name ∈ f.names book.extending)
    (hr : book.rule? name = none) : name ∈ f.refs := by
  obtain h | ⟨stem, _, h⟩ := Formula.mem_names_iff.mp hn
  · exact h
  · have hrule := (mem_extending_iff.mp h).1
    rw [isRule_eq, hr] at hrule
    cases hrule

/-- What every name without a rule has, that stands in the formula of a rule which is reached, the
alternatives have. -/
theorem recompute_forall (hP : Alternative.Stable P)
    (hatomic : ∀ r rule, book.Reaches name r → book.rule? r = some rule →
      ∀ n ∈ rule.formula.refs, book.rule? n = none → P (.atomic n))
    (hname : book.rule? name = none → P (.atomic name)) {as : List Alternative}
    (h : book.recompute stack name = .ok as) : ∀ a ∈ as, P a := by
  induction stack, name using recompute.induct book generalizing as with
  | case1 stack name hr =>
    rw [recompute_of_none hr] at h
    cases h
    intro a ha
    rw [List.mem_singleton.mp ha]
    exact hname hr
  | case2 stack name rule hr hs =>
    rw [recompute_of_mem hr hs] at h
    cases h
  | case3 stack name rule hr hs ih =>
    rw [recompute_of_not_mem hr hs] at h
    cases he : rule.formula.expand (book.surroundings name (book.recompute (name :: stack))) with
    | error e =>
      rw [he] at h
      cases h
    | ok bs =>
      rw [he] at h
      cases h
      have hall : ∀ b ∈ bs, P b := by
        refine Formula.expand_forall hP (fun n hn cs hc => ih n ?_ ?_ hc) he
        · intro r below hreach hbelow
          have hrule : book.isRule r := isRule_iff.mpr ⟨below, hbelow⟩
          exact hatomic r below (hreach.head_of_mem hr hn hrule) hbelow
        · intro hnone
          exact hatomic name rule Relation.ReflTransGen.refl hr n (mem_refs_of_none hn hnone) hnone
      intro a ha
      exact hall a (mem_distinct.mp ha)

end Rulebook

end DesignLoads
