import DesignLoads.Proofs.Formula.Places
import DesignLoads.Proofs.Rulebook.Inlining
import DesignLoads.Proofs.Rulebook.Postconditions

/-! The limit on the number of alternatives. A run under a limit goes the way of the run without
one, up to the first list that is too long; and only sums, products, choices and families have to be
counted, for all other lists are no longer than a list that has been counted before them. -/

namespace DesignLoads

/-- What a limit makes of a result: it stays the same, or there are too many alternatives. -/
inductive CutOff (limit : Nat) {α : Type} (x : Except Failure α) : Except Failure α → Prop where
  | same : CutOff limit x x
  | tooMany {count : Nat} (h : limit < count) :
      CutOff limit x (.error (.tooManyAlternatives count limit))

namespace CutOff

variable {limit : Nat} {α β : Type} {x y : Except Failure α}

theorem bind (h : CutOff limit x y) {f g : α → Except Failure β}
    (hfg : ∀ a, CutOff limit (f a) (g a)) : CutOff limit (x >>= f) (y >>= g) := by
  cases h with
  | same =>
    cases x with
    | ok a => exact hfg a
    | error e => exact .same
  | tooMany h => exact .tooMany h

theorem map (h : CutOff limit x y) (f : α → β) : CutOff limit (x.map f) (y.map f) := by
  cases h with
  | same => exact .same
  | tooMany h => exact .tooMany h

theorem checkCount (limit count : Nat) :
    CutOff limit (Alternative.checkCount none count)
      (Alternative.checkCount (some limit) count) := by
  unfold Alternative.checkCount
  by_cases h : limit < count
  · simp only [if_pos h]
    exact .tooMany h
  · simp only [if_neg h]
    exact .same

end CutOff

namespace Alternative

variable {limit : Nat} {as bs cs : List Alternative} {rule : String}

theorem checkCount_of_le {count : Nat} (h : count ≤ limit) :
    checkCount (some limit) count = .ok () :=
  if_neg (Nat.not_lt.mpr h)

theorem le_of_checkCount {count : Nat} {u : Unit} (h : checkCount (some limit) count = .ok u) :
    count ≤ limit := by
  unfold checkCount at h
  dsimp only at h
  split at h
  · cases h
  · omega

theorem loadCases_ok (h : ∀ a ∈ as, (a.constant == 0) = true) :
    loadCases rule as = .ok (LoadCase.canonical (as.map (·.case))) := by
  have hmap : as.mapM (fun a => if a.constant == 0 then .ok a.case
      else .error (Failure.constantTerm rule a.constant)) = Except.ok (as.map (·.case)) :=
    mapM_ok fun a ha => if_pos (h a ha)
  exact bind_eq_ok_iff.mpr ⟨_, hmap, rfl⟩

theorem sums_within (h : sums none as bs = .ok cs) (hlen : cs.length ≤ limit) :
    sums (some limit) as bs = .ok cs := by
  rw [(length_sums h).2] at hlen
  rw [sums, checkCount_of_le hlen]
  exact h

theorem products_within (h : products none rule as bs = .ok cs) (hlen : cs.length ≤ limit) :
    products (some limit) rule as bs = .ok cs := by
  rw [(length_products h).2] at hlen
  rw [products, checkCount_of_le hlen]
  exact h

theorem choices_within (h : choices none as bs = .ok cs) (hlen : cs.length ≤ limit) :
    choices (some limit) as bs = .ok cs := by
  rw [(length_choices h).2] at hlen
  rw [choices, checkCount_of_le hlen]
  exact h

/-- A zip does not count, and has the length of one of its operands. -/
theorem length_zips (h : zips as bs = .ok cs) :
    cs.length = as.length ∨ cs.length = bs.length := by
  obtain ⟨heq, rfl⟩ | ⟨_, a, _, rfl⟩ | ⟨_, _, b, _, rfl⟩ := zips_cases h
  · left
    rw [List.length_zipWith, heq, Nat.min_self]
  · exact .inr (List.length_map _)
  · exact .inl (List.length_map _)

theorem length_distinct_le (as : List Alternative) : (distinct as).length ≤ as.length :=
  (distinct_sublist as).length_le

end Alternative

namespace Formula

/-- The parts of a formula that are expanded with it, and the formula itself. -/
def parts : Formula → List Formula
  | ref name => [ref name]
  | family stem => [family stem]
  | number f => [number f]
  | scale a f => scale a f :: a.parts
  | neg a => neg a :: a.parts
  | sum a b => sum a b :: (a.parts ++ b.parts)
  | product a b => product a b :: (a.parts ++ b.parts)
  | zip a b => zip a b :: (a.parts ++ b.parts)
  | choice a b => choice a b :: (a.parts ++ b.parts)

theorem self_mem_parts (f : Formula) : f ∈ f.parts := by
  cases f <;> exact List.mem_cons_self

theorem parts_of_operands {f a b : Formula} (h : f.operands = some (a, b)) :
    f.parts = f :: (a.parts ++ b.parts) := by
  cases f with
  | sum | product | zip | choice =>
    cases h
    rfl
  | _ => cases h

section Combine

variable {limit : Nat} {rule : String} {as bs cs : List Alternative}

/-- An operator that counts does so before anything else. -/
theorem combine_cutOff (f : Formula) (as bs : List Alternative) :
    CutOff limit (f.combine none rule as bs) (f.combine (some limit) rule as bs) := by
  cases f with
  | sum | product | choice => exact (CutOff.checkCount limit _).bind fun _ => .same
  | _ => exact .same

theorem combine_within {f : Formula} (h : f.combine none rule as bs = .ok cs)
    (hlen : cs.length ≤ limit) : f.combine (some limit) rule as bs = .ok cs := by
  cases f with
  | sum => exact Alternative.sums_within h hlen
  | product => exact Alternative.products_within h hlen
  | choice => exact Alternative.choices_within h hlen
  | _ => exact h

theorem length_combine_le {f : Formula} (h : f.combine (some limit) rule as bs = .ok cs)
    (ha : as.length ≤ limit) (hb : bs.length ≤ limit) : cs.length ≤ limit := by
  cases f with
  | sum => exact Alternative.le_of_checkCount (Alternative.length_sums h).1
  | product => exact Alternative.le_of_checkCount (Alternative.length_products h).1
  | choice => exact Alternative.le_of_checkCount (Alternative.length_choices h).1
  | zip =>
    -- a zip does not count, but has the length of one of its operands
    obtain hlen | hlen := Alternative.length_zips h <;> omega
  | _ =>
    cases h
    exact Nat.zero_le _

end Combine

section Cut

variable {limit : Nat} {rule : String} {family : String → List String}
  {refer refer' : String → Except Failure (List Alternative)}

theorem expandNames_cutOff {names : List String}
    (h : ∀ n ∈ names, CutOff limit (refer n) (refer' n)) (before : List Alternative) :
    CutOff limit (expandNames ⟨none, rule, family, refer⟩ before names)
      (expandNames ⟨some limit, rule, family, refer'⟩ before names) := by
  induction names generalizing before with
  | nil => exact .same
  | cons n ns ih =>
    apply (h n List.mem_cons_self).bind
    intro next
    have hchoice : CutOff limit (Alternative.choices none before next)
        (Alternative.choices (some limit) before next) :=
      (CutOff.checkCount limit _).bind fun _ => .same
    rw [liftExcept_eq_self, liftExcept_eq_self]
    apply hchoice.bind
    intro all
    exact ih (fun m hm => h m (List.mem_cons_of_mem n hm)) all

/-- Where a limit only cuts off what names stand for, it only cuts off the expansion. The checks
come at fixed places, so that no other failure can be seen before one that would have been first. -/
theorem expand_cutOff {f : Formula} (h : ∀ n ∈ f.names family, CutOff limit (refer n) (refer' n)) :
    CutOff limit (f.expand ⟨none, rule, family, refer⟩)
      (f.expand ⟨some limit, rule, family, refer'⟩) := by
  induction f using operand_induction with
  | ref name => exact h name (List.mem_singleton.mpr rfl)
  | family stem => exact expandNames_cutOff h []
  | number f => exact .same
  | scale a f ih => exact CutOff.same.bind fun x => (ih h).bind fun as => .same
  | neg a ih => exact (ih h).bind fun as => .same
  | binary f a b hab iha ihb =>
    rw [names_of_operands family hab] at h
    rw [expand_of_operands _ hab, expand_of_operands _ hab]
    apply (iha fun n hn => h n (List.mem_append_left _ hn)).bind
    intro as
    apply (ihb fun n hn => h n (List.mem_append_right _ hn)).bind
    intro bs
    rw [liftExcept_eq_self, liftExcept_eq_self]
    exact combine_cutOff f as bs

/-- The alternatives of a family are counted as they are collected, so its last count is the
greatest. -/
theorem expandNames_within {names : List String} {before as : List Alternative}
    (hrefer : ∀ n ∈ names, ∀ bs, refer n = .ok bs → refer' n = .ok bs)
    (h : expandNames ⟨none, rule, family, refer⟩ before names = .ok as) (hlen : as.length ≤ limit) :
    before.length ≤ limit ∧
      expandNames ⟨some limit, rule, family, refer'⟩ before names = .ok as := by
  induction names generalizing before with
  | nil =>
    cases h
    exact ⟨hlen, rfl⟩
  | cons n ns ih =>
    obtain ⟨next, hn, h⟩ := bind_eq_ok_iff.mp h
    obtain ⟨all, hall, h⟩ := bind_eq_ok_iff.mp h
    rw [liftExcept_eq_self] at hall
    cases hall
    obtain ⟨hle, hrest⟩ := ih (fun m hm => hrefer m (List.mem_cons_of_mem n hm)) h
    have hcount : before.length + next.length ≤ limit := by
      rwa [List.length_append] at hle
    refine ⟨by omega, ?_⟩
    have hchoice : liftExcept (Alternative.choices (some limit) before next) =
        (.ok (before ++ next) : Except Failure (List Alternative)) := by
      rw [liftExcept_eq_self, Alternative.choices, Alternative.checkCount_of_le hcount]
      rfl
    have hsome := hrefer n List.mem_cons_self next hn
    exact bind_eq_ok_iff.mpr ⟨next, hsome, bind_eq_ok_iff.mpr ⟨_, hchoice, hrest⟩⟩

/-- If no part of a formula has more alternatives than the limit, the limit is not met. -/
theorem expand_within {f : Formula} {as : List Alternative}
    (hrefer : ∀ n ∈ f.names family, ∀ bs, refer n = .ok bs → refer' n = .ok bs)
    (hparts : ∀ g ∈ f.parts, ∀ bs, g.expand ⟨none, rule, family, refer⟩ = .ok bs →
      bs.length ≤ limit)
    (h : f.expand ⟨none, rule, family, refer⟩ = .ok as) :
    f.expand ⟨some limit, rule, family, refer'⟩ = .ok as := by
  have hlen : as.length ≤ limit := hparts f f.self_mem_parts as h
  induction f using operand_induction generalizing as with
  | ref name => exact hrefer name (List.mem_singleton.mpr rfl) as h
  | family stem => exact (expandNames_within hrefer h hlen).2
  | number f => exact h
  | scale a f ih =>
    obtain ⟨x, hx, h⟩ := bind_eq_ok_iff.mp h
    obtain ⟨bs, hb, h⟩ := bind_eq_ok_iff.mp h
    have hinner := fun g hg => hparts g (List.mem_cons_of_mem _ hg)
    have ha := ih hrefer hinner hb (hinner a a.self_mem_parts bs hb)
    exact bind_eq_ok_iff.mpr ⟨x, hx, bind_eq_ok_iff.mpr ⟨bs, ha, h⟩⟩
  | neg a ih =>
    obtain ⟨bs, hb, h⟩ := bind_eq_ok_iff.mp h
    have hinner := fun g hg => hparts g (List.mem_cons_of_mem _ hg)
    have ha := ih hrefer hinner hb (hinner a a.self_mem_parts bs hb)
    exact bind_eq_ok_iff.mpr ⟨bs, ha, h⟩
  | binary f a b hab iha ihb =>
    rw [names_of_operands family hab] at hrefer
    rw [parts_of_operands hab] at hparts
    rw [expand_of_operands _ hab] at h ⊢
    obtain ⟨bs, hb, h⟩ := bind_eq_ok_iff.mp h
    obtain ⟨cs, hc, h⟩ := bind_eq_ok_iff.mp h
    have hleft := fun g hg => hparts g (List.mem_cons_of_mem _ (List.mem_append_left _ hg))
    have hright := fun g hg => hparts g (List.mem_cons_of_mem _ (List.mem_append_right _ hg))
    have ha := iha (fun n hn => hrefer n (List.mem_append_left _ hn)) hleft hb
      (hleft a a.self_mem_parts bs hb)
    have hb := ihb (fun n hn => hrefer n (List.mem_append_right _ hn)) hright hc
      (hright b b.self_mem_parts cs hc)
    rw [liftExcept_eq_self] at h
    refine bind_eq_ok_iff.mpr ⟨bs, ha, bind_eq_ok_iff.mpr ⟨cs, hb, ?_⟩⟩
    rw [liftExcept_eq_self]
    exact combine_within h hlen

end Cut

end Formula

/-- No list that is kept has more alternatives than the limit. -/
def Progress.Bounded (limit : Nat) (p : Progress) : Prop :=
  ∀ n as, p.known? n = some as → as.length ≤ limit

/-- The query keeps to the limit, with its answer and with what it adds to the progress. -/
def Query.Bounded (limit : Nat) (q : Query (List Alternative)) : Prop :=
  Ensures (Progress.Bounded limit) q (fun as p => as.length ≤ limit ∧ p.Bounded limit)
    (Progress.Bounded limit)

open Query

namespace Formula

variable {limit : Nat} {rule : String} {family : String → List String}
  {refer : String → Query (List Alternative)}

theorem expandNames_bounded (h : ∀ n, Query.Bounded limit (refer n)) (names : List String)
    {before : List Alternative} (hbefore : before.length ≤ limit) :
    Query.Bounded limit (expandNames ⟨some limit, rule, family, refer⟩ before names) := by
  induction names generalizing before with
  | nil => exact ensures_pure fun p hp => ⟨hbefore, hp⟩
  | cons n ns ih =>
    apply (h n).bind
    intro next
    have hchoice : Ensures (fun p => next.length ≤ limit ∧ p.Bounded limit)
        (liftExcept (Alternative.choices (some limit) before next))
        (fun all p => all.length ≤ limit ∧ p.Bounded limit) (Progress.Bounded limit) := by
      refine ensures_liftExcept (fun all hall p hp => ?_) fun p hp => hp.2
      exact ⟨Alternative.le_of_checkCount (Alternative.length_choices hall).1, hp.2⟩
    apply hchoice.bind
    intro all p hp
    exact ih hp.1 p hp.2

/-- Under a limit of one or more, no expansion gives more alternatives than the limit, if no name
does. -/
theorem expand_bounded (hlimit : 1 ≤ limit) (h : ∀ n, Query.Bounded limit (refer n))
    (f : Formula) : Query.Bounded limit (f.expand ⟨some limit, rule, family, refer⟩) := by
  induction f using operand_induction with
  | ref name => exact h name
  | family stem => exact expandNames_bounded h _ (Nat.zero_le _)
  | number f =>
    apply Ensures.bind (ensures_liftExcept (fun x _ p hp => hp) fun p hp => hp)
    intro x
    exact ensures_pure fun p hp => ⟨hlimit, hp⟩
  | scale a f ih =>
    apply Ensures.bind (ensures_liftExcept (fun x _ p hp => hp) fun p hp => hp)
    intro x
    apply ih.bind
    intro as
    exact ensures_pure fun p hp => ⟨(List.length_map _).trans_le hp.1, hp.2⟩
  | neg a ih =>
    apply ih.bind
    intro as
    exact ensures_pure fun p hp => ⟨(List.length_map _).trans_le hp.1, hp.2⟩
  | binary f a b hab iha ihb =>
    rw [expand_of_operands _ hab]
    apply iha.bind
    intro as p hp
    -- the bound on the left operand is kept while the right one is expanded
    have hright : Ensures (Progress.Bounded limit)
        (b.expand ⟨some limit, rule, family, refer⟩ >>= fun bs =>
          liftExcept (f.combine (some limit) rule as bs))
        (fun cs p => cs.length ≤ limit ∧ p.Bounded limit) (Progress.Bounded limit) := by
      apply ihb.bind
      intro bs
      refine ensures_liftExcept (fun cs hcs p hb => ?_) fun p hb => hb.2
      exact ⟨length_combine_le hcs hp.1 hb.1, hb.2⟩
    exact hright p hp.2

end Formula

namespace Rulebook

variable {book book' : Rulebook} {limit : Nat}

theorem resolveRule_bounded (hlimit : 1 ≤ limit)
    (hbook : book.settings.maxAlternatives = some limit)
    {refer : String → Query (List Alternative)} (h : ∀ n, Query.Bounded limit (refer n))
    (rule : Rule) : Query.Bounded limit (book.resolveRule refer rule) := by
  have hexpand : Query.Bounded limit
      (rule.formula.expand (book.surroundings rule.name refer)) := by
    rw [surroundings, hbook]
    exact Formula.expand_bounded hlimit h _
  intro p hp
  have henter : (p.enter rule.name).Bounded limit := by
    intro n as hn
    rw [Progress.known?_enter] at hn
    split at hn
    · cases hn
    · exact hp n as hn
  have hafter := hexpand (p.enter rule.name) henter
  cases he : (rule.formula.expand (book.surroundings rule.name refer)).ask (p.enter rule.name) with
  | mk r p' =>
    rw [he] at hafter
    cases r with
    | error e =>
      rw [ask_resolveRule_error he]
      intro n bs hn
      rw [Progress.known?_abandon] at hn
      split at hn
      · cases hn
      · exact hafter n bs hn
    | ok as =>
      rw [ask_resolveRule_ok he]
      have hlen : (Alternative.distinct as).length ≤ limit :=
        (Alternative.length_distinct_le as).trans hafter.1
      refine ⟨hlen, ?_⟩
      intro n bs hn
      rw [Progress.known?_finish] at hn
      split at hn
      · cases hn
        exact hlen
      · exact hafter.2 n bs hn

theorem alternativesWithin_bounded (hlimit : 1 ≤ limit)
    (hbook : book.settings.maxAlternatives = some limit) (fuel : Nat) (name : String) :
    Query.Bounded limit (book.alternativesWithin fuel name) := by
  induction fuel generalizing name with
  | zero => exact fun p hp => hp
  | succ fuel ih =>
    intro p hp
    rw [ask_alternativesWithin_succ]
    cases hslot : p.slots.get? name with
    | some slot =>
      cases slot with
      | resolving => exact hp
      | resolved as => exact ⟨hp name as (Progress.known?_eq_some_iff.mpr hslot), hp⟩
    | none =>
      cases book.rule? name with
      | some rule => exact resolveRule_bounded hlimit hbook ih rule p hp
      | none => exact ⟨hlimit, hp⟩

section Within

variable {rule : String} {f : Formula} {stack : List String} {as : List Alternative}

/-- An expansion has no more alternatives than the limit. -/
theorem length_expand_le (hlimit : 1 ≤ limit) (hbook : book.settings.maxAlternatives = some limit)
    (h : f.expand (book.surroundings rule (book.recompute stack)) = .ok as) :
    as.length ≤ limit := by
  -- ask for it in an empty session, where the bound holds at the start
  have hans : Answers (book.Sound [] .start) (book.expand rule f)
      (f.expand (book.surroundings rule (book.recompute []))) :=
    Formula.expand_answers fun n _ => alternatives_answers n
  have hfresh : ((book.expand rule f).ask .start).1 = .ok as :=
    (hans .start (Session.sound_of_start book)).1.trans (expand_of_clear h)
  have hall : Query.Bounded limit (book.expand rule f) := by
    rw [expand, surroundings, hbook]
    exact Formula.expand_bounded hlimit (alternativesWithin_bounded hlimit hbook _) f
  have hstart := hall .start (by intro m bs hm; cases hm)
  cases he : (book.expand rule f).ask .start with
  | mk r p =>
    rw [he] at hfresh hstart
    subst hfresh
    exact hstart.1

/-- The alternatives of a name are its expansion as a formula. -/
theorem length_recompute_le {name : String} (hlimit : 1 ≤ limit)
    (hbook : book.settings.maxAlternatives = some limit)
    (h : book.recompute stack name = .ok as) : as.length ≤ limit := by
  have hself : (Formula.ref name).expand (book.surroundings name (book.recompute stack)) =
      .ok as := h
  exact length_expand_le hlimit hbook hself

end Within

/-- With a limit of one or more, or none, the alternatives of a formula pass the check. -/
theorem checkCount_expand (hlimit : ∀ l, book.settings.maxAlternatives = some l → 1 ≤ l)
    {rule : String} {f : Formula} {stack : List String} {as : List Alternative}
    (h : f.expand (book.surroundings rule (book.recompute stack)) = .ok as) :
    Alternative.checkCount book.settings.maxAlternatives as.length = .ok () := by
  cases hbook : book.settings.maxAlternatives with
  | none => rfl
  | some l => exact Alternative.checkCount_of_le (length_expand_le (hlimit l hbook) hbook h)

/-- What is kept in sound progress is within the limit, as it is what a fresh resolution gives. -/
theorem Sound.bounded {first : Progress} {p : Progress}
    (h : book.Sound [] first p) (hlimit : 1 ≤ limit)
    (hbook : book.settings.maxAlternatives = some limit) : p.Bounded limit :=
  fun n _ hn => length_recompute_le hlimit hbook (h.known n _ hn).2

section SameRules

variable (hrules : book'.rules = book.rules) (hnone : book.settings.maxAlternatives = none)
  (hsome : book'.settings.maxAlternatives = some limit)

include hrules hnone hsome

/-- A limit on a rule book only cuts off what names stand for. -/
theorem recompute_cutOff (stack : List String) (name : String) :
    CutOff limit (book.recompute stack name) (book'.recompute stack name) := by
  induction stack, name using recompute.induct book with
  | case1 stack name hr =>
    rw [recompute_of_none hr, recompute_of_none ((rule?_of_rules hrules name).trans hr)]
    exact .same
  | case2 stack name rule hr hs =>
    rw [recompute_of_mem hr hs, recompute_of_mem ((rule?_of_rules hrules name).trans hr) hs]
    exact .same
  | case3 stack name rule hr hs ih =>
    rw [recompute_of_not_mem hr hs,
      recompute_of_not_mem ((rule?_of_rules hrules name).trans hr) hs,
      surroundings, surroundings, hnone, hsome, extending_of_rules hrules]
    exact (Formula.expand_cutOff fun n _ => ih n).map _

/-- The limit makes no difference to a rule if no part of the rules that it reaches has more
alternatives than the limit. -/
theorem recompute_within {stack : List String} {name : String} {as : List Alternative}
    (hparts : ∀ r rule, book.Reaches name r → book.rule? r = some rule → ∀ g ∈ rule.formula.parts,
      ∀ bs, g.expand (book.surroundings r (book.recompute [])) = .ok bs → bs.length ≤ limit)
    (h : book.recompute stack name = .ok as) : book'.recompute stack name = .ok as := by
  induction stack, name using recompute.induct book generalizing as with
  | case1 stack name hr =>
    rw [recompute_of_none hr] at h
    rw [recompute_of_none ((rule?_of_rules hrules name).trans hr), h]
  | case2 stack name rule hr hs =>
    rw [recompute_of_mem hr hs] at h
    cases h
  | case3 stack name rule hr hs ih =>
    have hr' := (rule?_of_rules hrules name).trans hr
    -- an expansion that succeeds below the stack has met no circle, and is the one from scratch
    have hself : ∀ g ∈ rule.formula.parts, ∀ bs,
        g.expand (book.surroundings name (book.recompute (name :: stack))) = .ok bs →
          bs.length ≤ limit :=
      fun g hg bs hb => hparts name rule Relation.ReflTransGen.refl hr g hg bs (expand_of_clear hb)
    have hrefer : ∀ n ∈ rule.formula.names book.extending, ∀ bs,
        book.recompute (name :: stack) n = .ok bs →
          book'.recompute (name :: stack) n = .ok bs := by
      intro n hn bs hb
      apply ih n _ hb
      intro r below hreach hbelow
      have hrule : book.isRule r := isRule_iff.mpr ⟨below, hbelow⟩
      exact hparts r below (hreach.head_of_mem hr hn hrule) hbelow
    rw [recompute_of_not_mem hr hs] at h
    rw [recompute_of_not_mem hr' hs]
    cases he : rule.formula.expand (book.surroundings name (book.recompute (name :: stack))) with
    | error e =>
      rw [he] at h
      cases h
    | ok bs =>
      rw [← h, he]
      rw [surroundings, hnone] at he
      simp only [surroundings, hnone] at hself
      rw [surroundings, hsome, extending_of_rules hrules, Formula.expand_within hrefer hself he]

end SameRules

end Rulebook

namespace Session

variable {s t : Session}

theorem Sound.expand_eq (h : s.Sound) (rule : String) (f : Formula) :
    (s.ask fun b => b.expand rule f).1 =
      f.expand (s.book.surroundings rule (s.book.recompute [])) := by
  have hans : Answers (s.book.Sound [] .start) (s.book.expand rule f)
      (f.expand (s.book.surroundings rule (s.book.recompute []))) :=
    Formula.expand_answers fun n _ => Rulebook.alternatives_answers n
  exact (hans s.progress h).1

theorem expand_after [RegexLibrary] (s : Session) (calls : List Call) (rule : String)
    (f : Formula) :
    f.expand ((s.after calls).book.surroundings rule ((s.after calls).book.recompute [])) =
      f.expand (s.book.surroundings rule (s.book.recompute [])) := by
  obtain ⟨as, ha⟩ := after_book s calls
  rw [ha]
  exact Formula.expand_congr (by rfl) (by rfl) (fun _ _ => rfl)
    fun n _ => Rulebook.recompute_attachments s.book as [] n

/-- The limit only cuts off, and it bounds. Between a session without a limit and one under it, a
name resolves alike or there are too many alternatives; under the limit no step of an expansion and
no rule has more alternatives than it; and a name resolves alike if no part of the rules that it
reaches, expanded without the limit, has more. -/
theorem resolve_limited [RegexLibrary] {lines baseCases baseCases' : List String}
    {eager eager' : Bool} {limit : Nat} (hlimit : 1 ≤ limit)
    (h : ofLines lines baseCases ⟨none, eager⟩ = .ok s)
    (h' : ofLines lines baseCases' ⟨some limit, eager'⟩ = .ok t) (calls calls' : List Call) :
    (∀ name, CutOff limit (((s.after calls).ask fun b => b.resolve name).1.map (·.alternatives))
      (((t.after calls').ask fun b => b.resolve name).1.map (·.alternatives))) ∧
    ((t.after calls').progress.Bounded limit ∧
      (∀ fuel name, Query.Bounded limit (t.book.alternativesWithin fuel name)) ∧
      ∀ fuel rule (f : Formula), Query.Bounded limit
        (f.expand (t.book.surroundings rule (t.book.alternativesWithin fuel)))) ∧
    ∀ name cases, ((s.after calls).ask fun b => b.resolve name).1.map (·.alternatives) = .ok cases →
      (∀ r rule, s.book.Reaches name r → s.book.rule? r = some rule → ∀ g ∈ rule.formula.parts,
        ∀ as, ((s.after calls).ask fun b => b.expand r g).1 = .ok as → as.length ≤ limit) →
      ((t.after calls').ask fun b => b.resolve name).1.map (·.alternatives) = .ok cases := by
  have hs := (sound_of_ofLines h).after calls
  have ht := (sound_of_ofLines h').after calls'
  -- both sessions have the same rules, and differ in the limit alone
  obtain ⟨hlines, hsettings, _, _⟩ := opened h
  obtain ⟨hlines', hsettings', _, _⟩ := opened h'
  have hnone : s.book.settings.maxAlternatives = none := by rw [hsettings]
  have hsome : t.book.settings.maxAlternatives = some limit := by rw [hsettings']
  have hrules : t.book.rules = s.book.rules := by
    rw [hlines] at hlines'
    exact (Except.ok.inj hlines').symm
  have hrule (name : String) : t.book.isRule name = s.book.isRule name := by
    rw [Rulebook.isRule_eq, Rulebook.rule?_of_rules hrules, Rulebook.isRule_eq]
  refine ⟨?_, ⟨?_, ?_, ?_⟩, ?_⟩
  · intro name
    rw [hs.alternatives_resolve, ht.alternatives_resolve, loadCasesAnew_after,
      loadCasesAnew_after, Rulebook.loadCasesAnew, Rulebook.loadCasesAnew, hrule]
    split
    · exact (Rulebook.recompute_cutOff hrules hnone hsome [] name).bind fun as => .same
    · exact .same
  · obtain ⟨as, ha⟩ := after_book t calls'
    apply Rulebook.Sound.bounded ht hlimit
    rw [ha]
    exact hsome
  · exact Rulebook.alternativesWithin_bounded hlimit hsome
  · intro fuel rule f
    rw [Rulebook.surroundings, hsome]
    exact Formula.expand_bounded hlimit (Rulebook.alternativesWithin_bounded hlimit hsome fuel) f
  · intro name cases hcases hparts
    rw [hs.alternatives_resolve, loadCasesAnew_after, Rulebook.loadCasesAnew] at hcases
    rw [ht.alternatives_resolve, loadCasesAnew_after, Rulebook.loadCasesAnew, hrule]
    split at hcases
    · rename_i hname
      obtain ⟨as, ha, hcases⟩ := bind_eq_ok_iff.mp hcases
      have hlimited : t.book.recompute [] name = .ok as := by
        apply Rulebook.recompute_within hrules hnone hsome _ ha
        intro r rule hreach hr g hg bs hb
        apply hparts r rule hreach hr g hg bs
        rw [hs.expand_eq, expand_after, hb]
      rw [if_pos hname, hlimited]
      exact hcases
    · rename_i hname
      rw [if_neg hname, ← hcases]

attribute [local instance] Regex.library

/-- Under a limit of three a choice between three base load cases is let pass, and the four sums of
two choices are not. -/
theorem resolve_limited_of_sum : ∃ s t cases,
    ofLines ["V = a | b | c", "U = (a | b) + (c | d)"] [] ⟨none, false⟩ = .ok s ∧
    ofLines ["V = a | b | c", "U = (a | b) + (c | d)"] [] ⟨some 3, false⟩ = .ok t ∧
    CutOff 3 ((s.ask fun b => b.resolve "U").1.map (·.alternatives))
      (.error (.tooManyAlternatives 4 3)) ∧
    (s.ask fun b => b.resolve "V").1.map (·.alternatives) = .ok cases ∧
    (t.ask fun b => b.resolve "V").1.map (·.alternatives) = .ok cases := by
  have hopen : (match ofLines ["V = a | b | c", "U = (a | b) + (c | d)"] [] ⟨none, false⟩ with
      | .error _ => false
      | .ok s => s.book.rules =
          [⟨"V", "V = a | b | c", .choice (.choice (.ref "a") (.ref "b")) (.ref "c")⟩,
            ⟨"U", "U = (a | b) + (c | d)", .sum (.choice (.ref "a") (.ref "b"))
              (.choice (.ref "c") (.ref "d"))⟩] &&
          s.book.rules.all fun rule => rule.name = "U" || rule.formula.parts.all fun g =>
            match (s.ask fun b => b.expand rule.name g).1 with
            | .error _ => false
            | .ok as => as.length ≤ 3) = true := by decide +kernel
  have hrun : (match ofLines ["V = a | b | c", "U = (a | b) + (c | d)"] [] ⟨some 3, false⟩ with
      | .error _ => false
      | .ok t => match (t.ask fun b => b.resolve "U").1 with
        | .error e => e = .tooManyAlternatives 4 3
        | .ok _ => false) = true := by decide +kernel
  cases hs : ofLines ["V = a | b | c", "U = (a | b) + (c | d)"] [] ⟨none, false⟩ with
  | error e => simp [hs] at hopen
  | ok s =>
    cases ht : ofLines ["V = a | b | c", "U = (a | b) + (c | d)"] [] ⟨some 3, false⟩ with
    | error e => simp [ht] at hrun
    | ok t =>
      obtain ⟨hrules, hparts⟩ : s.book.rules =
          [⟨"V", "V = a | b | c", .choice (.choice (.ref "a") (.ref "b")) (.ref "c")⟩,
            ⟨"U", "U = (a | b) + (c | d)", .sum (.choice (.ref "a") (.ref "b"))
              (.choice (.ref "c") (.ref "d"))⟩] ∧ _ := by
        simpa only [hs, Bool.and_eq_true, decide_eq_true_eq] using hopen
      have hV : s.book.rule? "V" =
          some ⟨"V", "V = a | b | c", .choice (.choice (.ref "a") (.ref "b")) (.ref "c")⟩ := by
        rw [Rulebook.rule?_eq_find?, hrules]
        rfl
      have hbase : ∀ n ∈ ["a", "b", "c"], s.book.rule? n = none := by
        rw [funext s.book.rule?_eq_find?, hrules]
        decide
      have hreach : ∀ r, s.book.Reaches "V" r → r ∈ ["V", "a", "b", "c"] := by
        intro r hr
        refine hr.involves.mem_of_closed ?_ (by simp)
        rw [hrules]
        simp [Formula.names]
      obtain ⟨cases, hcases⟩ : ∃ cases,
          (s.ask fun b => b.resolve "V").1.map (·.alternatives) = .ok cases := by
        have hnew : s.book.recompute [] "V" =
            .ok (Alternative.distinct [.atomic "a", .atomic "b", .atomic "c"]) := by
          have hbase (n : String) (hn : n ∈ ["a", "b", "c"]) :
              s.book.recompute ["V"] n = .ok [.atomic n] :=
            Rulebook.recompute_of_none (hbase n hn)
          have hlimit : s.book.settings.maxAlternatives = none := by rw [(opened hs).settings]
          rw [Rulebook.recompute_of_not_mem hV (by simp), Rulebook.surroundings, hlimit]
          simp only [Formula.expand, hbase "a" (by simp), hbase "b" (by simp),
            hbase "c" (by simp)]
          rfl
        rw [(sound_of_ofLines hs).alternatives_resolve, Rulebook.loadCasesAnew,
          Rulebook.isRule_eq, hV, Option.isSome_some, if_pos rfl, hnew]
        refine ⟨_, Alternative.loadCases_ok fun a ha => ?_⟩
        have hmem := mem_distinct.mp ha
        obtain rfl | rfl | rfl : a = .atomic "a" ∨ a = .atomic "b" ∨ a = .atomic "c" := by
          simpa using hmem
        all_goals rfl
      obtain ⟨hcut, -, hwithin⟩ := resolve_limited (by decide : 1 ≤ 3) hs ht [] []
      have hU : (t.ask fun b => b.resolve "U").1 = .error (.tooManyAlternatives 4 3) := by
        cases hr : (t.ask fun b => b.resolve "U").1 with
        | ok c => simp [ht, hr] at hrun
        | error e =>
          obtain rfl : e = .tooManyAlternatives 4 3 := by simpa [ht, hr] using hrun
          rfl
      refine ⟨s, t, cases, rfl, rfl, ?_, hcases, hwithin "V" cases hcases ?_⟩
      · have hsum := hcut "U"
        change CutOff 3 _ ((t.ask fun b => b.resolve "U").1.map (·.alternatives)) at hsum
        rwa [hU] at hsum
      · intro r rule hr hrule g hg as has
        obtain rfl : r = "V" := by
          obtain rfl | hout := List.mem_cons.mp (hreach r hr)
          · rfl
          · rw [hbase r hout] at hrule
            cases hrule
        obtain ⟨hmem, hname⟩ := Rulebook.rule?_eq_some_iff.mp hrule
        have hall := List.all_eq_true.mp hparts rule hmem
        have hlen := List.all_eq_true.mp (by simpa [hname] using hall) g hg
        rw [show (s.ask fun b => b.expand "V" g).1 = .ok as from has] at hlen
        simpa using hlen

end Session

end DesignLoads
