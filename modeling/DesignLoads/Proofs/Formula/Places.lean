import DesignLoads.Proofs.Formula.Expansion

/-! The places of alternatives. How many alternatives a formula has follows from the numbers of its
operands, and the place of each tells which alternatives of the operands it is made of: by quotient
and remainder in sums and products, by position in zips, and one operand after the other in
choices. -/

namespace DesignLoads

/-- What an operation gives at each place of a list. -/
theorem getElem?_mapM {ε α β : Type} {f : α → Except ε β} {xs : List α} {ys : List β}
    (h : xs.mapM f = .ok ys) (i : Nat) : ys[i]? = xs[i]?.bind fun x => (f x).toOption := by
  have hplace := congrArg (·[i]?) (mapM_eq_ok_iff.mp h)
  simp only [List.getElem?_map] at hplace
  have hsome : ys[i]? = (ys[i]?.map (Except.ok : β → Except ε β)).bind Except.toOption := by
    cases ys[i]? <;> rfl
  rw [hsome, ← hplace, Option.bind_map]
  rfl

namespace Alternative

variable {limit : Option Nat} {rule : String} {as bs cs : List Alternative}

/-- Pairs stand in rows, one for each item of the first list. -/
theorem getElem?_pairs {α : Type} (as bs : List α) (i : Nat) :
    (pairs as bs)[i]? =
      as[i / bs.length]?.bind fun a => bs[i % bs.length]?.map fun b => (a, b) := by
  induction as generalizing i with
  | nil => rfl
  | cons a as ih =>
    have hrows : pairs (a :: as) bs = bs.map (fun b => (a, b)) ++ pairs as bs := rfl
    rw [hrows]
    by_cases hi : i < bs.length
    · rw [List.getElem?_append_left (by rwa [List.length_map]), Nat.div_eq_of_lt hi,
        Nat.mod_eq_of_lt hi, List.getElem?_map]
      rfl
    · have hle : bs.length ≤ i := Nat.not_lt.mp hi
      rw [List.getElem?_append_right (by rwa [List.length_map]), List.length_map, ih]
      obtain hzero | hpos := Nat.eq_zero_or_pos bs.length
      · -- without a second item there is no row
        obtain rfl := List.eq_nil_of_length_eq_zero hzero
        simp
      · rw [Nat.div_eq_sub_div hpos hle, Nat.mod_eq_sub_mod hle, List.getElem?_cons_succ]

theorem length_pairs {α : Type} (as bs : List α) :
    (pairs as bs).length = as.length * bs.length := by
  simp [pairs, List.map_const']

/-- Sums, products and choices first count what they are about to list. -/
theorem length_sums (h : sums limit as bs = .ok cs) :
    checkCount limit cs.length = .ok () ∧ cs.length = as.length * bs.length := by
  obtain ⟨_, hcount, h⟩ := bind_eq_ok_iff.mp h
  cases h
  rw [List.length_map, length_pairs]
  exact ⟨hcount, rfl⟩

theorem length_products (h : products limit rule as bs = .ok cs) :
    checkCount limit cs.length = .ok () ∧ cs.length = as.length * bs.length := by
  obtain ⟨_, hcount, h⟩ := bind_eq_ok_iff.mp h
  rw [length_mapM h, length_pairs]
  exact ⟨hcount, rfl⟩

theorem length_choices (h : choices limit as bs = .ok cs) :
    checkCount limit cs.length = .ok () ∧ cs.length = as.length + bs.length := by
  obtain ⟨_, hcount, h⟩ := bind_eq_ok_iff.mp h
  cases h
  rw [List.length_append]
  exact ⟨hcount, rfl⟩

theorem getElem?_sums (h : sums limit as bs = .ok cs) (i : Nat) :
    cs[i]? = as[i / bs.length]?.bind fun a => bs[i % bs.length]?.map a.merged := by
  obtain ⟨_, _, h⟩ := bind_eq_ok_iff.mp h
  cases h
  rw [List.getElem?_map, getElem?_pairs, Option.map_bind]
  simp only [Function.comp_def, Option.map_map]

theorem getElem?_products (h : products limit rule as bs = .ok cs) (i : Nat) :
    cs[i]? = as[i / bs.length]?.bind fun a => bs[i % bs.length]?.bind a.product? := by
  obtain ⟨_, _, h⟩ := bind_eq_ok_iff.mp h
  rw [getElem?_mapM h, getElem?_pairs, Option.bind_assoc]
  congr
  funext a
  rw [Option.bind_map]
  congr
  funext b
  dsimp only [Function.comp]
  cases a.product? b <;> rfl

end Alternative

namespace Formula

variable (members : String → List String) (listed : String → List Alternative)

/-- The number of alternatives of a formula, when `members` lists a family and `listed` the
alternatives of a name. -/
def count : Formula → Nat
  | ref name => (listed name).length
  | family stem => ((members stem).flatMap listed).length
  | number _ => 1
  | scale a _ | neg a => a.count
  | sum a b | product a b => a.count * b.count
  | zip a b =>
    if a.count = b.count then a.count
    else if a.count = 1 then b.count
    else a.count
  | choice a b => a.count + b.count

/-- The alternative of a formula at a place, made of the alternatives of its operands at their
places. -/
def nth? : Formula → Nat → Option Alternative
  | ref name, i => (listed name)[i]?
  | family stem, i => ((members stem).flatMap listed)[i]?
  | number f, i => if i = 0 then f.value.toOption.map .scalar else none
  | scale a f, i => f.value.toOption.bind fun x => (a.nth? i).map (·.scaled x)
  | neg a, i => (a.nth? i).map (·.scaled (-1))
  | sum a b, i =>
    (a.nth? (i / b.count members listed)).bind fun x =>
      (b.nth? (i % b.count members listed)).map x.merged
  | product a b, i =>
    (a.nth? (i / b.count members listed)).bind fun x =>
      (b.nth? (i % b.count members listed)).bind x.product?
  | zip a b, i =>
    if a.count members listed = b.count members listed then
      (a.nth? i).bind fun x => (b.nth? i).map x.merged
    else if a.count members listed = 1 then
      (a.nth? 0).bind fun x => (b.nth? i).map x.merged
    else (a.nth? i).bind fun x => (b.nth? 0).map x.merged
  | choice a b, i =>
    if i < a.count members listed then a.nth? i else b.nth? (i - a.count members listed)

variable {members listed} {env : Surroundings (Except Failure)}

theorem expandNames_eq {names : List String} {before as : List Alternative}
    (hrefer : ∀ n ∈ names, env.refer n = .ok (listed n))
    (h : expandNames env before names = .ok as) : as = before ++ names.flatMap listed := by
  induction names generalizing before with
  | nil =>
    cases h
    simp
  | cons n ns ih =>
    obtain ⟨next, hn, h⟩ := bind_eq_ok_iff.mp h
    obtain ⟨all, hall, h⟩ := bind_eq_ok_iff.mp h
    rw [hrefer n List.mem_cons_self] at hn
    cases hn
    rw [liftExcept_eq_self] at hall
    obtain ⟨_, _, hall⟩ := bind_eq_ok_iff.mp hall
    cases hall
    rw [ih (fun m hm => hrefer m (List.mem_cons_of_mem n hm)) h, List.flatMap_cons,
      List.append_assoc]

/-- The alternatives of an operator stand where those of its operands say. -/
theorem combine_places {f a b : Formula} {limit : Option Nat} {rule : String}
    {as bs cs : List Alternative} (hab : f.operands = some (a, b))
    (hlena : as.length = a.count members listed) (hlenb : bs.length = b.count members listed)
    (hntha : ∀ i, as[i]? = a.nth? members listed i) (hnthb : ∀ i, bs[i]? = b.nth? members listed i)
    (h : f.combine limit rule as bs = .ok cs) :
    cs.length = f.count members listed ∧ ∀ i, cs[i]? = f.nth? members listed i := by
  cases f with
  | sum =>
    cases hab
    refine ⟨?_, fun i => ?_⟩
    · rw [(Alternative.length_sums h).2, hlena, hlenb, count]
    · rw [Alternative.getElem?_sums h, hntha, hnthb, hlenb, nth?]
  | product =>
    cases hab
    refine ⟨?_, fun i => ?_⟩
    · rw [(Alternative.length_products h).2, hlena, hlenb, count]
    · rw [Alternative.getElem?_products h, hntha, nth?]
      simp only [hnthb, hlenb]
  | zip =>
    cases hab
    rw [count]
    simp only [nth?, ← hntha, ← hnthb, ← hlena, ← hlenb]
    obtain ⟨heq, rfl⟩ | ⟨hne, x, rfl, rfl⟩ | ⟨hne, hmany, y, rfl, rfl⟩ := Alternative.zips_cases h
    · simp only [if_pos heq]
      refine ⟨?_, fun i => ?_⟩
      · rw [List.length_zipWith, heq, Nat.min_self]
      · rw [List.getElem?_zipWith', Option.bind_map]
        rfl
    · simp only [if_neg hne]
      exact ⟨List.length_map _, fun i => List.getElem?_map⟩
    · simp only [if_neg hne, if_neg hmany]
      refine ⟨List.length_map _, fun i => ?_⟩
      rw [List.getElem?_map]
      cases as[i]? <;> rfl
  | choice =>
    cases hab
    refine ⟨?_, fun i => ?_⟩
    · rw [(Alternative.length_choices h).2, hlena, hlenb, count]
    · obtain ⟨_, _, h⟩ := bind_eq_ok_iff.mp h
      cases h
      rw [List.getElem?_append, nth?, hntha, hnthb, hlena]
  | _ => cases hab

/-- Where every name of a formula stands for the alternatives that are listed of it, an expansion
has as many alternatives as are counted, each at its place. -/
theorem expand_places {f : Formula} {as : List Alternative}
    (hrefer : ∀ n ∈ f.names env.family, env.refer n = .ok (listed n))
    (h : f.expand env = .ok as) :
    as.length = f.count env.family listed ∧ ∀ i, as[i]? = f.nth? env.family listed i := by
  induction f using operand_induction generalizing as with
  | ref name =>
    have hname := hrefer name (List.mem_singleton.mpr rfl)
    obtain rfl : as = listed name := Except.ok.inj (h.symm.trans hname)
    exact ⟨rfl, fun _ => rfl⟩
  | family stem =>
    obtain rfl := expandNames_eq hrefer h
    exact ⟨rfl, fun _ => rfl⟩
  | number f =>
    obtain ⟨x, hx, h⟩ := bind_eq_ok_iff.mp h
    rw [liftExcept_eq_self] at hx
    cases h
    refine ⟨rfl, fun i => ?_⟩
    rw [nth?, hx]
    cases i <;> rfl
  | scale a f ih =>
    obtain ⟨x, hx, h⟩ := bind_eq_ok_iff.mp h
    rw [liftExcept_eq_self] at hx
    obtain ⟨bs, hb, h⟩ := bind_eq_ok_iff.mp h
    cases h
    obtain ⟨hlen, hnth⟩ := ih hrefer hb
    refine ⟨(List.length_map _).trans hlen, fun i => ?_⟩
    rw [List.getElem?_map, hnth, nth?, hx]
    rfl
  | neg a ih =>
    obtain ⟨bs, hb, h⟩ := bind_eq_ok_iff.mp h
    cases h
    obtain ⟨hlen, hnth⟩ := ih hrefer hb
    refine ⟨(List.length_map _).trans hlen, fun i => ?_⟩
    rw [List.getElem?_map, hnth, nth?]
  | binary f a b hab iha ihb =>
    rw [names_of_operands _ hab] at hrefer
    rw [expand_of_operands _ hab] at h
    obtain ⟨bs, hb, h⟩ := bind_eq_ok_iff.mp h
    obtain ⟨cs, hc, h⟩ := bind_eq_ok_iff.mp h
    rw [liftExcept_eq_self] at h
    obtain ⟨hlena, hntha⟩ := iha (fun n hn => hrefer n (List.mem_append_left _ hn)) hb
    obtain ⟨hlenb, hnthb⟩ := ihb (fun n hn => hrefer n (List.mem_append_right _ hn)) hc
    exact combine_places hab hlena hlenb hntha hnthb h

end Formula

end DesignLoads
