import DesignLoads.Extremes
import DesignLoads.Proofs.Decimal.Order
import Mathlib.Data.List.Forall2

/-! The extremes of a list of responses. The scan of a list of lists, each of which has been scanned
before, finds what one scan of all responses finds: of the greatest responses the first, and of the
least responses the first. -/

namespace DesignLoads

section FirstGreatest

variable {α β κ : Type} [LinearOrder κ] {key : α → κ} {xs ys : List α} {x y : α}

/-- An item is the first of the greatest in a list: those before it are less, and none behind it is
greater. -/
def FirstGreatest (key : α → κ) (xs : List α) (x : α) : Prop :=
  ∃ before after, xs = before ++ x :: after ∧ (∀ y ∈ before, key y < key x) ∧
    ∀ y ∈ after, key y ≤ key x

theorem firstGreatest_singleton (key : α → κ) (x : α) : FirstGreatest key [x] x :=
  ⟨[], [], rfl, by simp, by simp⟩

namespace FirstGreatest

theorem mem (h : FirstGreatest key xs x) : x ∈ xs := by
  obtain ⟨before, after, rfl, -, -⟩ := h
  simp

theorem le (h : FirstGreatest key xs x) : ∀ y ∈ xs, key y ≤ key x := by
  obtain ⟨before, after, rfl, hbefore, hafter⟩ := h
  intro y hy
  rcases List.mem_append.mp hy with hy | hy
  · exact (hbefore y hy).le
  · rcases List.mem_cons.mp hy with rfl | hy
    · exact le_rfl
    · exact hafter y hy

/-- Of two lists' greatest items the first list's stays, unless it is less. -/
theorem append (hx : FirstGreatest key xs x) (hy : FirstGreatest key ys y) :
    FirstGreatest key (xs ++ ys) (if key x < key y then y else x) := by
  have hxs := hx.le
  have hys := hy.le
  split
  · next hlt =>
    -- all of the first list are less than the greatest of the second
    obtain ⟨before, after, rfl, hbefore, hafter⟩ := hy
    refine ⟨xs ++ before, after, by rw [List.append_assoc], fun z hz => ?_, hafter⟩
    rcases List.mem_append.mp hz with hz | hz
    · exact lt_of_le_of_lt (hxs z hz) hlt
    · exact hbefore z hz
  · next hge =>
    obtain ⟨before, after, rfl, hbefore, hafter⟩ := hx
    refine ⟨before, after ++ ys, by rw [List.append_assoc, List.cons_append], hbefore,
      fun z hz => ?_⟩
    rcases List.mem_append.mp hz with hz | hz
    · exact hafter z hz
    · exact (hys z hz).trans (not_lt.mp hge)

theorem map {key' : β → κ} {f : α → β} (hkey : ∀ x, key' (f x) = key x)
    (h : FirstGreatest key xs x) : FirstGreatest key' (xs.map f) (f x) := by
  obtain ⟨before, after, rfl, hbefore, hafter⟩ := h
  refine ⟨before.map f, after.map f, by rw [List.map_append, List.map_cons], ?_, ?_⟩
  · simpa only [List.forall_mem_map, hkey] using hbefore
  · simpa only [List.forall_mem_map, hkey] using hafter

theorem unique (hx : FirstGreatest key xs x) (hy : FirstGreatest key xs y) : x = y := by
  obtain ⟨before, after, rfl, hbefore, hafter⟩ := hx
  obtain ⟨before', after', hsplit, hbefore', hafter'⟩ := hy
  rcases List.append_eq_append_iff.mp hsplit with ⟨between, rfl, hrest⟩ | ⟨between, rfl, hrest⟩
  · rcases between with _ | ⟨z, between⟩
    · exact (List.cons.inj hrest).1
    · -- `x` stands before `y`, so it is less, and yet not less
      obtain ⟨rfl, rfl⟩ := List.cons.inj hrest
      have hlt := hbefore' x (by simp)
      have hle := hafter y (by simp)
      exact absurd hlt (not_lt.mpr hle)
  · rcases between with _ | ⟨z, between⟩
    · exact (List.cons.inj hrest).1.symm
    · obtain ⟨rfl, rfl⟩ := List.cons.inj hrest
      have hlt := hbefore y (by simp)
      have hle := hafter' x (by simp)
      exact absurd hlt (not_lt.mpr hle)

end FirstGreatest

end FirstGreatest

namespace Extremes

variable {ι κ : Type} {rs ss : List (Response ι)} {a b e : Extremes ι} {o : Option (Extremes ι)}

def Numbers (rs : List (Response ι)) : Prop := ∀ r ∈ rs, ¬ r.value.isNaN

/-- The first of the greatest and the first of the least responses of a list. -/
structure AreOf (rs : List (Response ι)) (e : Extremes ι) : Prop where
  max : FirstGreatest (fun r => rank r.value) rs e.max
  min : FirstGreatest (fun r => OrderDual.toDual (rank r.value)) rs e.min

theorem areOf_single (r : Response ι) : AreOf [r] (single r) :=
  ⟨firstGreatest_singleton _ r, firstGreatest_singleton _ r⟩

theorem AreOf.unique (ha : AreOf rs a) (hb : AreOf rs b) : a = b := by
  obtain ⟨amax, amin⟩ := a
  obtain ⟨bmax, bmin⟩ := b
  obtain rfl : amax = bmax := ha.max.unique hb.max
  obtain rfl : amin = bmin := ha.min.unique hb.min
  rfl

theorem AreOf.mapPlace (h : AreOf rs e) (f : ι → κ) :
    AreOf (rs.map fun r => ⟨r.value, f r.place⟩) (e.mapPlace f) :=
  ⟨h.max.map fun _ => rfl, h.min.map fun _ => rfl⟩

/-- The extremes of two lists are those of the extremes of both. -/
theorem AreOf.merge (ha : AreOf rs a) (hb : AreOf ss b) (hrs : Numbers rs) (hss : Numbers ss) :
    AreOf (rs ++ ss) (a.merge b) := by
  have hmax : a.max.value < b.max.value ↔ rank a.max.value < rank b.max.value :=
    lt_iff_rank (hrs _ ha.max.mem) (hss _ hb.max.mem)
  have hmin : b.min.value < a.min.value ↔
      OrderDual.toDual (rank a.min.value) < OrderDual.toDual (rank b.min.value) := by
    rw [OrderDual.toDual_lt_toDual]
    exact lt_iff_rank (hss _ hb.min.mem) (hrs _ ha.min.mem)
  constructor
  · show FirstGreatest _ (rs ++ ss) (if _ then _ else _)
    simp only [hmax]
    exact ha.max.append hb.max
  · show FirstGreatest _ (rs ++ ss) (if _ then _ else _)
    simp only [hmin]
    exact ha.min.append hb.min

/-- What the scan of a list finds: nothing in an empty one. -/
inductive ScanOf : List (Response ι) → Option (Extremes ι) → Prop
  | none : ScanOf [] none
  | some {rs : List (Response ι)} {e : Extremes ι} (h : AreOf rs e) : ScanOf rs (some e)

theorem ScanOf.unique {o' : Option (Extremes ι)} (h : ScanOf rs o) (h' : ScanOf rs o') :
    o = o' := by
  cases h with
  | none =>
    cases h' with
    | none => rfl
    | some h' => exact absurd h'.max.mem List.not_mem_nil
  | some h =>
    cases h' with
    | none => exact absurd h.max.mem List.not_mem_nil
    | some h' => rw [h.unique h']

theorem ScanOf.mapPlace (h : ScanOf rs o) (f : ι → κ) :
    ScanOf (rs.map fun r => ⟨r.value, f r.place⟩) (o.map (Extremes.mapPlace f)) := by
  cases h with
  | none => exact .none
  | some h => exact .some (h.mapPlace f)

/-- One extremes after the other is merged into those of the lists before. -/
theorem AreOf.foldl {rss : List (List (Response ι))} {os : List (Option (Extremes ι))}
    (ha : AreOf rs a) (hrs : Numbers rs)
    (h : List.Forall₂ (fun rs o => ScanOf rs o ∧ Numbers rs) rss os) :
    AreOf (rs ++ rss.flatten) ((os.filterMap id).foldl Extremes.merge a) := by
  induction h generalizing rs a with
  | nil => rwa [List.flatten_nil, List.append_nil]
  | @cons ss o rss os hhead _ ih =>
    obtain ⟨hscan, hss⟩ := hhead
    rw [List.flatten_cons, ← List.append_assoc]
    cases hscan with
    | none => exact ih (by rwa [List.append_nil]) (by rwa [List.append_nil])
    | some hb =>
      have hnumbers : Numbers (rs ++ ss) := by
        intro r hr
        exact (List.mem_append.mp hr).elim (hrs r) (hss r)
      exact ih (ha.merge hb hrs hss) hnumbers

/-- The scan of what was found in several lists is a scan of them all. -/
theorem scanOf_ofList? {rss : List (List (Response ι))} {os : List (Option (Extremes ι))}
    (h : List.Forall₂ (fun rs o => ScanOf rs o ∧ Numbers rs) rss os) :
    ScanOf rss.flatten (ofList? (os.filterMap id)) := by
  induction h with
  | nil => exact .none
  | @cons rs o rss os hhead htail ih =>
    obtain ⟨hscan, hrs⟩ := hhead
    cases hscan with
    | none => exact ih
    | some ha => exact .some (ha.foldl hrs htail)

theorem scanOf_singles (hrs : Numbers rs) : ScanOf rs (ofList? (rs.map single)) := by
  have hall : List.Forall₂ (fun rs o => ScanOf rs o ∧ Numbers rs) (rs.map fun r => [r])
      (rs.map fun r => some (single r)) := by
    rw [List.forall₂_map_left_iff, List.forall₂_map_right_iff, List.forall₂_same]
    intro r hr
    refine ⟨.some (areOf_single r), fun q hq => ?_⟩
    rw [List.mem_singleton.mp hq]
    exact hrs r hr
  have hscan := scanOf_ofList? hall
  have hsingles : (rs.map fun r => some (single r)).filterMap id = rs.map single := by
    rw [List.filterMap_map]
    exact congrFun List.filterMap_eq_map rs
  have hflat : (rs.map fun r => [r]).flatten = rs := by
    rw [← List.flatMap_def]
    exact List.flatMap_singleton' rs
  rwa [hsingles, hflat] at hscan

/-- The first greatest and the first least of a list of responses: there are none only in an empty
list, every response lies between them, and they are what one scan of the list gives. -/
structure AreFirst (rs : List (Response ι)) (o : Option (Extremes ι)) : Prop where
  none_iff : o = none ↔ rs = []
  greatest : ∀ e, o = some e → (∀ r ∈ rs, r.value ≤ e.max.value) ∧
    ∃ before after, rs = before ++ e.max :: after ∧ ∀ r ∈ before, r.value < e.max.value
  least : ∀ e, o = some e → (∀ r ∈ rs, e.min.value ≤ r.value) ∧
    ∃ before after, rs = before ++ e.min :: after ∧ ∀ r ∈ before, e.min.value < r.value
  flat : o = ofList? (rs.map single)

theorem ScanOf.areFirst (h : ScanOf rs o) (hrs : Numbers rs) : AreFirst rs o := by
  refine ⟨?_, ?_, ?_, h.unique (scanOf_singles hrs)⟩
  · cases h with
    | none => exact iff_of_true rfl rfl
    | some h => exact iff_of_false (Option.some_ne_none _) (List.ne_nil_of_mem h.max.mem)
  · rintro e rfl
    obtain _ | h := h
    have hmax := hrs _ h.max.mem
    refine ⟨fun r hr => (le_iff_rank (hrs r hr) hmax).mpr (h.max.le r hr), ?_⟩
    obtain ⟨before, after, hsplit, hbefore, -⟩ := h.max
    refine ⟨before, after, hsplit, fun r hr => ?_⟩
    exact (lt_iff_rank (hrs r (by simp [hsplit, hr])) hmax).mpr (hbefore r hr)
  · rintro e rfl
    obtain _ | h := h
    have hmin := hrs _ h.min.mem
    refine ⟨fun r hr => (le_iff_rank hmin (hrs r hr)).mpr (h.min.le r hr), ?_⟩
    obtain ⟨before, after, hsplit, hbefore, -⟩ := h.min
    refine ⟨before, after, hsplit, fun r hr => ?_⟩
    exact (lt_iff_rank hmin (hrs r (by simp [hsplit, hr]))).mpr (hbefore r hr)

end Extremes

end DesignLoads
