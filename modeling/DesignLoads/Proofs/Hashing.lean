import DesignLoads.Proofs.LoadCase
import DesignLoads.Proofs.Rulebook.Invariants

/-! Hashing and equality. Alternatives are equal by their numbers and are hashed by the bits of
these, and the two zeros are equal with different bits. No operation leaves a negative zero, so
that without a NaN what is equal is hashed alike; and what is hashed by tells apart whatever is not
equal. A table that looks only among items of the same hash then finds all repetitions. -/

namespace DesignLoads

section Bytes

/-- A word of eight bytes, the lowest first. -/
def wordBytes (w : UInt64) : List UInt8 :=
  (List.range 8).map fun i => UInt8.ofNat (w.toNat / 256 ^ i)

/-- A text in UTF-8, with an end mark that is no byte of any text. -/
def nameBytes (s : String) : List UInt8 := s.toUTF8.data.toList ++ [0xff]

theorem length_wordBytes (w : UInt64) : (wordBytes w).length = 8 := by
  rw [wordBytes, List.length_map, List.length_range]

/-- Numbers with the same lowest bytes are the same up to these. -/
theorem mod_pow_eq_of_bytes {m n k : ℕ}
    (h : ∀ i, i < k → m / 256 ^ i % 256 = n / 256 ^ i % 256) : m % 256 ^ k = n % 256 ^ k := by
  induction k with
  | zero => rw [pow_zero, Nat.mod_one, Nat.mod_one]
  | succ k ih =>
    have hlow := ih fun i hi => h i (Nat.lt_succ_of_lt hi)
    rw [Nat.mod_pow_succ, Nat.mod_pow_succ, hlow, h k (Nat.lt_succ_self k)]

theorem wordBytes_injective {v w : UInt64} (h : wordBytes v = wordBytes w) : v = w := by
  have hbytes : v.toNat % 256 ^ 8 = w.toNat % 256 ^ 8 := by
    apply mod_pow_eq_of_bytes
    intro i hi
    have heq := List.map_inj_left.mp h i (List.mem_range.mpr hi)
    simpa only [UInt8.toNat_ofNat'] using congrArg UInt8.toNat heq
  have hlt (w : UInt64) : w.toNat < 256 ^ 8 := w.toNat_lt
  rw [Nat.mod_eq_of_lt (hlt v), Nat.mod_eq_of_lt (hlt w)] at hbytes
  exact UInt64.toNat_inj.mp hbytes

/-- A word can be told from what follows it. -/
theorem wordBytes_append_inj {v w : UInt64} {r t : List UInt8}
    (h : wordBytes v ++ r = wordBytes w ++ t) : v = w ∧ r = t := by
  have hlen : (wordBytes v).length = (wordBytes w).length := by
    rw [length_wordBytes, length_wordBytes]
  exact (List.append_inj h hlen).imp_left wordBytes_injective

theorem ne_mark_of_mem_utf8EncodeChar {c : Char} {b : UInt8} (h : b ∈ String.utf8EncodeChar c) :
    b ≠ 0xff := by
  rintro rfl
  have hcode : ∀ n, n % 256 ≠ 255 → (0xff : UInt8) ≠ UInt8.ofNat n := by
    intro n hn heq
    have hb := congrArg UInt8.toNat heq
    rw [UInt8.toNat_ofNat'] at hb
    exact hn hb.symm
  unfold String.utf8EncodeChar at h
  dsimp only at h
  -- every byte of the four forms has a bit that is not set
  split_ifs at h
  all_goals
    simp only [List.mem_cons, List.not_mem_nil, or_false] at h
  · exact hcode _ (by omega) h
  · obtain h | h := h <;> exact hcode _ (by omega) h
  · obtain h | h | h := h <;> exact hcode _ (by omega) h
  · obtain h | h | h | h := h <;> exact hcode _ (by omega) h

theorem mark_notMem_toUTF8 (s : String) : 0xff ∉ s.toUTF8.data.toList := by
  have hbytes : s.toUTF8.data.toList = s.toList.flatMap String.utf8EncodeChar := by
    conv => lhs; rw [← String.ofList_toList (s := s)]
    change (List.utf8Encode s.toList).data.toList = _
    rw [List.utf8Encode, List.data_toByteArray]
  rw [hbytes]
  intro h
  obtain ⟨c, _, hc⟩ := List.mem_flatMap.mp h
  exact ne_mark_of_mem_utf8EncodeChar hc rfl

/-- A text can be told from what follows it. -/
theorem nameBytes_append_inj {s t : String} {u v : List UInt8}
    (h : nameBytes s ++ u = nameBytes t ++ v) : s = t ∧ u = v := by
  have htake : ∀ (s : String) (u : List UInt8),
      (nameBytes s ++ u).takeWhile (· != 0xff) = s.toUTF8.data.toList := by
    intro s u
    have hne : ∀ b ∈ s.toUTF8.data.toList, (b != 0xff) = true := by
      intro b hb
      rw [bne_iff_ne]
      exact fun heq => mark_notMem_toUTF8 s (heq ▸ hb)
    rw [nameBytes, List.append_assoc, List.takeWhile_append_of_pos hne]
    exact List.append_nil _
  have hdata : s.toUTF8.data.toList = t.toUTF8.data.toList := by rw [← htake s u, h, htake]
  have hst : s = t := String.toByteArray_inj.mp (ByteArray.ext (Array.toList_inj.mp hdata))
  subst hst
  exact ⟨rfl, List.append_cancel_left h⟩

end Bytes

section Tables

variable {α : Type} [DecidableEq α]

/-- The items that agree with none before them, which `before` holds at first. -/
def firstsAfter (agrees : α → α → Bool) (before : List α) : List α → List α
  | [] => []
  | x :: xs =>
    if before.any (agrees x) then firstsAfter agrees (x :: before) xs
    else x :: firstsAfter agrees (x :: before) xs

/-- The items that agree with no earlier one, in order. -/
def firsts (agrees : α → α → Bool) (xs : List α) : List α := firstsAfter agrees [] xs

/-- The items that are put in a table, which holds `table` at first. An item is looked for among
those with its hash, and is left out if it agrees with one of these. -/
def stored (hash : α → UInt64) (agrees : α → α → Bool) (table : List α) : List α → List α
  | [] => []
  | x :: xs =>
    if table.any fun y => hash x == hash y && agrees x y then stored hash agrees table xs
    else x :: stored hash agrees (x :: table) xs

variable {agrees : α → α → Bool} {hash : α → UInt64} {P : α → Prop} {before table xs : List α}
  {x : α}

/-- Where to agree is to be the same, an item agrees with one of a list if it is in the list. -/
theorem any_agrees (h : ∀ a b, P a → P b → (agrees a b = true ↔ a = b)) (hx : P x)
    (hbefore : ∀ y ∈ before, P y) : before.any (agrees x) = before.contains x := by
  rw [Bool.eq_iff_iff, List.any_eq_true, List.contains_iff_mem]
  constructor
  · rintro ⟨y, hy, hxy⟩
    rwa [(h x y hx (hbefore y hy)).mp hxy]
  · intro hmem
    exact ⟨x, hmem, (h x x hx hx).mpr rfl⟩

theorem firstsAfter_eq (h : ∀ a b, P a → P b → (agrees a b = true ↔ a = b))
    (hbefore : ∀ y ∈ before, P y) (hxs : ∀ y ∈ xs, P y) :
    firstsAfter agrees before xs = (xs.filter (!before.contains ·)).eraseDups := by
  induction xs generalizing before with
  | nil => rfl
  | cons x xs ih =>
    obtain ⟨hx, hrest⟩ := List.forall_mem_cons.mp hxs
    have hnext := ih (List.forall_mem_cons.mpr ⟨hx, hbefore⟩) hrest
    simp only [List.contains_cons, BEq.comm (b := x)] at hnext
    rw [firstsAfter, any_agrees h hx hbefore, hnext, eraseDups_unseen_cons]
    split
    -- an item from before is still one of those before
    · rename_i hmem
      congr 1
      apply List.filter_congr
      intro y _
      by_cases hxy : x = y
      · subst hxy
        rw [hmem, Bool.or_true]
      · rw [beq_false_of_ne hxy, Bool.false_or]
    · rfl

theorem stored_eq (h : ∀ a b, P a → P b → (agrees a b = true ↔ a = b))
    (htable : ∀ y ∈ table, P y) (hxs : ∀ y ∈ xs, P y) :
    stored hash agrees table xs = (xs.filter (!table.contains ·)).eraseDups := by
  -- what is the same has the same hash, so that to compare hashes first excludes nothing
  have hhash : ∀ a b, P a → P b → ((hash a == hash b && agrees a b) = true ↔ a = b) := by
    intro a b ha hb
    rw [Bool.and_eq_true, h a b ha hb, and_iff_right_iff_imp]
    rintro rfl
    exact beq_self_eq_true _
  induction xs generalizing table with
  | nil => rfl
  | cons x xs ih =>
    obtain ⟨hx, hrest⟩ := List.forall_mem_cons.mp hxs
    have hfound := any_agrees hhash hx htable
    have hnext := ih (List.forall_mem_cons.mpr ⟨hx, htable⟩) hrest
    simp only [List.contains_cons, BEq.comm (b := x)] at hnext
    rw [stored, hfound, hnext, ih htable hrest, eraseDups_unseen_cons]

end Tables

/-- Hashing is consistent with equality among the items that satisfy `P`, so that repetitions are
removed exactly: what is left are the items equal to no earlier one, also when equal items are
looked for by a hash only, whatever hash is made of what an item is hashed by. -/
structure HashesExactly {α : Type} [DecidableEq α] (agrees : α → α → Bool)
    (fed : α → List UInt8) (distinct : List α → List α) (P : α → Prop) : Prop where
  agrees_iff : ∀ a b, P a → P b → (agrees a b = true ↔ fed a = fed b)
  distinct_eq : ∀ as, (∀ a ∈ as, P a) → distinct as = firsts agrees as
  stored_eq : ∀ (hash : List UInt8 → UInt64) as, (∀ a ∈ as, P a) →
    stored (fun a => hash (fed a)) agrees [] as = firsts agrees as
  distinct_distinct : ∀ as, (∀ a ∈ as, P a) → distinct (distinct as) = distinct as

theorem HashesExactly.of_injective {α : Type} [DecidableEq α] [Hashable α]
    {agrees : α → α → Bool} {fed : α → List UInt8} {P : α → Prop}
    (hfed : ∀ {a b}, fed a = fed b → a = b)
    (hagrees : ∀ a b, P a → P b → (agrees a b = true ↔ a = b)) :
    HashesExactly agrees fed (distinct fun a => agrees a a) P := by
  -- all ways to remove repetitions leave the first occurrences
  have hdistinct : ∀ as, (∀ a ∈ as, P a) → distinct (fun a => agrees a a) as = as.eraseDups := by
    intro as has
    exact distinct_eq_eraseDups fun a ha => (hagrees a a (has a ha) (has a ha)).mpr rfl
  have hfirsts : ∀ as, (∀ a ∈ as, P a) → firsts agrees as = as.eraseDups := by
    intro as has
    rw [firsts, firstsAfter_eq hagrees (by simp) has]
    simp
  refine ⟨fun a b ha hb => ?_, fun as has => ?_, fun hash as has => ?_, fun as has => ?_⟩
  · rw [hagrees a b ha hb]
    exact ⟨congrArg fed, hfed⟩
  · rw [hdistinct as has, hfirsts as has]
  · rw [hfirsts as has, DesignLoads.stored_eq hagrees (by simp) has]
    simp
  · rw [hdistinct _ fun a ha => has a (mem_distinct.mp ha), hdistinct as has, eraseDups_idem]

namespace LoadCase

variable {a b c : LoadCase} {u v : List UInt8}

def fed (c : LoadCase) : List UInt8 :=
  wordBytes (.ofNat c.size) ++ c.fingerprint.flatMap fun e => nameBytes e.1 ++ wordBytes e.2

theorem fingerprint_injective (h : a.fingerprint = b.fingerprint) : a = b := by
  have hterm : Function.Injective fun e : String × Float => (e.1, e.2.toBits) := by
    rintro ⟨n, x⟩ ⟨m, y⟩ heq
    obtain ⟨hname, hbits⟩ := Prod.mk.inj heq
    exact Prod.ext hname (Float.toBits_inj.mp hbits)
  exact ext_entries (List.map_injective_iff.mpr hterm h)

theorem termBytes_append_inj {d e : String × UInt64}
    (h : nameBytes d.1 ++ wordBytes d.2 ++ u = nameBytes e.1 ++ wordBytes e.2 ++ v) :
    d = e ∧ u = v := by
  rw [List.append_assoc, List.append_assoc] at h
  obtain ⟨hname, hrest⟩ := nameBytes_append_inj h
  obtain ⟨hword, huv⟩ := wordBytes_append_inj hrest
  exact ⟨Prod.ext hname hword, huv⟩

theorem flatMap_termBytes_injective {ds es : List (String × UInt64)}
    (h : (ds.flatMap fun e => nameBytes e.1 ++ wordBytes e.2) =
      es.flatMap fun e => nameBytes e.1 ++ wordBytes e.2) : ds = es := by
  have hne (e : String × UInt64) (r : List UInt8) :
      [] ≠ nameBytes e.1 ++ wordBytes e.2 ++ r := by simp [nameBytes]
  induction ds generalizing es with
  | nil =>
    cases es with
    | nil => rfl
    | cons e es => exact absurd h (hne e _)
  | cons d ds ih =>
    cases es with
    | nil => exact absurd h.symm (hne d _)
    | cons e es =>
      obtain ⟨rfl, hrest⟩ := termBytes_append_inj h
      rw [ih hrest]

theorem fed_injective (h : a.fed = b.fed) : a = b :=
  fingerprint_injective (flatMap_termBytes_injective (wordBytes_append_inj h).2)

theorem agrees_iff_eq (h : ¬ a.HasNaN) : a.agrees b = true ↔ a = b := by
  refine ⟨eq_of_agrees, ?_⟩
  rintro rfl
  exact comparable_iff.mpr h

theorem ne_zero (c : LoadCase) : ∀ e ∈ c.entries, e.2 ≠ 0 ∧ e.2 ≠ -0 := by
  intro e he
  have hzero := c.nonzero e he
  constructor
  · intro heq
    rw [heq] at hzero
    exact absurd hzero (by decide)
  · intro heq
    rw [heq] at hzero
    exact absurd hzero (by decide)

end LoadCase

namespace Alternative

variable {a b : Alternative}

/-- A constant that equals zero is the zero without a sign. -/
def Unsigned (a : Alternative) : Prop := (a.constant == 0) = true → a.constant = 0

theorem unsigned_unsignedZero (x : Float) (c : LoadCase) : Unsigned ⟨unsignedZero x, c⟩ := by
  intro h
  change (unsignedZero x == 0) = true at h
  change unsignedZero x = 0
  unfold unsignedZero at h ⊢
  split
  · rfl
  · rename_i hne
    rw [if_neg hne] at h
    exact absurd h hne

theorem stable_unsigned : Stable Unsigned :=
  ⟨fun x => unsigned_unsignedZero x _, fun _ _ _ => unsigned_unsignedZero _ _,
    fun _ _ _ _ => unsigned_unsignedZero _ _⟩

theorem unsigned_iff : a.Unsigned ↔ a.constant ≠ -0 := by
  constructor
  · intro h heq
    have hzero : a.constant = 0 := h (by rw [heq]; decide)
    exact absurd (heq.symm.trans hzero) (by decide)
  · intro h hzero
    exact (eq_zero_cases hzero).resolve_right h

/-- What is built of numbers and load cases by any operations. -/
inductive Built : Alternative → Prop
  | scalar (x : Float) : Built (scalar x)
  | load (c : LoadCase) : Built (load c)
  | scaled {a : Alternative} (ha : Built a) (k : Float) : Built (a.scaled k)
  | merged {a b : Alternative} (ha : Built a) (hb : Built b) : Built (a.merged b)
  | product {a b p : Alternative} (ha : Built a) (hb : Built b) (h : a.product? b = some p) :
    Built p

theorem Built.unsigned (h : Built a) : a.Unsigned := by
  induction h with
  | scalar x => exact stable_unsigned.scalar x
  | load c => exact fun _ => rfl
  | scaled _ k ih => exact stable_unsigned.scaled _ k ih
  | merged _ _ iha ihb => exact stable_unsigned.merged _ _ iha ihb
  | product _ _ h iha ihb => exact stable_unsigned.product iha ihb h

def fed (a : Alternative) : List UInt8 := wordBytes a.fingerprint.1 ++ a.case.fed

theorem ext_constant_case (hconstant : a.constant = b.constant) (hcase : a.case = b.case) :
    a = b := by
  cases a
  cases b
  cases hconstant
  cases hcase
  rfl

theorem fed_injective (h : a.fed = b.fed) : a = b := by
  obtain ⟨hword, hcase⟩ := wordBytes_append_inj h
  have hconstant : a.constant = b.constant := Float.toBits_inj.mp hword
  exact ext_constant_case hconstant (LoadCase.fed_injective hcase)

/-- Equal alternatives are the same if neither has a negative zero. -/
theorem eq_of_agrees (ha : a.Unsigned) (hb : b.Unsigned) (h : a.agrees b = true) : a = b := by
  obtain ⟨hconstant, hcase⟩ := Bool.and_eq_true_iff.mp h
  rw [unsigned_iff] at ha hb
  -- equal numbers are the same, or they are the two zeros, one of which is negative
  obtain ⟨_, _, heq | ⟨_, hneg⟩ | ⟨hneg, _⟩⟩ := Float.beq_iff_ne_nan_and_eq.mp hconstant
  · exact ext_constant_case heq (LoadCase.eq_of_agrees hcase)
  · exact absurd hneg hb
  · exact absurd hneg ha

theorem agrees_iff_eq (ha : a.Unsigned) (hb : b.Unsigned) (hnum : ¬ a.HasNaN) :
    a.agrees b = true ↔ a = b := by
  refine ⟨eq_of_agrees ha hb, ?_⟩
  rintro rfl
  exact comparable_iff.mpr hnum

/-- No operation leaves a negative zero among the numbers of an alternative, and no coefficient is
zero. So alternatives and load cases without a NaN are equal exactly if they are hashed by the same
bytes, and the removal of repetitions from them is exact. -/
theorem hashing_exact :
    (∀ a, Built a → a.constant ≠ -0 ∧ ∀ e ∈ a.case.entries, e.2 ≠ 0 ∧ e.2 ≠ -0) ∧
    HashesExactly agrees fed distinct (fun a => Built a ∧ ¬ a.HasNaN) ∧
    HashesExactly LoadCase.agrees LoadCase.fed LoadCase.distinct (fun c => ¬ c.HasNaN) := by
  refine ⟨fun a ha => ⟨unsigned_iff.mp ha.unsigned, a.case.ne_zero⟩, ?_, ?_⟩
  · exact .of_injective fed_injective fun a b ha hb =>
      agrees_iff_eq ha.1.unsigned hb.1.unsigned ha.2
  · exact .of_injective LoadCase.fed_injective fun a b ha _ => LoadCase.agrees_iff_eq ha

/-- A product with a load that cancels out, whose number would be the negative zero. -/
theorem hashing_exact_of_cancelled : ∃ p,
    (scalar (-2)).product? (load ((LoadCase.single "g" 1).add "g" (-1))) = some p ∧
    (Built p ∧ ¬ p.HasNaN) ∧ (Built (scalar (-0)) ∧ ¬ (scalar (-0)).HasNaN) ∧
    p.constant ≠ -0 ∧ p.agrees (scalar (-0)) = true ∧ p.fed = (scalar (-0)).fed ∧
    distinct [p, scalar (-0), p] = firsts agrees [p, scalar (-0), p] ∧
    distinct (distinct [p, scalar (-0), p]) = [p] := by
  have hp : (scalar (-2)).product? (load ((LoadCase.single "g" 1).add "g" (-1))) =
      some (scalar (-0)) := by decide +kernel
  have hbuilt : Built (scalar (-0)) := .product (.scalar (-2)) (.load _) hp
  have hnum : ¬ (scalar (-0)).HasNaN := comparable_iff.mp (by decide)
  have hall : ∀ a ∈ [scalar (-0), scalar (-0), scalar (-0)], Built a ∧ ¬ a.HasNaN := by
    simp [hbuilt, hnum]
  obtain ⟨hconstant, hexact, _⟩ := hashing_exact
  have hagrees : (scalar (-0)).agrees (scalar (-0)) = true := by decide
  refine ⟨scalar (-0), hp, ⟨hbuilt, hnum⟩, ⟨hbuilt, hnum⟩, (hconstant _ hbuilt).1, hagrees,
    (hexact.agrees_iff _ _ ⟨hbuilt, hnum⟩ ⟨hbuilt, hnum⟩).mp hagrees, hexact.distinct_eq _ hall, ?_⟩
  rw [hexact.distinct_distinct _ hall, hexact.distinct_eq _ hall]
  decide

end Alternative

end DesignLoads
