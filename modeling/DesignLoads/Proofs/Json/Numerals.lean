import DesignLoads.Json.Source
import DesignLoads.Proofs.Decimal.Layout

/-! JSON numerals: digits without a superfluous zero in front, an optional fraction and an optional
exponent. What is written for a number is one, and is read as such wherever it stands. -/

namespace DesignLoads

namespace Json.Numeral

inductive Whole : List Char → Prop where
  | zero : Whole ['0']
  | digits {c : Char} {cs : List Char} (h : ∀ d ∈ c :: cs, d.isDigit) (hne : c ≠ '0') :
      Whole (c :: cs)

inductive Fraction : List Char → Option (List Char) → Prop where
  | none : Fraction [] none
  | digits {ds : List Char} (h : ∀ c ∈ ds, c.isDigit) (hne : ds ≠ []) :
      Fraction ('.' :: ds) (some ds)

inductive Power : List Char → Option Int → Prop where
  | none : Power [] none
  | power {cs : List Char} {e : Int} (h : Decimal.Power cs e) (hne : cs ≠ []) : Power cs (some e)

def sign (negative : Bool) : List Char := if negative then ['-'] else []

/-- A numeral and what is read from it. -/
inductive Written : List Char → Numeral → Prop where
  | intro {whole point power : List Char} {fraction : Option (List Char)} {exponent : Option Int}
      (negative : Bool) (hw : Whole whole) (hf : Fraction point fraction)
      (hp : Power power exponent) :
      Written (sign negative ++ (whole ++ (point ++ power))) ⟨negative, whole, fraction, exponent⟩

variable {cs rest whole point power : List Char} {fraction : Option (List Char)}
  {exponent : Option Int} {n : Numeral}

theorem splitMinus_append {negative : Bool} (h : ∀ c ∈ cs.head?, c.isDigit) :
    splitMinus (sign negative ++ cs) = (negative, cs) := by
  cases negative with
  | true => rfl
  | false =>
    change splitMinus cs = (false, cs)
    unfold splitMinus
    split
    · rename_i r
      exact absurd (h '-' rfl) (by decide)
    · rfl

theorem spanWhole_append (hw : Whole whole) (h : Clear Char.isDigit rest) :
    spanWhole (whole ++ rest) = (whole, rest) := by
  cases hw with
  | zero => rfl
  | @digits c cs hds hne =>
    have hspan : Decimal.spanDigits (c :: cs ++ rest) = (c :: cs, rest) :=
      Decimal.spanDigits_append hds h
    unfold spanWhole
    split
    · rename_i r hr
      exact absurd (List.cons.inj hr).1 hne
    · exact hspan

theorem scanFraction?_append (hf : Fraction point fraction)
    (h : Clear (fun c => c.isDigit || c = '.') rest) :
    scanFraction? (point ++ rest) = some (fraction, rest) := by
  cases hf with
  | none =>
    change scanFraction? rest = some (none, rest)
    unfold scanFraction?
    split
    · exact absurd (h '.' rfl) (by decide)
    · rfl
  | @digits ds hds hne =>
    have hclear : Clear Char.isDigit rest := by
      intro c hc
      have hboth := h c hc
      simp only [Bool.or_eq_false_iff] at hboth
      exact hboth.1
    rw [List.cons_append, scanFraction?, Decimal.spanDigits_append hds hclear]
    cases ds with
    | nil => exact absurd rfl hne
    | cons d ds => rfl

theorem scanPower?_append (hp : Power power exponent) (h : Clear Decimal.isNumeralTail rest) :
    scanPower? (power ++ rest) = some (exponent, rest) := by
  cases hp with
  | none =>
    change scanPower? rest = some (none, rest)
    cases rest with
    | nil => rfl
    | cons c r =>
      have htail := h c rfl
      simp only [Decimal.isNumeralTail, Decimal.isExponentLetter, Bool.or_eq_false_iff,
        decide_eq_false_iff_not] at htail
      rw [scanPower?, if_neg (by tauto)]
  | @power cs e hpower hne =>
    have hscan := Decimal.scanExponent_append hpower h
    cases hpower with
    | none => exact absurd rfl hne
    | @digits c sign ds negative hc hs hds hd =>
      have hletter : c = 'e' ∨ c = 'E' := by simpa [Decimal.isExponentLetter] using hc
      have hlength : rest.length ≠ (sign ++ ds ++ rest).length + 1 := by
        simp only [List.length_append]
        omega
      rw [List.cons_append] at hscan ⊢
      rw [scanPower?, if_pos hletter, hscan]
      exact if_neg hlength

theorem clear_power (hp : Power power exponent) (h : Clear Decimal.isNumeralTail rest) :
    Clear (fun c => c.isDigit || c = '.') (power ++ rest) := by
  cases hp with
  | none => exact Decimal.clear_power .none h
  | power hpower => exact Decimal.clear_power hpower h

theorem clear_fraction (hf : Fraction point fraction)
    (h : Clear (fun c => c.isDigit || c = '.') rest) : Clear Char.isDigit (point ++ rest) := by
  cases hf with
  | none => exact Decimal.clear_fraction .none h
  | digits hds => exact Decimal.clear_fraction (.digits hds) h

/-- A numeral is read whole, if nothing follows that might belong to a numeral. -/
theorem scan?_append (hn : Written cs n) (h : Clear Decimal.isNumeralTail rest) :
    scan? (cs ++ rest) = some (n, rest) := by
  cases hn with
  | @intro whole point power fraction exponent negative hw hf hp =>
    have hpower := clear_power hp h
    have hhead : ∀ c ∈ (whole ++ (point ++ (power ++ rest))).head?, c.isDigit := by
      cases hw with
      | zero =>
        intro c hc
        cases hc
        rfl
      | digits hds hne =>
        intro c hc
        cases hc
        exact hds _ List.mem_cons_self
    have hne : whole.isEmpty = false := by cases hw <;> rfl
    rw [scan?, List.append_assoc, List.append_assoc, List.append_assoc, splitMinus_append hhead]
    dsimp only
    rw [spanWhole_append hw (clear_fraction hf hpower)]
    dsimp only
    rw [hne, scanFraction?_append hf hpower]
    change (scanPower? (power ++ rest)).bind _ = _
    rw [scanPower?_append hp h]
    rfl

/-! ### What is written for a number -/

theorem head_toDigits (n : ℕ) (h : 0 < n) : ∀ c ∈ (Nat.toDigits 10 n).head?, c ≠ '0' := by
  induction n using Nat.strong_induction_on with
  | _ n ih =>
    rw [Nat.toDigits_eq_if (by decide)]
    split
    · rintro c hc
      cases hc
      rw [Ne, Nat.digitChar_eq_zero]
      omega
    · rename_i hge
      rw [List.head?_append_of_ne_nil _ Nat.toDigits_ne_nil]
      exact ih (n / 10) (by omega) (by omega)

/-- Digits without a superfluous zero in front. -/
theorem whole_of_digits {ds : List Char} (hds : ∀ c ∈ ds, c.isDigit) (hne : ds ≠ [])
    (hhead : ∀ c ∈ ds.head?, c ≠ '0') : Whole ds := by
  cases ds with
  | nil => exact absurd rfl hne
  | cons c cs => exact .digits hds (hhead c rfl)

theorem whole_toDigits (n : ℕ) : Whole (Nat.toDigits 10 n) := by
  obtain rfl | hpos := Nat.eq_zero_or_pos n
  · exact .zero
  · exact whole_of_digits (Decimal.isDigit_toDigits n) Nat.toDigits_ne_nil (head_toDigits n hpos)

theorem written_integer (i : Int) :
    Written (Number.integer i).chars ⟨decide (i < 0), Nat.toDigits 10 i.natAbs, none, none⟩ := by
  have hwritten := Written.intro (decide (i < 0)) (whole_toDigits i.natAbs) .none .none
  rw [List.append_nil, List.append_nil] at hwritten
  rw [Number.chars]
  split
  · rename_i hneg
    rwa [decide_eq_true hneg] at hwritten ⊢
  · rename_i hneg
    rwa [decide_eq_false hneg] at hwritten ⊢

theorem fraction_zero : Fraction ['.', '0'] (some ['0']) :=
  .digits (Decimal.isDigit_zeros 1) (by simp)

section Digits

variable {ds : List Char} (negative : Bool) (hds : ∀ c ∈ ds, c.isDigit) (hne : ds ≠ [])
  (hhead : ∀ c ∈ ds.head?, c ≠ '0')

include hds hne hhead

theorem written_point (places : Int) :
    ∃ n, Written (sign negative ++ Layout.json.point ds places) n ∧ n.fraction.isNone = false := by
  rw [Layout.point]
  split
  · -- a zero stands before the point
    have hfraction : ∀ c ∈ List.replicate (-places).toNat '0' ++ ds, c.isDigit := fun c hc =>
      (List.mem_append.mp hc).elim (Decimal.isDigit_zeros _ c) (hds c)
    have hwritten := Written.intro negative .zero (.digits hfraction (by simp [hne])) .none
    rw [List.append_nil] at hwritten
    exact ⟨_, hwritten, rfl⟩
  split
  · -- zeros fill up the places before the point, and one follows it
    generalize places.toNat - ds.length = k
    have hwhole : Whole (ds ++ List.replicate k '0') := by
      apply whole_of_digits
      · exact fun c hc => (List.mem_append.mp hc).elim (hds c) (Decimal.isDigit_zeros k c)
      · simp [hne]
      · rwa [List.head?_append_of_ne_nil _ hne]
    have hwritten := Written.intro negative hwhole fraction_zero .none
    rw [List.append_nil] at hwritten
    exact ⟨_, hwritten, rfl⟩
  · rename_i hplaces hlong
    generalize hk : places.toNat = k at hlong
    have hwhole : Whole (ds.take k) := by
      apply whole_of_digits
      · exact fun c hc => hds c (List.mem_of_mem_take hc)
      · intro hnil
        obtain hzero | hnil := List.take_eq_nil_iff.mp hnil
        · omega
        · exact hne hnil
      · rwa [List.head?_take, if_neg (by omega)]
    have hfraction : Fraction ('.' :: ds.drop k) (some (ds.drop k)) := by
      apply Fraction.digits fun c hc => hds c (List.mem_of_mem_drop hc)
      simpa using hlong
    have hwritten := Written.intro negative hwhole hfraction .none
    rw [List.append_nil] at hwritten
    exact ⟨_, hwritten, rfl⟩

theorem written_scientific (e : Int) :
    ∃ n, Written (sign negative ++ Layout.scientific ds e) n ∧ n.exponent.isNone = false := by
  have hpower : ∃ k, Power ('e' :: (if e < 0 then '-' else '+') :: Nat.toDigits 10 e.natAbs)
      (some k) := by
    split
    · exact ⟨_, .power (.digits rfl .minus (Decimal.isDigit_toDigits _) Nat.toDigits_ne_nil)
        (by simp)⟩
    · exact ⟨_, .power (.digits rfl .plus (Decimal.isDigit_toDigits _) Nat.toDigits_ne_nil)
        (by simp)⟩
  obtain ⟨k, hpower⟩ := hpower
  cases ds with
  | nil => exact absurd rfl hne
  | cons c cs =>
    have hwhole : Whole [c] := by
      have hdigit : ∀ d ∈ [c], d.isDigit := by
        intro d hd
        rw [List.mem_singleton.mp hd]
        exact hds c List.mem_cons_self
      exact whole_of_digits hdigit (by simp) hhead
    rw [Layout.scientific]
    cases cs with
    | nil =>
      have hwritten := Written.intro negative hwhole .none hpower
      exact ⟨_, hwritten, rfl⟩
    | cons d cs =>
      have hfraction : Fraction ('.' :: d :: cs) (some (d :: cs)) :=
        .digits (fun b hb => hds b (List.mem_cons_of_mem c hb)) (by simp)
      have hwritten := Written.intro negative hwhole hfraction hpower
      exact ⟨_, hwritten, rfl⟩

end Digits

theorem written_decimal (negative : Bool) {d : Decimal} (hpos : 0 < d.digits) :
    ∃ n, Written (sign negative ++ Layout.json.decimal d) n ∧
      (n.fraction.isNone && n.exponent.isNone) = false := by
  have hdigits := Decimal.isDigit_toDigits d.digits
  have hhead := head_toDigits d.digits hpos
  rw [Layout.decimal]
  split
  · obtain ⟨n, hn, hpoint⟩ := written_point negative hdigits Nat.toDigits_ne_nil hhead _
    exact ⟨n, hn, Bool.and_eq_false_iff.mpr (.inl hpoint)⟩
  · obtain ⟨n, hn, hpower⟩ := written_scientific negative hdigits Nat.toDigits_ne_nil hhead _
    exact ⟨n, hn, Bool.and_eq_false_iff.mpr (.inr hpower)⟩

/-- What is written for a finite floating-point number has a point or an exponent. -/
theorem written_real {x : Float} (hfin : x.isFinite) :
    ∃ n, Written (Number.real x).chars n ∧ (n.fraction.isNone && n.exponent.isNone) = false := by
  have hmagnitude (negative : Bool) : ∃ n,
      Written (sign negative ++ Layout.json.magnitude x) n ∧
        (n.fraction.isNone && n.exponent.isNone) = false := by
    rw [Layout.json.magnitude_of_isFinite hfin]
    split
    · have hwritten := Written.intro negative .zero fraction_zero .none
      exact ⟨_, hwritten, rfl⟩
    · rename_i hmantissa
      have hbelow : (Binary.ofFloat x).below ≤ 2 := by
        rw [Binary.ofFloat_eq]
        split
        · exact le_rfl
        · dsimp only
          split <;> decide
      exact written_decimal negative
        (Binary.digits_shortest_pos _ (Nat.pos_of_ne_zero hmantissa) hbelow)
  change ∃ n, Written (Layout.json.chars x) n ∧ _
  rw [Layout.chars]
  split
  · exact hmagnitude true
  · exact hmagnitude false

theorem Written.head (h : Written cs n) : ∃ c r, cs = c :: r ∧ (c = '-' ∨ c.isDigit) := by
  cases h with
  | intro negative hw hf hp =>
    cases negative with
    | true => exact ⟨'-', _, rfl, .inl rfl⟩
    | false =>
      cases hw with
      | zero => exact ⟨'0', _, rfl, .inr rfl⟩
      | digits hds hne => exact ⟨_, _, rfl, .inr (hds _ List.mem_cons_self)⟩

/-- An integer that fits in 64 bits is read as an integer. -/
theorem number?_integer {i : Int} (hleast : -2 ^ 63 ≤ i) (hgreatest : i < 2 ^ 64) :
    number? ⟨decide (i < 0), Nat.toDigits 10 i.natAbs, none, none⟩ = some (.integer i) := by
  have hvalue := Decimal.ofDigits_toDigits i.natAbs
  have hplain : (Option.isNone (none : Option (List Char)) && Option.isNone (none : Option Int)) =
      true := rfl
  rw [number?]
  dsimp only
  rw [if_pos hplain, hvalue]
  by_cases hneg : i < 0
  · have hsize : (decide (0 < i.natAbs) && decide (i.natAbs ≤ Nat.pow 2 63)) = true := by
      rw [Bool.and_eq_true_iff, decide_eq_true_iff, decide_eq_true_iff]
      change 0 < i.natAbs ∧ i.natAbs ≤ 2 ^ 63
      omega
    rw [if_pos (decide_eq_true hneg), if_pos hsize, ← Int.eq_neg_natAbs_of_nonpos hneg.le]
  · have hsize : i.natAbs < UInt64.size := by
      change i.natAbs < 2 ^ 64
      omega
    rw [if_neg (by simpa using hneg), if_pos hsize, ← Int.eq_natAbs_of_nonneg (by omega)]

/-- A numeral with a point or an exponent is a floating-point number, if it is in range. -/
theorem number?_of_point (h : (n.fraction.isNone && n.exponent.isNone) = false) :
    n.number? = n.real?.map .real := by
  rw [number?, h]
  rfl

end Json.Numeral

namespace Json.Number

variable {n : Number}

/-- Only finite numbers have a JSON text. -/
def Finite : Number → Prop
  | integer _ => True
  | real x => x.isFinite

def numeral (n : Number) : Numeral :=
  match Numeral.scan? n.chars with
  | some (m, _) => m
  | none => ⟨false, [], none, none⟩

theorem numeral_eq {m : Numeral} (h : Numeral.Written n.chars m) : n.numeral = m := by
  have hclear : Clear Decimal.isNumeralTail [] := by simp [Clear]
  have hscan := Numeral.scan?_append h hclear
  rw [List.append_nil] at hscan
  rw [numeral, hscan]

theorem written_numeral (h : n.Finite) : Numeral.Written n.chars n.numeral := by
  cases n with
  | integer i =>
    have hwritten := Numeral.written_integer i
    rwa [numeral_eq hwritten]
  | real x =>
    obtain ⟨m, hwritten, -⟩ := Numeral.written_real h
    rwa [numeral_eq hwritten]

theorem number?_numeral_integer {i : Int} (hleast : -2 ^ 63 ≤ i) (hgreatest : i < 2 ^ 64) :
    (integer i).numeral.number? = some (.integer i) := by
  rw [numeral_eq (Numeral.written_integer i), Numeral.number?_integer hleast hgreatest]

theorem number?_numeral_real {x : Float} (h : x.isFinite) :
    (real x).numeral.number? = (real x).numeral.real?.map .real := by
  obtain ⟨m, hwritten, hpoint⟩ := Numeral.written_real h
  rw [numeral_eq hwritten, Numeral.number?_of_point hpoint]

end Json.Number

end DesignLoads
