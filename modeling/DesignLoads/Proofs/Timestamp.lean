import DesignLoads.Timestamp
import DesignLoads.Proofs.Decimal.Layout

/-! The texts of points in time. Each part of a date and a time is written with a fixed number of
digits, and as many are read back. -/

namespace DesignLoads

namespace Timestamp

variable {width n : ℕ} {cs rest : List Char} {t : Timestamp}

/-! ### Digits -/

theorem isDigit_padded (width n : ℕ) : ∀ c ∈ padded width n, c.isDigit := fun c hc =>
  (List.mem_append.mp hc).elim (Decimal.isDigit_zeros _ c) (Decimal.isDigit_toDigits n c)

theorem ofDigits_padded (width n : ℕ) : Decimal.ofDigits (padded width n) = n := by
  rw [padded, Decimal.ofDigits_zeros, Decimal.ofDigits_toDigits]

theorem length_padded (hw : 0 < width) (h : n < 10 ^ width) : (padded width n).length = width := by
  have hle : (Nat.toDigits 10 n).length ≤ width := (Nat.length_toDigits_le_iff (by decide) hw).mpr h
  rw [padded, List.length_append, List.length_replicate]
  omega

theorem padded_ne_nil : padded width n ≠ [] := by simp [padded, Nat.toDigits_ne_nil]

theorem isWhiteSpace_of_isDigit {c : Char} (h : c.isDigit) : Unicode.isWhiteSpace c = false := by
  have hcode : 48 ≤ c.toNat ∧ c.toNat ≤ 57 := Char.isDigit_iff_toNat.mp h
  exact Unicode.isWhiteSpace_of_ascii (by omega) (by omega)

theorem trimStart_padded (width n : ℕ) (rest : List Char) :
    Unicode.trimStart (padded width n ++ rest) = padded width n ++ rest :=
  Unicode.trimStart_append padded_ne_nil fun c hc =>
    isWhiteSpace_of_isDigit (isDigit_padded width n c hc)

/-- As many digits are read as were written, even if more follow. -/
theorem field?_padded (hw : 0 < width) (h : n < 10 ^ width) (rest : List Char) :
    field? width (padded width n ++ rest) = some (n, rest) := by
  have hlength := length_padded hw h
  have htaken : ((padded width n ++ rest).takeWhile Char.isDigit).take width = padded width n := by
    rw [List.takeWhile_append_of_pos (isDigit_padded width n),
      List.take_append_of_le_length hlength.ge, List.take_of_length_le hlength.le]
  have hne : (padded width n).isEmpty = false := by simp [padded_ne_nil]
  rw [field?, trimStart_padded, htaken, hne, ofDigits_padded, List.drop_left]
  rfl

theorem skip?_cons {c : Char} (h : Unicode.isWhiteSpace c = false) (rest : List Char) :
    skip? c (c :: rest) = some rest := by
  rw [skip?, Unicode.trimStart_cons h]
  exact if_pos rfl

/-! ### Parts -/

theorem year?_yearChars {year : ℤ} (hleast : 0 ≤ year) (hgreatest : year ≤ 9999)
    (rest : List Char) : year? (yearChars year ++ rest) = some (year, rest) := by
  have hchars : yearChars year = padded 4 year.natAbs := by
    rw [yearChars, if_neg (by omega), if_neg (by omega)]
  have hfield : field? 4 (padded 4 year.natAbs ++ rest) = some (year.natAbs, rest) :=
    field?_padded (by decide) (by omega) rest
  have hcast : (year.natAbs : ℤ) = year := by omega
  -- years of four digits begin with a digit, and never with a sign
  have hdigit {c : Char} {r : List Char} (h : padded 4 year.natAbs ++ rest = c :: r) :
      c.isDigit := by
    have hmem : c ∈ padded 4 year.natAbs := by
      cases hds : padded 4 year.natAbs with
      | nil => exact absurd hds padded_ne_nil
      | cons d ds =>
        rw [hds] at h
        cases h
        exact List.mem_cons_self
    exact isDigit_padded 4 _ c hmem
  rw [hchars, year?, trimStart_padded]
  split
  · rename_i r hr
    exact absurd (hdigit hr) (by decide)
  · rename_i r hr
    exact absurd (hdigit hr) (by decide)
  · rw [hfield, Option.map_some]
    exact congrArg (fun y => some (y, rest)) hcast

theorem date?_chars {d : Date} (hvalid : d.isValid) (hleast : 0 ≤ d.year)
    (hgreatest : d.year ≤ 9999) (rest : List Char) :
    date? (yearChars d.year ++ '-' :: (padded 2 d.month ++ '-' :: (padded 2 d.day ++ rest))) =
      some (d, rest) := by
  simp only [Date.isValid, Bool.and_eq_true, decide_eq_true_eq] at hvalid
  -- a valid month and a valid day have two digits at most
  obtain ⟨⟨⟨⟨-, -⟩, hmonth⟩, -⟩, hday⟩ := hvalid
  have hdays : daysInMonth d.year d.month ≤ 31 := by
    unfold daysInMonth
    split
    · split <;> decide
    · split <;> decide
  have hyear := year?_yearChars hleast hgreatest
  have hmonth := field?_padded (n := d.month) two_pos (by omega)
  have hday := field?_padded (n := d.day) two_pos (by omega)
  have hskip := skip?_cons (c := '-') rfl
  simp only [date?, hyear, hskip, hmonth, hday, Option.bind_eq_bind, Option.bind_some,
    Option.pure_def]

/-- The places that a fraction leaves out are zeros. -/
theorem fraction?_digits (width k : ℕ) (hw : 0 < width) (hk : width + k = 9) (h : n < 10 ^ width) :
    fraction? ('.' :: (padded width n ++ ['Z'])) = some (n * 10 ^ k, ['Z']) := by
  have hspan : Decimal.spanDigits (padded width n ++ ['Z']) = (padded width n, ['Z']) :=
    Decimal.spanDigits_append (isDigit_padded width n) (by intro c hc; cases hc; rfl)
  -- the reader fills the digits up to nanoseconds
  have hnine : (padded width n ++ List.replicate 9 '0').take 9 =
      padded width n ++ List.replicate k '0' := by
    have hle : (padded width n).length ≤ 9 := by rw [length_padded hw h]; omega
    rw [List.take_append, length_padded hw h, List.take_of_length_le hle, List.take_replicate]
    congr 2
    omega
  rw [fraction?, hspan]
  split
  · rename_i heq
    exact absurd (Prod.ext_iff.mp heq).1 padded_ne_nil
  · rename_i heq
    cases heq
    rw [hnine, Decimal.ofDigits_append_zeros, ofDigits_padded]

theorem fraction?_fractionChars (h : n < 1000000000) :
    fraction? (fractionChars n ++ ['Z']) = some (n, ['Z']) := by
  rw [fractionChars]
  split
  · rename_i hzero
    rw [hzero]
    rfl
  split
  · rename_i hmod
    rw [List.cons_append, fraction?_digits 3 6 (by decide) (by decide) (by omega)]
    congr 2
    omega
  split
  · rw [List.cons_append, fraction?_digits 6 3 (by decide) (by decide) (by omega)]
    congr 2
    omega
  · rw [List.cons_append, fraction?_digits 9 0 (by decide) (by decide) (by omega)]
    congr 2
    omega

/-- In UTC nothing is added to the time. -/
theorem toUtc_zero (h : t.hour < 24) (hminute : t.minute < 60) : t.toUtc 0 = t := by
  obtain ⟨date, hour, minute, second, nanosecond⟩ := t
  dsimp only at h hminute
  rw [toUtc]
  dsimp only
  rw [if_neg (by omega), if_neg (by omega)]
  congr 1
  · omega
  · omega

/-- A point in time of the years 0 to 9999 is read back from its text. -/
theorem parse?_text (hvalid : t.isValid) (hleast : 0 ≤ t.date.year)
    (hgreatest : t.date.year ≤ 9999) : parse? t.text = some t := by
  have hall := hvalid
  simp only [isValid, Bool.and_eq_true, decide_eq_true_eq] at hall
  obtain ⟨⟨⟨⟨hdate, hhour⟩, hminute⟩, hsecond⟩, hnano⟩ := hall
  have hchars : t.chars = yearChars t.date.year ++ '-' :: (padded 2 t.date.month ++ '-' ::
      (padded 2 t.date.day ++ 'T' :: (padded 2 t.hour ++ ':' :: (padded 2 t.minute ++ ':' ::
        (padded 2 t.second ++ (fractionChars t.nanosecond ++ ['Z'])))))) := by
    rw [chars]
    simp only [List.append_assoc, List.cons_append]
  have hread := date?_chars hdate hleast hgreatest
  have hhours := field?_padded (n := t.hour) two_pos (by omega)
  have hminutes := field?_padded (n := t.minute) two_pos (by omega)
  have hseconds := field?_padded (n := t.second) two_pos (by omega)
  have hskip := skip?_cons (c := ':') rfl
  have hzone : offset? (Unicode.trimStart ['Z']) = some (0, []) := rfl
  have hend : (Unicode.trimStart []).isEmpty = true := rfl
  simp only [parse?, text, String.toList_ofList, hchars, hread, hhours, hminutes, hseconds, hskip,
    fraction?_fractionChars hnano, hzone, hend, toUtc_zero hhour hminute, hvalid,
    Option.bind_eq_bind, Option.bind_some]
  rfl

end Timestamp

end DesignLoads
