import DesignLoads.Json.Source
import Mathlib.Tactic.IntervalCases

/-! JSON strings. Every character is read back from what is written for it, whether that is the
character itself, a short escape or the number of a control character. -/

namespace DesignLoads

namespace Json

variable {c : Char}

/-- What is written for a character is read as one piece, and the piece stands for the character. -/
structure Escaped (c : Char) (p : Piece) : Prop where
  scan (rest : List Char) :
    scanPieces? (escape c ++ rest) = (scanPieces? rest).bind fun q => some (p :: q.1, q.2)
  join (ps : List Piece) : joinPieces? (p :: ps) = (joinPieces? ps).map (c :: ·)

theorem hexDigit?_digitChar {n : Nat} (h : n < 16) : hexDigit? (Nat.digitChar n) = some n := by
  interval_cases n <;> rfl

/-- A numbered character below the surrogates stands for itself. -/
theorem joinPieces?_unit {n : Nat} (h : n < 0xd800) (ps : List Piece) :
    joinPieces? (.unit n :: ps) = (joinPieces? ps).map (Char.ofNat n :: ·) := by
  have hbelow (k : Nat) : (decide (0xd800 ≤ n) && decide (n < k)) = false :=
    Bool.and_eq_false_iff.mpr (.inl (decide_eq_false (Nat.not_le.mpr h)))
  have hlow : (decide (0xdc00 ≤ n) && decide (n < 0xe000)) = false :=
    Bool.and_eq_false_iff.mpr (.inl (decide_eq_false (by omega)))
  -- what follows is looked at only if it is a numbered character, too
  have hlast (hps : ∀ m r, ps ≠ .unit m :: r) :
      joinPieces? (.unit n :: ps) = (joinPieces? ps).map (Char.ofNat n :: ·) := by
    conv_lhs => rw [joinPieces?.eq_4 _ _ hps, hbelow, if_neg Bool.false_ne_true]
  cases ps with
  | nil => exact hlast (by simp)
  | cons p ps =>
    cases p with
    | char d => exact hlast (by simp)
    | unit m => rw [joinPieces?, hbelow, hlow, if_neg Bool.false_ne_true, if_neg Bool.false_ne_true]

/-- A backslash and one more character. -/
theorem scan_short {d : Char} (hd : d ≠ 'u') (h : unescape? d = some c) (rest : List Char) :
    scanPieces? ('\x5c' :: d :: rest) =
      (scanPieces? rest).bind fun q => some (.char c :: q.1, q.2) := by
  rw [scanPieces?]
  · rw [h]
    rfl
  · intro a b c d r hu
    exact absurd hu hd

theorem scan_plain (hquote : c ≠ '\x22') (hslash : c ≠ '\x5c') (hc : ¬ c.toNat < 0x20)
    (rest : List Char) : scanPieces? (c :: rest) =
      (scanPieces? rest).bind fun q => some (.char c :: q.1, q.2) := by
  rw [scanPieces?.eq_5 _ _ hquote (fun _ _ _ _ _ h => absurd h hslash) fun _ _ h => absurd h hslash,
    if_neg (by tauto)]
  rfl

theorem scan_control (hc : c.toNat < 0x20) (rest : List Char) :
    scanPieces? ('\x5c' :: 'u' :: '0' :: '0' :: Nat.digitChar (c.toNat / 16) ::
        Nat.digitChar (c.toNat % 16) :: rest) =
      (scanPieces? rest).bind fun q => some (.unit c.toNat :: q.1, q.2) := by
  have hzero : hexDigit? '0' = some 0 := rfl
  have hhigh : hexDigit? (Nat.digitChar (c.toNat / 16)) = some (c.toNat / 16) :=
    hexDigit?_digitChar (by omega)
  have hlow : hexDigit? (Nat.digitChar (c.toNat % 16)) = some (c.toNat % 16) :=
    hexDigit?_digitChar (Nat.mod_lt _ (by decide))
  have hvalue : 4096 * 0 + 256 * 0 + 16 * (c.toNat / 16) + c.toNat % 16 = c.toNat := by omega
  rw [scanPieces?, hzero, hhigh, hlow]
  change (scanPieces? rest).bind (fun q =>
    some (.unit (4096 * 0 + 256 * 0 + 16 * (c.toNat / 16) + c.toNat % 16) :: q.1, q.2)) = _
  rw [hvalue]

def shortEscapes : List Char := ['\x22', '\x5c', '\x08', '\x0c', '\n', '\r', '\t']

theorem escape_short (h : c ∈ shortEscapes) :
    ∃ d, escape c = ['\x5c', d] ∧ d ≠ 'u' ∧ unescape? d = some c := by
  revert c
  simp only [shortEscapes, List.forall_mem_cons]
  exact ⟨⟨'\x22', by decide⟩, ⟨'\x5c', by decide⟩, ⟨'b', by decide⟩, ⟨'f', by decide⟩,
    ⟨'n', by decide⟩, ⟨'r', by decide⟩, ⟨'t', by decide⟩, by simp⟩

theorem escape_long (h : c ∉ shortEscapes) : escape c =
    if c.toNat < 0x20 then
      ['\x5c', 'u', '0', '0', Nat.digitChar (c.toNat / 16), Nat.digitChar (c.toNat % 16)]
    else [c] := by
  simp only [shortEscapes, List.mem_cons, List.not_mem_nil, or_false, not_or] at h
  obtain ⟨hquote, hslash, hback, hfeed, hline, hreturn, htab⟩ := h
  rw [escape, if_neg hquote, if_neg hslash, if_neg hback, if_neg hfeed, if_neg hline,
    if_neg hreturn, if_neg htab]

theorem exists_escaped (c : Char) : ∃ p, Escaped c p := by
  by_cases hshort : c ∈ shortEscapes
  · obtain ⟨d, hc, hd, hback⟩ := escape_short hshort
    refine ⟨.char c, fun rest => ?_, fun ps => rfl⟩
    rw [hc]
    exact scan_short hd hback rest
  have hlong := escape_long hshort
  by_cases hcontrol : c.toNat < 0x20
  · rw [if_pos hcontrol] at hlong
    refine ⟨.unit c.toNat, fun rest => ?_, fun ps => ?_⟩
    · rw [hlong]
      exact scan_control hcontrol rest
    · rw [joinPieces?_unit (by omega), Char.ofNat_toNat]
  · rw [if_neg hcontrol] at hlong
    refine ⟨.char c, fun rest => ?_, fun ps => rfl⟩
    rw [hlong]
    have hquote : c ≠ '\x22' := fun h => hshort (h ▸ by decide)
    have hslash : c ≠ '\x5c' := fun h => hshort (h ▸ by decide)
    exact scan_plain hquote hslash hcontrol rest

theorem exists_scanPieces? (cs rest : List Char) :
    ∃ ps, scanPieces? (cs.flatMap escape ++ '\x22' :: rest) = some (ps, rest) ∧
      joinPieces? ps = some cs := by
  induction cs with
  | nil => exact ⟨[], rfl, rfl⟩
  | cons c cs ih =>
    obtain ⟨ps, hscan, hjoin⟩ := ih
    obtain ⟨p, hp⟩ := exists_escaped c
    refine ⟨p :: ps, ?_, ?_⟩
    · rw [List.flatMap_cons, List.append_assoc, hp.scan, hscan]
      rfl
    · rw [hp.join, hjoin]
      rfl

/-- A string is read back from behind its opening quote. -/
theorem scanString?_append (s : String) (rest : List Char) :
    scanString? (s.toList.flatMap escape ++ '\x22' :: rest) = some (some s, rest) := by
  obtain ⟨ps, hscan, hjoin⟩ := exists_scanPieces? s.toList rest
  rw [scanString?, hscan, Option.map_some]
  dsimp only
  rw [hjoin, Option.map_some, String.ofList_toList]

end Json

end DesignLoads
