/-! The bytes of characters in UTF-8, and the ranges of bytes that spell a range of characters. -/

namespace DesignLoads.Unicode

def utf8 (n : Nat) : List Nat :=
  if n < 0x80 then [n]
  else if n < 0x800 then [0xc0 + n / 64, 0x80 + n % 64]
  else if n < 0x10000 then [0xe0 + n / 4096, 0x80 + n / 64 % 64, 0x80 + n % 64]
  else [0xf0 + n / 262144, 0x80 + n / 4096 % 64, 0x80 + n / 64 % 64, 0x80 + n % 64]

/-- Where the number of bytes changes, and where the code points that are no characters begin and
end. -/
def encodingBoundaries : List Nat := [0x80, 0x800, 0xd800, 0xe000, 0x10000]

/-- How many code points differ in the last byte, the last two or the last three bytes alone. -/
def blockSizes : List Nat := [64, 4096, 262144]

/-- Where a range from `first` to `last` reaches from one block of size `w` into another and fills
one of the two in part alone. -/
def blockCut? (first last w : Nat) : Option Nat :=
  if first / w = last / w then none
  else if first % w ≠ 0 then some ((first / w + 1) * w)
  else if last % w ≠ w - 1 then some (last / w * w)
  else none

/-- The code point at which a range has to be cut for each byte to have a range of its own. -/
def encodingCut? (first last : Nat) : Option Nat :=
  match encodingBoundaries.find? fun b => first < b && b ≤ last with
  | some b => some b
  | none => if last < 0x80 then none else blockSizes.findSome? (blockCut? first last)

theorem blockCut?_bounds {first last w m : Nat} (hle : first ≤ last) (hw : 0 < w)
    (h : blockCut? first last w = some m) : first < m ∧ m ≤ last := by
  have hblocks : first / w ≤ last / w := Nat.div_le_div_right hle
  have hfirst : first < (first / w + 1) * w := by
    rw [Nat.mul_comm]; exact Nat.lt_mul_div_succ first hw
  have hlast : last / w * w ≤ last := Nat.div_mul_le_self last w
  have hnext (hne : ¬ first / w = last / w) : (first / w + 1) * w ≤ last / w * w :=
    Nat.mul_le_mul_right w (by omega)
  unfold blockCut? at h
  split at h
  · simp at h
  · rename_i hne
    have := hnext hne
    split at h
    · cases h; omega
    · split at h
      · cases h; omega
      · simp at h

theorem encodingCut?_bounds {first last m : Nat} (hle : first ≤ last)
    (h : encodingCut? first last = some m) : first < m ∧ m ≤ last := by
  unfold encodingCut? at h
  split at h
  · rename_i b hb
    cases h
    simpa using List.find?_some hb
  · split at h
    · simp at h
    · obtain ⟨w, hw, hm⟩ := List.exists_of_findSome?_eq_some h
      refine blockCut?_bounds hle ?_ hm
      simp only [blockSizes, List.mem_cons, List.not_mem_nil, or_false] at hw
      omega

/-- The spellings of the characters from `first` to `last` in ascending order, each a range for
every byte. -/
def byteRanges (first last : Nat) : List (List (Nat × Nat)) :=
  if hle : first ≤ last then
    match h : encodingCut? first last with
    | some m =>
      have := encodingCut?_bounds hle h
      byteRanges first (m - 1) ++ byteRanges m last
    | none =>
      if 0xd800 ≤ first && last < 0xe000 then [] else [(utf8 first).zip (utf8 last)]
  else []
termination_by last - first
decreasing_by all_goals omega

end DesignLoads.Unicode
