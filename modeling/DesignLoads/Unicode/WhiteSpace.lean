/-! White space and the parts of a text: what is left without white space at its ends, its lines, and
what stands between separators. -/

namespace DesignLoads.Unicode

def inRanges (ranges : List (Nat × Nat)) (n : Nat) : Bool :=
  ranges.any fun (first, last) => first ≤ n && n ≤ last

/-- The ranges of code points with the property White_Space. -/
def whiteSpaceRanges : List (Nat × Nat) := [
  (0x9, 0xd), (0x20, 0x20), (0x85, 0x85), (0xa0, 0xa0), (0x1680, 0x1680), (0x2000, 0x200a),
  (0x2028, 0x2029), (0x202f, 0x202f), (0x205f, 0x205f), (0x3000, 0x3000)]

def isWhiteSpace (c : Char) : Bool := inRanges whiteSpaceRanges c.toNat

/-- Of the characters of ASCII, only controls and the space are white. -/
theorem isWhiteSpace_of_ascii {c : Char} (hlow : 0x20 < c.toNat) (hhigh : c.toNat < 0x80) :
    isWhiteSpace c = false := by
  have hranges : ∀ r ∈ whiteSpaceRanges, r.2 ≤ 0x20 ∨ 0x80 ≤ r.1 := by decide
  rw [isWhiteSpace, inRanges, List.any_eq_false]
  intro r hr
  have hr := hranges r hr
  simp only [Bool.and_eq_true, decide_eq_true_eq, not_and, Nat.not_le]
  omega

def trimStart (cs : List Char) : List Char := cs.dropWhile isWhiteSpace

theorem trimStart_cons {c : Char} (h : isWhiteSpace c = false) (cs : List Char) :
    trimStart (c :: cs) = c :: cs := by
  rw [trimStart, List.dropWhile_cons, h]
  rfl

/-- A text without white space is left as it is. -/
theorem trimStart_append {cs rest : List Char} (hne : cs ≠ [])
    (h : ∀ c ∈ cs, isWhiteSpace c = false) : trimStart (cs ++ rest) = cs ++ rest := by
  cases cs with
  | nil => exact absurd rfl hne
  | cons c cs => exact trimStart_cons (h c List.mem_cons_self) _

def trim (cs : List Char) : List Char := (trimStart (trimStart cs).reverse).reverse

def byteLength (cs : List Char) : Nat := cs.foldl (fun n c => n + c.utf8Size) 0

theorem byteLength_append (cs ds : List Char) :
    byteLength (cs ++ ds) = byteLength cs + byteLength ds := by
  have hshift : ∀ (ds : List Char) (n : Nat),
      ds.foldl (fun n c => n + c.utf8Size) n = n + byteLength ds := by
    intro ds
    induction ds with
    | nil => exact fun n => rfl
    | cons d ds ih =>
      intro n
      rw [byteLength, List.foldl_cons, List.foldl_cons, ih, ih, Nat.zero_add, Nat.add_assoc]
  rw [byteLength, List.foldl_append, hshift]
  rfl

end DesignLoads.Unicode

namespace DesignLoads

/-- The lines of a text when the characters in `line`, backwards, are the beginning of the first. A
line ends in a line feed, with or without a carriage return before it; the last one may lack it. -/
def splitLines (line : List Char) : List Char → List (List Char)
  | [] => if line.isEmpty then [] else [line.reverse]
  | c :: cs =>
    if c = '\n' then
      let line := match line with
        | '\r' :: line => line
        | line => line
      line.reverse :: splitLines [] cs
    else splitLines (c :: line) cs

def lines (text : String) : List String := (splitLines [] text.toList).map String.ofList

def splitAtEach (separator : Char) : List Char → List (List Char)
  | [] => [[]]
  | c :: cs =>
    if c = separator then [] :: splitAtEach separator cs
    else match splitAtEach separator cs with
      | p :: ps => (c :: p) :: ps
      | [] => [[c]]

end DesignLoads
