import DesignLoads.Regex.Basic

/-! The search for a match by partial derivatives: what may follow one character is a finite choice
of expressions. -/

namespace DesignLoads

/-- The place between two neighbouring characters, or at an end of a text. -/
structure Gap where
  before : Option Char
  after : Option Char

/-- Whether a place where a word is before it, after it, both or neither is such an edge. -/
def WordEdge.holds (before after : Bool) : WordEdge → Bool
  | boundary => before != after
  | noBoundary => before == after
  | start => !before && after
  | finish => before && !after
  | startHalf => !before
  | finishHalf => !after

def Anchor.holds (g : Gap) : Anchor → Bool
  | textStart => g.before.isNone
  | textEnd => g.after.isNone
  | lineStart crlf =>
    g.before.all (· = '\n') || (crlf && g.before.all (· = '\r') && !g.after.any (· = '\n'))
  | lineEnd crlf =>
    if crlf then g.after.all (· = '\r') || (g.after.all (· = '\n') && !g.before.any (· = '\r'))
    else g.after.all (· = '\n')
  | word ascii edge =>
    let inWord (c : Char) := Unicode.isWord c && (!ascii || c.toNat < 0x80)
    edge.holds (g.before.any inWord) (g.after.any inWord)

namespace Regex

/-- Whether the empty text at a place matches. -/
def nullable (g : Gap) : Regex → Bool
  | empty => true
  | anchor a => a.holds g
  | rep least _ _ r => least == 0 || r.nullable g
  | group _ r => r.nullable g
  | seq r s => r.nullable g && s.nullable g
  | alt r s => r.nullable g || s.nullable g
  | _ => false

/-- One expression after the other; the empty one is left out. -/
def andThen (r s : Regex) : Regex := if r = empty then s else seq r s

/-- The expressions one of which has to match the rest of a text for the whole to match, where `c`
is the first character and `g` the place before it. Repetitions that match the empty text may all be
used up there. -/
def derivatives (g : Gap) (c : Char) : Regex → List Regex
  | literal d ds =>
    if c = d then
      match ds with
      | [] => [empty]
      | e :: es => [literal e es]
    else []
  | set s => if s.contains c then [empty] else []
  | rep least most greedy r =>
    if most = some 0 then []
    else
      let rest := rep (if r.nullable g then 0 else least - 1) (most.map (· - 1)) greedy r
      (r.derivatives g c).map (andThen · rest)
  | group _ r => r.derivatives g c
  | seq r s =>
    (r.derivatives g c).map (andThen · s) ++ if r.nullable g then s.derivatives g c else []
  | alt r s => r.derivatives g c ++ s.derivatives g c
  | _ => []

/-- Whether `r` matches from some place of a text on, or one of `live` matches at its head. -/
def search (r : Regex) (live : List Regex) (before : Option Char) : List Char → Bool
  | [] => (r :: live).any (nullable ⟨before, none⟩)
  | c :: cs =>
    let g : Gap := ⟨before, some c⟩
    let live := r :: live
    live.any (nullable g) ||
      search r (live.flatMap (derivatives g c)).eraseDups (some c) cs

def found (r : Regex) (text : String) : Bool := r.search [] none text.toList

end Regex

end DesignLoads
