import DesignLoads.Regex.Automaton.Sets
import DesignLoads.Regex.Basic

/-! Whether the automata of a regular expression are small enough. One reads a text forward to find
where a match ends, another one backward from there to find where it begins. -/

namespace DesignLoads.Regex.Automaton

/-! ### One of some texts

Texts that begin alike share their states, as far as the order of the choices allows. -/

/-- Texts by their first byte, without it. -/
def byFirst (texts : List (List Nat)) : List (List (List Nat)) :=
  let sorted := texts.mergeSort fun a b => a.headD 0 ≤ b.headD 0
  (sorted.splitBy fun a b => a.head? == b.head?).map (·.map List.tail)

/-- The states and slots for what is left of texts that begin alike. A text that ends closes what
has been shared so far: those behind it come second. Where all end, no state is needed. -/
def literalTree : Nat → List (List Nat) → Nat × Nat
  | 0, _ => (0, 0)
  | depth + 1, texts =>
    if texts.all List.isEmpty then (0, 0)
    else
      let ends := (texts.dropWhile List.isEmpty).countP List.isEmpty +
        if texts.headD [] = [] then 1 else 0
      let runs := texts.splitBy fun a b => a.isEmpty == b.isEmpty
      let chunks := (runs.filter fun run => run.headD [] ≠ []).map byFirst
      chunks.foldl (fun total chunk =>
        let ranges := if chunk.length = 1 then 0 else 2 * chunk.length
        chunk.foldl (fun (states, slots) rest =>
          let (s, t) := literalTree depth rest
          (states + s, slots + t)) (total.1 + 1, total.2 + 1 + ranges)) (1, ends)

def literalChoice (texts : List (List Nat)) : Nat × Nat :=
  let longest := texts.foldl (fun n text => max n text.length) 0
  let (states, slots) := literalTree (longest + 1) texts
  (states + 1, slots)

end DesignLoads.Regex.Automaton

namespace DesignLoads.Regex

/-- The number of characters of the shortest match, unless some part never matches. -/
def shortest? : Regex → Option Nat
  | empty => some 0
  | never => none
  | literal _ cs => some (cs.length + 1)
  | set _ => some 1
  | anchor _ => some 0
  | rep least _ _ r => r.shortest?.map (least * ·)
  | group _ r => r.shortest?
  | seq r s => do return (← r.shortest?) + (← s.shortest?)
  | alt r s => do return min (← r.shortest?) (← s.shortest?)

def beginsWith (a : Anchor) : Regex → Bool
  | anchor b => a = b
  | rep least _ _ r => 0 < least && r.beginsWith a
  | group _ r => r.beginsWith a
  | seq r s => r.beginsWith a || (r.matchesEmptyOnly && s.beginsWith a)
  | alt r s => r.beginsWith a && s.beginsWith a
  | _ => false

def endsWith (a : Anchor) : Regex → Bool
  | anchor b => a = b
  | rep least _ _ r => 0 < least && r.endsWith a
  | group _ r => r.endsWith a
  | seq r s => s.endsWith a || (s.matchesEmptyOnly && r.endsWith a)
  | alt r s => r.endsWith a && s.endsWith a
  | _ => false

namespace Automaton

inductive Direction where
  | forward
  | backward
deriving DecidableEq

/-- One of some choices: its piece, and its bytes if it is a text. -/
structure Branch where
  text : Option (List Nat)
  piece : Piece

/-- The piece for one of some choices. -/
def combine : List Branch → Piece
  | [] => Draft.add 2 0
  | [b] => b.piece
  | b :: c :: rest =>
    match (b :: c :: rest).mapM Branch.text with
    | some texts =>
      let (states, slots) := literalChoice texts
      Draft.add states slots
    | none => Piece.choice b.piece c.piece (rest.map Branch.piece)

/-- The choices that an expression offers. -/
def branches (direction : Direction) : Regex → List Branch
  | empty => [⟨none, Draft.add 1 0⟩]
  | never => [⟨none, Draft.add 2 0⟩]
  | literal c cs =>
    let bytes := (c :: cs).flatMap fun c => Unicode.utf8 c.toNat
    [⟨some (if direction = .forward then bytes else bytes.reverse), Draft.add bytes.length 0⟩]
  | set s =>
    if s.ranges.all fun r => r.2 < 0x80 then [⟨none, Draft.add 2 (2 * s.ranges.length)⟩]
    else
      let spellings := s.ranges.flatMap fun (a, b) => Unicode.byteRanges a b
      [⟨none, if direction = .forward then forwardSet spellings else backwardSet spellings⟩]
  | anchor _ => [⟨none, Draft.add 1 0⟩]
  | rep least most _ r =>
    let p := combine (branches direction r)
    [⟨none, p.repeated (r.shortest?.any (0 < ·)) least most⟩]
  | group _ r =>
    let p := combine (branches direction r)
    let mark : Piece := Draft.add 1 0
    [⟨none, if direction = .forward then (mark.followedBy p).followedBy mark else p⟩]
  | seq r s =>
    let p := combine (branches direction r)
    let q := combine (branches direction s)
    [⟨none, if direction = .forward then p.followedBy q else q.followedBy p⟩]
  | alt r s => branches direction r ++ branches direction s

/-- The automaton of an expression. What is not bound to an end of the text begins with a loop over
all bytes; the one that reads forward also marks where the match begins and ends. -/
def draft? (direction : Direction) (r : Regex) : Option Draft :=
  let bound := match direction with
    | .forward => r.beginsWith .textStart
    | .backward => r.endsWith .textEnd
  let start : Piece := if bound then Draft.add 1 0 else Draft.add 3 4
  let whole := combine (branches direction (if direction = .forward then group 0 r else r))
  ((start.followedBy whole).followedBy (Draft.add 1 0)) ⟨0, 0, false⟩

end Automaton

/-- Whether an expression is a choice of so many texts that they are searched for in another way. -/
def isManyLiterals (r : Regex) : Bool :=
  let isLiteral : Regex → Bool
    | literal .. => true
    | _ => false
  3000 ≤ r.choices.length && r.choices.all isLiteral

def isSmall (r : Regex) : Bool :=
  r.isManyLiterals ||
    ((Automaton.draft? .forward r).isSome && (Automaton.draft? .backward r).isSome)

end DesignLoads.Regex
