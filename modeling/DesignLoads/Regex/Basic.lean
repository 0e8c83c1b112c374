import DesignLoads.Regex.CharSet

/-! Regular expressions in a simplified form, which the functions below keep: a text is in one
piece, what follows one after the other and what is a choice are chains to the right, and neither
holds what says nothing. -/

namespace DesignLoads

/-- A place where a word may begin or end. -/
inductive WordEdge where
  | boundary
  | noBoundary
  | start
  | finish
  | startHalf
  | finishHalf
deriving DecidableEq

/-- What a regular expression asks of a place. Lines end in a line feed, or with `crlf` also in a
carriage return or both. Words may be those of ASCII alone. -/
inductive Anchor where
  | textStart
  | textEnd
  | lineStart (crlf : Bool)
  | lineEnd (crlf : Bool)
  | word (ascii : Bool) (edge : WordEdge)
deriving DecidableEq

inductive Regex where
  | empty
  /-- No text matches. -/
  | never
  | literal (first : Char) (rest : List Char)
  | set (members : CharSet)
  | anchor (what : Anchor)
  /-- At least `least` times, and at most `most` times if there is a bound. As often as possible
  comes first if it is greedy. -/
  | rep (least : Nat) (most : Option Nat) (greedy : Bool) (inner : Regex)
  | group (index : Nat) (inner : Regex)
  | seq (first rest : Regex)
  | alt (first rest : Regex)
deriving DecidableEq

namespace Regex

/-- What has to match one after the other. -/
def parts : Regex → List Regex
  | empty => []
  | seq r s => r :: s.parts
  | r => [r]

/-- What there is to choose from. -/
def choices : Regex → List Regex
  | alt r s => r :: s.choices
  | r => [r]

def matchesEmptyOnly : Regex → Bool
  | empty => true
  | anchor _ => true
  | rep _ _ _ r => r.matchesEmptyOnly
  | group _ r => r.matchesEmptyOnly
  | seq r s => r.matchesEmptyOnly && s.matchesEmptyOnly
  | alt r s => r.matchesEmptyOnly && s.matchesEmptyOnly
  | _ => false

def ofSet (s : CharSet) : Regex :=
  match s.ranges with
  | [] => never
  | [(a, b)] => if a = b then literal (Char.ofNat a) [] else set s
  | _ => set s

/-- Parts with the texts that follow one another in one piece. -/
def joinLiterals : List Regex → List Regex
  | [] => []
  | literal c cs :: rs =>
    match joinLiterals rs with
    | literal d ds :: rs => literal c (cs ++ d :: ds) :: rs
    | rs => literal c cs :: rs
  | r :: rs => r :: joinLiterals rs

def chain : List Regex → Regex
  | [] => empty
  | [r] => r
  | r :: rs => seq r (chain rs)

def concat (rs : List Regex) : Regex := chain (joinLiterals (rs.flatMap parts))

/-- An expression repeated. What matches the empty text alone is not worth more than one time. -/
def repeated (least : Nat) (most : Option Nat) (greedy : Bool) (r : Regex) : Regex :=
  let (least, most) :=
    if r.matchesEmptyOnly then (min least 1, some (min (most.getD 1) 1)) else (least, most)
  if least = 0 ∧ most = some 0 then empty
  else if least = 1 ∧ most = some 1 then r
  else rep least most greedy r

/-- The code point of a text of one character. -/
def single? : Regex → Option Nat
  | literal c [] => some c.toNat
  | _ => none

/-- The characters of an expression that is a set of them. -/
def members? : Regex → Option CharSet
  | never => some .none
  | set s => some s
  | _ => none

/-- The parts with which both of two lists begin. -/
def commonParts : List Regex → List Regex → List Regex
  | r :: rs, s :: ss => if r = s then r :: commonParts rs ss else []
  | _, _ => []

/-- The parts with which all of some chains begin. There are none if one of them is no chain. -/
def sharedParts : List Regex → List Regex
  | [] => []
  | r :: rs =>
    let isChain (r : Regex) := 2 ≤ r.parts.length
    if isChain r && rs.all isChain then rs.foldl (fun ps s => commonParts ps s.parts) r.parts
    else []

def choice : List Regex → Regex
  | [] => never
  | [r] => r
  | r :: rs => alt r (choice rs)

/-- One of some expressions. Single characters make a set, sets make one set, and what all choices
begin with is written once. -/
def alternationWithin : Nat → List Regex → Regex
  | 0, rs => choice rs
  | depth + 1, rs =>
    let rs := rs.flatMap choices
    if rs.length ≤ 1 then choice rs
    else match rs.mapM single? with
      | some ns => ofSet (.ofPoints ns)
      | none =>
        match rs.mapM members? with
        | some ss => ofSet (.ofRanges (ss.flatMap CharSet.ranges))
        | none =>
          match sharedParts rs with
          | [] => choice rs
          | ps =>
            let rest := rs.map fun r => chain (r.parts.drop ps.length)
            concat (ps ++ [alternationWithin depth rest])

/-- One of some expressions. Each time that they begin alike, the first of them gets shorter. -/
def alternation (rs : List Regex) : Regex :=
  alternationWithin (((rs.flatMap choices).headD never).parts.length + 1) rs

end Regex

end DesignLoads
