import Brine.Parameter.Registry
import Brine.Regex.Match

namespace Brine

structure Snippet where
  source : String
  names : List String
deriving DecidableEq, Repr

namespace Snippet
open Text

def isSpecial (c : Char) : Bool :=
  c ∈ ['\\', '\x7b', '\x7d', '(', ')', '/']

def escape (text : List Char) : List Char :=
  text.flatMap fun c => if isSpecial c then ['\\', c] else [c]

def isEdge (side : Option Char) : Bool :=
  side.all fun c => !isAlphanumeric c.toNat

/-- Whether a match is not empty and does not cut a word. -/
def isBounded (text : List Char) (m : Regex.Match) : Bool :=
  m.start < m.stop && isEdge (text.take m.start).getLast? && isEdge (text.drop m.stop).head?

/-- The first bounded match at or after a place, given by its start and stop. Past a match that is
not bounded the search goes on behind its first character; each round starts further on, so as many
rounds as the text has places are enough. -/
def firstBounded (regex : Regex) (text : List Char) : Nat → Nat → Option (Nat × Nat)
  | 0, _ => none
  | n + 1, place =>
    if text.length < place then none
    else
      match regex.findFrom text place with
      | none => none
      | some m =>
        if isBounded text m then some (m.start, m.stop)
        else firstBounded regex text n (m.start + 1)

structure Candidate where
  name : String
  start : Nat
  stop : Nat

def Candidate.betterThan (a b : Candidate) : Bool :=
  a.start < b.start || (a.start = b.start && b.stop < a.stop)

/-- The better of the best candidate so far and a new one. -/
def pick (best : Option Candidate) (c : Candidate) : Option Candidate :=
  match best with
  | none => some c
  | some b => if c.betterThan b then some c else some b

def best? (types : List (String × Regex)) (text : List Char) (place : Nat) : Option Candidate :=
  let candidates := types.filterMap fun (name, regex) =>
    (firstBounded regex text (text.length + 1) place).map fun (start, stop) =>
      (⟨name, start, stop⟩ : Candidate)
  candidates.foldl pick none

def candidateTypes [Regex.Engine] (registry : Registry) : List (String × Regex) :=
  (registry.types.filter (·.forSnippets)).filterMap fun t =>
    match t.regex with
    | .ok regex => some (t.name, regex)
    | .error _ => none

/-- The candidates to replace from a place on; each is not empty, so as many rounds as the text has
characters are enough. -/
def candidatesFrom (types : List (String × Regex)) (text : List Char) : Nat → Nat → List Candidate
  | 0, _ => []
  | n + 1, place =>
    match best? types text place with
    | none => []
    | some c => c :: candidatesFrom types text n c.stop

def sourceFrom (text : List Char) (place : Nat) : List Candidate → List Char
  | [] => escape (text.drop place)
  | c :: rest =>
    escape ((text.drop place).take (c.start - place)) ++
      '\x7b' :: c.name.toList ++ '\x7d' :: sourceFrom text c.stop rest

def generate [Regex.Engine] (registry : Registry) (text : String) : Snippet :=
  let text := text.toList
  let candidates := candidatesFrom (candidateTypes registry) text (text.length + 1) 0
  { source := String.ofList (sourceFrom text 0 candidates), names := candidates.map (·.name) }

end Snippet

end Brine
