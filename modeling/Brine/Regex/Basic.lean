import Brine.Regex.CharSet
import Brine.Regex.Look

namespace Brine

/-- A regular expression. Counted repetition is written out with `cat`, `opt`, `star` and `plus`. -/
inductive Regex where
  | empty
  | set (s : Regex.CharSet)
  | look (l : Regex.Look)
  | group (index : Nat) (r : Regex)
  | cat (a b : Regex)
  | alt (a b : Regex)
  | opt (greedy : Bool) (r : Regex)
  /-- Any number of times. -/
  | star (greedy : Bool) (r : Regex)
  /-- One or more times. -/
  | plus (greedy : Bool) (r : Regex)
deriving DecidableEq, Repr, Inhabited

namespace Regex

def catAll : List Regex → Regex
  | [] => empty
  | [r] => r
  | r :: rest => cat r (catAll rest)

def altAll : List Regex → Regex
  | [] => empty
  | [r] => r
  | r :: rest => alt r (altAll rest)

def atMost (greedy : Bool) (r : Regex) : Nat → Regex
  | 0 => empty
  | 1 => opt greedy r
  | n + 2 => opt greedy (cat r (atMost greedy r (n + 1)))

/-- From `low` to `high` times, or any number from `low` on. Zero times is the empty expression, and
groups inside it are gone. -/
def repeated (r : Regex) (low : Nat) (high : Option Nat) (greedy : Bool) : Regex :=
  match high with
  | none =>
    if low = 0 then star greedy r
    else catAll (List.replicate (low - 1) r ++ [plus greedy r])
  | some high =>
    if high ≤ low then catAll (List.replicate low r)
    else catAll (List.replicate low r ++ [atMost greedy r (high - low)])

/-- The indices of the capturing groups; a group that has been written out several times comes up as
often. -/
def indices : Regex → List Nat
  | empty | set _ | look _ => []
  | group index r => index :: r.indices
  | cat a b | alt a b => a.indices ++ b.indices
  | opt _ r | star _ r | plus _ r => r.indices

/-- The number of capturing groups. Groups that are repeated zero times are gone and do not
count. -/
def groupCount (r : Regex) : Nat :=
  r.indices.eraseDups.length

def nullable : Regex → Bool
  | empty | look _ | opt _ _ | star _ _ => true
  | set _ => false
  | group _ r | plus _ r => r.nullable
  | cat a b => a.nullable && b.nullable
  | alt a b => a.nullable || b.nullable

def size : Regex → Nat
  | empty | set _ | look _ => 1
  | group _ r | opt _ r | star _ r | plus _ r => r.size + 1
  | cat a b | alt a b => a.size + b.size + 1

end Regex

end Brine
