import Brine.Regex.Basic

namespace Brine.Regex

inductive Task where
  | run (r : Regex)
  /-- A time of a repetition is over: have another or go on. -/
  | again (greedy : Bool) (r : Regex)
  | close (index : Nat)
deriving DecidableEq

structure Mark where
  index : Nat
  closing : Bool
  place : Nat
deriving DecidableEq

/-- What is left to do, and the marks so far, latest first. -/
structure Thread where
  tasks : List Task
  marks : List Mark := []

namespace Thread

def isWaiting (t : Thread) : Bool :=
  match t.tasks with
  | [] => true
  | .run (.set _) :: _ => true
  | _ => false

/-- The threads that take the place of a thread whose next task reads no character, the preferred
ones first, at `place` between `before` and `after`. -/
def unfold (place : Nat) (before after : Option Char) (t : Thread) : List Thread :=
  let go (tasks : List Task) : Thread := ⟨tasks, t.marks⟩
  let prefer (greedy : Bool) (more less : List Task) : List Thread :=
    if greedy then [go more, go less] else [go less, go more]
  match t.tasks with
  | [] => []
  | .run r :: rest =>
    match r with
    | .empty => [go rest]
    | .set _ => []
    | .look l => if l.holds before after then [go rest] else []
    | .group index r => [⟨.run r :: .close index :: rest, ⟨index, false, place⟩ :: t.marks⟩]
    | .cat a b => [go (.run a :: .run b :: rest)]
    | .alt a b => [go (.run a :: rest), go (.run b :: rest)]
    | .opt greedy r => prefer greedy (.run r :: rest) rest
    | .star greedy r =>
      if r.nullable then prefer greedy (.run r :: .again greedy r :: rest) rest
      else [go (.again greedy r :: rest)]
    | .plus greedy r => [go (.run r :: .again greedy r :: rest)]
  | .again greedy r :: rest => prefer greedy (.run r :: .again greedy r :: rest) rest
  | .close index :: rest => [⟨rest, ⟨index, true, place⟩ :: t.marks⟩]

/-- The thread after reading `c`, if its next task accepts it. -/
def read (c : Char) (t : Thread) : Option Thread :=
  match t.tasks with
  | .run (.set s) :: rest => if s.contains c then some ⟨rest, t.marks⟩ else none
  | _ => none

end Thread

/-- Unfolds threads until each of them waits, the preferred ones first. `seen` holds the work that
has been met at this place. A thread that is done makes those after it useless. -/
def settle (place : Nat) (before after : Option Char) :
    Nat → List (List Task) → List Thread → List Thread
  | 0, _, _ => []
  | _, _, [] => []
  | n + 1, seen, t :: rest =>
    if t.tasks ∈ seen then settle place before after n seen rest
    else if t.tasks.isEmpty then [t]
    else if t.isWaiting then t :: settle place before after n (t.tasks :: seen) rest
    else settle place before after n (t.tasks :: seen) (t.unfold place before after ++ rest)

/-- A match: where it starts and stops, counted in characters, and the marks of its groups. -/
structure Match where
  start : Nat
  stop : Nat
  marks : List Mark
deriving DecidableEq

/-- Advances threads through the text that is left. `best` is the match of the preferred thread that
has finished; threads after it have been dropped. -/
def advance (effort start : Nat) :
    List Char → Nat → Option Char → List Thread → Option Match → Option Match
  | rest, place, before, threads, best =>
    let settled := settle place before rest.head? effort [] threads
    let best := ((settled.find? (·.tasks.isEmpty)).map fun t => ⟨start, place, t.marks⟩) <|> best
    match rest with
    | [] => best
    | c :: rest =>
      match settled.filterMap (·.read c) with
      | [] => best
      | threads => advance effort start rest (place + 1) (some c) threads best

/-- Enough rounds for `settle`: an expression has at most twice its size in kinds of work, each of
which is unfolded once, into two threads at most. -/
def effort (r : Regex) : Nat :=
  6 * r.size + 6

def matchHere (r : Regex) (place : Nat) (before : Option Char) (rest : List Char) : Option Match :=
  advance r.effort place rest place before [⟨[.run r], []⟩] none

def search (r : Regex) (place : Nat) (before : Option Char) : List Char → Option Match
  | [] => r.matchHere place before []
  | c :: rest =>
    match r.matchHere place before (c :: rest) with
    | some m => some m
    | none => r.search (place + 1) (some c) rest

/-- The leftmost match that starts at or after the character with index `start`. What stands before
it still counts for anchors and word boundaries. -/
def findFrom (r : Regex) (text : List Char) (start : Nat) : Option Match :=
  r.search start (text.take start).getLast? (text.drop start)

def find (r : Regex) (text : List Char) : Option Match :=
  r.findFrom text 0

/-- Where a group was last opened and closed, if it took part in the match. Group 0 is the match. -/
def Match.group? (m : Match) (index : Nat) : Option (Nat × Nat) :=
  if index = 0 then some (m.start, m.stop)
  else do
    let opened ← m.marks.find? fun k => k.index = index && !k.closing
    let closed ← m.marks.find? fun k => k.index = index && k.closing
    return (opened.place, closed.place)

end Brine.Regex
