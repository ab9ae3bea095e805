import Brine.Regex.Token

namespace Brine.Regex

/-- A group that has been opened: its capture index if it captures, its finished branches and the
pieces of the branch being read, each list last first. A change of flags is a piece without an
expression. -/
structure OpenGroup where
  index : Option Nat := none
  branches : List Regex := []
  pieces : List (Option Regex) := []

namespace OpenGroup

def push (g : OpenGroup) (r : Regex) : OpenGroup :=
  { g with pieces := some r :: g.pieces }

def branch (g : OpenGroup) : Regex :=
  catAll (g.pieces.reverse.filterMap id)

def split (g : OpenGroup) : OpenGroup :=
  { g with branches := g.branch :: g.branches, pieces := [] }

def close (g : OpenGroup) : Regex :=
  let body := altAll (g.branch :: g.branches).reverse
  match g.index with
  | some index => .group index body
  | none => body

def repeatLast (g : OpenGroup) (low : Nat) (high : Option Nat) (greedy : Bool) :
    Except Error OpenGroup :=
  match g.pieces with
  | some r :: rest => .ok { g with pieces := some (r.repeated low high greedy) :: rest }
  | _ => .error .repetitionMissing

end OpenGroup

/-- A pattern that has been read in part: the open groups, innermost first, and the names and number
of the capturing groups so far. -/
structure Draft where
  group : OpenGroup := {}
  outer : List OpenGroup := []
  names : List String := []
  captures : Nat := 0

namespace Draft

/-- The names of groups with one more, if the group has a name. -/
def addName (names : List String) : Option String → Except Error (List String)
  | none => .ok names
  | some name =>
    if name ∈ names then .error (.groupNameRepeated name) else .ok (name :: names)

def push (d : Draft) : Token → Except Error Draft
  | .atom r => .ok { d with group := d.group.push r }
  | .flags => .ok { d with group := { d.group with pieces := none :: d.group.pieces } }
  | .bar => .ok { d with group := d.group.split }
  | .quantifier low high greedy => do
    return { d with group := ← d.group.repeatLast low high greedy }
  | .openPlain => .ok { d with group := {}, outer := d.group :: d.outer }
  | .openCapture name => do
    let names ← addName d.names name
    let captures := d.captures + 1
    return { group := { index := some captures }, outer := d.group :: d.outer, names, captures }
  | .close =>
    match d.outer with
    | [] => .error .groupUnopened
    | parent :: outer => .ok { d with group := parent.push d.group.close, outer }

def finish (d : Draft) : Except Error Regex :=
  if d.outer.isEmpty then .ok d.group.close else .error .groupUnclosed

end Draft

/-- The expression that a pattern denotes. Capturing groups are numbered from 1 in the order of
their opening parentheses. -/
def parse [Engine] (pattern : List Char) : Except Error Regex := do
  let draft ← (← tokens pattern).foldlM Draft.push {}
  draft.finish

/-- The expression that a pattern denotes, if the engine can run it. -/
def compile [Engine] (pattern : List Char) : Except Error Regex := do
  let r ← parse pattern
  if Engine.admits pattern then return r else .error .beyondLimits

def isMeta (c : Char) : Bool :=
  c ∈ ['\\', '.', '+', '*', '?', '(', ')', '|', '[', ']', '\x7b', '\x7d', '^', '$', '#', '&', '-',
    '~']

def quote (text : List Char) : List Char :=
  text.flatMap fun c => if isMeta c then ['\\', c] else [c]

end Brine.Regex
