import Brine.Expression.Token

namespace Brine.Expression

inductive Part where
  | text (text : String)
  | optional (text : String)
deriving DecidableEq, Repr

def Part.isText : Part → Bool
  | .text _ => true
  | .optional _ => false

inductive Node where
  | part (p : Part)
  | parameter (name : String) (start : Nat)
  | choice (alternatives : List (List Part))
deriving DecidableEq, Repr

/-- The node of a token; a slash has none of its own. -/
def Token.node? : Token → Option Node
  | .text t | .space t => some (.part (.text t))
  | .optional t => some (.part (.optional t))
  | .parameter name start => some (.parameter name start)
  | .slash _ => none

def Token.slash? : Token → Option Nat
  | .slash position => some position
  | _ => none

/-- The alternatives that slashes separate. They have no parameters. -/
def alternatives : List Token → Except Error (List Part × List (List Part))
  | [] => .ok ([], [])
  | .parameter _ start :: _ => .error (.parameterInAlternation start)
  | .slash _ :: rest => do
    let (first, more) ← alternatives rest
    return ([], first :: more)
  | .text t :: rest | .space t :: rest => do
    let (first, more) ← alternatives rest
    return (.text t :: first, more)
  | .optional t :: rest => do
    let (first, more) ← alternatives rest
    return (.optional t :: first, more)

/-- The slash next to the first alternative that has no literal text: the one before it, or the
first. -/
def emptyAlternative? (slashes : List Nat) (alternatives : List (List Part)) : Option Nat :=
  (alternatives.findIdx? fun parts => !parts.any Part.isText).map fun i => slashes.getD (i - 1) 0

def segmentNodes (segment : List Token) : Except Error (List Node) :=
  match segment.filterMap Token.slash? with
  | [] => .ok (segment.filterMap Token.node?)
  | slashes => do
    let (first, more) ← alternatives segment
    match emptyAlternative? slashes (first :: more) with
    | some position => .error (.emptyAlternative position)
    | none => return [.choice (first :: more)]

def nodesFrom (segment : List Token) : List Token → Except Error (List Node)
  | [] => segmentNodes segment.reverse
  | .space t :: rest => do
    let before ← segmentNodes segment.reverse
    let after ← nodesFrom [] rest
    return before ++ .part (.text t) :: after
  | t :: rest => nodesFrom (t :: segment) rest

def nodes (source : List Char) : Except Error (List Node) := do
  nodesFrom [] (← tokens source)

end Brine.Expression
