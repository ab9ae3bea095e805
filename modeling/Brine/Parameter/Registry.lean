import Brine.Parameter.Builtin

namespace Brine

def ParameterType.positions (types : List ParameterType) : List (String × Nat) :=
  (types.map ParameterType.name).zipIdx.reverse

structure Registry where
  types : List ParameterType := ParameterType.builtins
  /-- Where the type of a name is in the list; of several entries for a name, the first counts. -/
  index : List (String × Nat) := ParameterType.positions types

namespace Registry

def empty : Registry :=
  { types := [] }

def insert (r : Registry) (t : ParameterType) : Registry where
  types := r.types ++ [t]
  index := (t.name, r.types.length) :: r.index

def get? (r : Registry) (name : String) : Option ParameterType := do
  let position ← r.index.lookup name
  r.types[position]?

def lookup (r : Registry) (name : String) : Except ParameterError ParameterType :=
  match r.get? name with
  | some t => .ok t
  | none => .error (.unknown name)

/-- The type of a group with this pattern: the first preferred one that has it, or else the first
one. -/
def lookupByRegexp (r : Registry) (source : String) : Option ParameterType :=
  let candidates := r.types.filter (·.hasRegexp source)
  candidates.find? (·.preferred) <|> candidates.head?

def isIllegalInName (c : Char) : Bool :=
  c ∈ ['\x7b', '\x7d', '(', ')', '\\', '/'] || Text.isBlank c

/-- Names are not empty and have no illegal characters. -/
def checkName (name : String) : Except ParameterError Unit :=
  if name.isEmpty then .error (.invalidName name ' ')
  else
    match name.toList.find? isIllegalInName with
    | some c => .error (.invalidName name c)
    | none => .ok ()

section
variable [Regex.Engine]

def checkRegexps (name : String) (regexps : List String) : Except ParameterError Unit :=
  if regexps.isEmpty then .error (.invalidRegex name "" "at least one regex is required")
  else regexps.forM fun regexp =>
    match Regex.compile regexp.toList with
    | .ok _ => .ok ()
    | .error e => .error (.invalidRegex name regexp e.message)

def check (t : ParameterType) : Except ParameterError Unit := do
  checkName t.name
  checkRegexps t.name t.regexps

/-- What is done to a registry in place: what has been done by then stays when it fails. -/
abbrev Action := ExceptT ParameterError (StateM Registry)

def store (t : ParameterType) : Action Unit := do
  check t
  let r ← get
  if (r.index.lookup t.name).isSome then throw (.duplicate t.name)
  set (r.insert t)

/-- Adds a type unless its name is taken, and says whether it has. -/
def storeOrKeep (t : ParameterType) : Action Bool :=
  tryCatch (do store t; pure true) fun
    | .duplicate _ => pure false
    | e => throw e

def define (r : Registry) (t : ParameterType) : Except ParameterError Registry :=
  match store t r with
  | (.ok (), r) => .ok r
  | (.error e, _) => .error e

def defineOrKeep (r : Registry) (t : ParameterType) : Except ParameterError (Bool × Registry) :=
  match storeOrKeep t r with
  | (.ok stored, r) => .ok (stored, r)
  | (.error e, _) => .error e

end

end Registry

end Brine
