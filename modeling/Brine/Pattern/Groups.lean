namespace Brine.Pattern

/-- A capturing group: its number, the text between its parentheses without its name, and how many
capturing groups are around it. -/
structure Group where
  index : Nat
  source : String
  depth : Nat
deriving DecidableEq, Repr

/-- A group whose end has not been found: for a capturing group its number and the text of the
pattern from where its body starts. -/
abbrev OpenGroup := Option (Nat × List Char)

def isCapturing : List Char → Bool
  | '?' :: 'P' :: '<' :: _ => true
  | '?' :: '<' :: c :: _ => c ≠ '=' && c ≠ '!'
  | ['?', '<'] => true
  | '?' :: _ => false
  | _ => true

/-- The body of a group, given the text after its parenthesis: a name in angle brackets is left
out. -/
def groupBody (rest : List Char) : List Char :=
  let named :=
    match rest with
    | '?' :: 'P' :: '<' :: _ | '?' :: '<' :: _ => true
    | _ => false
  match named, rest.dropWhile (· ≠ '>') with
  | true, _ :: body => body
  | _, _ => rest

def afterClassOpen (rest : List Char) : List Char :=
  let rest :=
    match rest with
    | '^' :: rest => rest
    | rest => rest
  match rest with
  | ']' :: rest => rest
  | rest => rest

def setSource (index : Nat) (source : String) (groups : List Group) : List Group :=
  groups.map fun g => if g.index = index then { g with source } else g

/-- What the scan remembers: the groups so far, the open ones, innermost first, and how many classes
are open. -/
structure Scan where
  groups : List Group := []
  stack : List OpenGroup := []
  classDepth : Nat := 0

def Scan.openGroup (s : Scan) (rest : List Char) : Scan :=
  if isCapturing rest then
    let index := s.groups.length + 1
    let depth := (s.stack.filter Option.isSome).length
    { s with groups := s.groups ++ [⟨index, "", depth⟩],
             stack := some (index, groupBody rest) :: s.stack }
  else { s with stack := none :: s.stack }

def Scan.closeGroup (s : Scan) (rest : List Char) : Scan :=
  match s.stack with
  | [] => s
  | none :: stack => { s with stack }
  | some (index, body) :: stack =>
    let source := body.take (body.length - rest.length)
    { s with groups := setSource index (String.ofList source) s.groups, stack }

def scanGroups : Nat → Scan → List Char → Scan
  | 0, s, _ => s
  | _, s, [] => s
  | n + 1, s, c :: rest =>
    if c = '\\' then scanGroups n s rest.tail
    else if c = '[' then
      scanGroups n { s with classDepth := s.classDepth + 1 } (afterClassOpen rest)
    else if c = ']' && 0 < s.classDepth then
      scanGroups n { s with classDepth := s.classDepth - 1 } rest
    else if c = '(' && s.classDepth = 0 then scanGroups n (s.openGroup rest) rest
    else if c = ')' && s.classDepth = 0 then scanGroups n (s.closeGroup (c :: rest)) rest
    else scanGroups n s rest

def groups (pattern : List Char) : List Group :=
  (scanGroups pattern.length {} pattern).groups

end Brine.Pattern
