import Brine.Regex.Escape

namespace Brine.Regex
open Text

inductive ClassOp where
  | inter
  | diff
  | symmDiff

/-- A character class that has been opened: the parts before the last operation, and the members
since. -/
structure OpenClass where
  negated : Bool
  left : Option (ClassOp × CharSet) := none
  members : CharSet := .empty

namespace OpenClass

def add (k : OpenClass) (s : CharSet) : OpenClass :=
  { k with members := .union k.members s }

def combined (f : Flags) (k : OpenClass) : CharSet :=
  match k.left with
  | none => k.members
  | some (.inter, s) => .inter (fold f s) (fold f k.members)
  | some (.diff, s) => .diff (fold f s) (fold f k.members)
  | some (.symmDiff, s) => .symmDiff (fold f s) (fold f k.members)

def operate (f : Flags) (k : OpenClass) (op : ClassOp) : OpenClass :=
  { k with left := some (op, k.combined f), members := .empty }

def close (f : Flags) (k : OpenClass) : Except Error CharSet :=
  let s := fold f (k.combined f)
  checked f (if k.negated then s.complement else s)

end OpenClass

def classNegation (f : Flags) (cs : List Char) : Bool × List Char :=
  match skip f.verbose cs with
  | '^' :: rest => (true, skip f.verbose rest)
  | cs => (false, cs)

/-- Characters at the start of a class that are members although they would have a meaning
elsewhere: hyphens, or else one closing bracket. -/
def leadingMembers (f : Flags) (k : OpenClass) (cs : List Char) : OpenClass × List Char :=
  match runOf f.verbose (· = '-') cs.length cs with
  | (_ :: _, rest) => (k.add (.single '-'), rest)
  | ([], ']' :: rest) => (k.add (.single ']'), skip f.verbose rest)
  | ([], rest) => (k, rest)

def openClass (f : Flags) (cs : List Char) : Except Error (OpenClass × List Char) :=
  let (negated, rest) := classNegation f cs
  let (k, rest) := leadingMembers f { negated } rest
  if rest.isEmpty then .error .classUnclosed else .ok (k, rest)

/-- A named ASCII class inside a class, after the colon before its name. The case variants of its
members belong to it before it is negated. -/
def namedClass? (f : Flags) (negated : Bool) (cs : List Char) : Option (CharSet × List Char) :=
  match cs.dropWhile (· ≠ ':'), CharSet.ascii? (String.ofList (cs.takeWhile (· ≠ ':'))) with
  | ':' :: ']' :: rest, some s =>
    let s := fold f s
    some (if negated then s.complement else s, rest)
  | _, _ => none

def asciiClass? (f : Flags) : List Char → Option (CharSet × List Char)
  | ':' :: '^' :: rest => namedClass? f true rest
  | ':' :: rest => namedClass? f false rest
  | _ => none

section
variable [Engine]

def classPrimitive (f : Flags) : List Char → Except Error (Primitive × List Char)
  | [] => .error .classUnclosed
  | '\\' :: rest => escape f rest
  | c :: rest => .ok (.char c false, rest)

def classChar (f : Flags) : Primitive → Except Error Char
  | .char c _ => if f.unicode || c.toNat < 128 then .ok c else .error .beyondAscii
  | _ => .error .classRangeEnd

def classMember (f : Flags) : Primitive → Except Error CharSet
  | .set s => checked f s
  | .look _ => .error .classMember
  | p => .single <$> classChar f p

def peekIgnoring (comment : Bool) : List Char → Option Char
  | [] => none
  | c :: rest =>
    if isBlank c then peekIgnoring comment rest
    else if !comment && c = '#' then peekIgnoring true rest
    else some c

def peek (verbose : Bool) (cs : List Char) : Option Char :=
  if verbose then peekIgnoring false cs <|> cs.head? else cs.head?

def classRange (f : Flags) (first last : Primitive) : Except Error CharSet := do
  let low ← classChar f first
  let high ← classChar f last
  if low ≤ high then return .range low.toNat high.toNat else .error .classRangeReversed

/-- A member of a class, after its first character or escape. A hyphen before a closing bracket or
before another hyphen makes no range. -/
def classItemFrom (f : Flags) (first : Primitive) : List Char → Except Error (CharSet × List Char)
  | [] => .error .classUnclosed
  | '-' :: rest => do
    let next := peek f.verbose rest
    if next = some ']' ∨ next = some '-' then return (← classMember f first, '-' :: rest)
    else
      let (last, rest) ← classPrimitive f (skip f.verbose rest)
      return (← classRange f first last, rest)
  | rest => return (← classMember f first, rest)

/-- A member of a class: a range, or what stands in front of no hyphen. -/
def classItem (f : Flags) (cs : List Char) : Except Error (CharSet × List Char) := do
  let (first, rest) ← classPrimitive f cs
  classItemFrom f first (skip f.verbose rest)

inductive ClassToken where
  /-- A character, a range or an escape. -/
  | item (s : CharSet)
  /-- A named ASCII class. -/
  | named (s : CharSet)
  | opening (k : OpenClass)
  | operator (op : ClassOp)
  | closing

def classOperator? : List Char → Option (ClassOp × List Char)
  | '&' :: '&' :: rest => some (.inter, rest)
  | '-' :: '-' :: rest => some (.diff, rest)
  | '~' :: '~' :: rest => some (.symmDiff, rest)
  | _ => none

def classToken (f : Flags) : List Char → Except Error (ClassToken × List Char)
  | [] => .error .classUnclosed
  | '[' :: rest =>
    match asciiClass? f rest with
    | some (s, rest) => return (.named (← checked f s), rest)
    | none => do
      let (k, rest) ← openClass f rest
      return (.opening k, rest)
  | ']' :: rest => .ok (.closing, rest)
  | cs =>
    match classOperator? cs with
    | some (op, rest) => .ok (.operator op, rest)
    | none => do
      let (s, rest) ← classItem f cs
      return (.item s, rest)

def classLoop (f : Flags) : Nat → OpenClass → List OpenClass → List Char →
    Except Error (CharSet × List Char)
  | 0, _, _, _ => .error .classUnclosed
  | n + 1, k, outer, cs => do
    let (token, rest) ← classToken f (skip f.verbose cs)
    match token, outer with
    | .item s, outer | .named s, outer => classLoop f n (k.add s) outer rest
    | .opening inner, outer => classLoop f n inner (k :: outer) rest
    | .operator op, outer => classLoop f n (k.operate f op) outer rest
    | .closing, parent :: outer => classLoop f n (parent.add (← k.close f)) outer rest
    | .closing, [] => return (← k.close f, rest)

def bracketed (f : Flags) (cs : List Char) : Except Error (CharSet × List Char) := do
  let (k, rest) ← openClass f cs
  classLoop f (rest.length + 1) k [] rest

end

end Brine.Regex
