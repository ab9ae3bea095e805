import Brine.Regex.Basic
import Brine.Regex.Bracket

namespace Brine.Regex
open Text

inductive Token where
  /-- One character or one condition. -/
  | atom (r : Regex)
  | openCapture (name : Option String)
  | openPlain
  | close
  | bar
  /-- Repetition of what stands before it. -/
  | quantifier (low : Nat) (high : Option Nat) (greedy : Bool)
  /-- A change of flags, which stands for no text and cannot be repeated. -/
  | flags
deriving DecidableEq

def flagItems (seen : List (Flag × Bool)) (negated dangling : Bool) :
    List Char → Except Error (List (Flag × Bool) × Char × List Char)
  | [] => .error .flagsUnclosed
  | c :: rest =>
    if c = ':' ∨ c = ')' then
      if dangling then .error .negationDangling else .ok (seen.reverse, c, rest)
    else if c = '-' then
      if negated then .error .negationRepeated else flagItems seen true true rest
    else
      match Flag.ofChar? c with
      | none => .error (.flagUnknown c)
      | some flag =>
        if seen.any (·.1 = flag) then .error .flagRepeated
        else flagItems ((flag, !negated) :: seen) negated false rest

/-- Group names are made of letters, digits, `_`, `.` and brackets, and start with a letter or
`_`. -/
def isNameChar (first : Bool) (c : Char) : Bool :=
  c = '_' || if first then isAlphabetic c.toNat
    else c = '.' || c = '[' || c = ']' || isAlphanumeric c.toNat

def groupName (name : List Char) : List Char → Except Error (String × List Char)
  | [] => .error .groupNameUnclosed
  | '>' :: rest =>
    if name.isEmpty then .error .groupNameEmpty else .ok (String.ofList name.reverse, rest)
  | c :: rest =>
    if isNameChar name.isEmpty c then groupName (c :: name) rest else .error .groupNameInvalid

/-- The token of an opening parenthesis and the flags inside it, given the text after it. A change
of flags is a token of its own, and the flags after it are those of the rest of the group around
it. -/
def opening (f : Flags) (cs : List Char) : Except Error (Token × Flags × List Char) :=
  match skip f.verbose cs with
  | '?' :: '=' :: _ | '?' :: '!' :: _ | '?' :: '<' :: '=' :: _ | '?' :: '<' :: '!' :: _ =>
    .error .lookAround
  | '?' :: 'P' :: '<' :: rest | '?' :: '<' :: rest => do
    let (name, rest) ← groupName [] rest
    return (.openCapture (some name), f, rest)
  | '?' :: rest => do
    let (items, last, rest) ← flagItems [] false false rest
    let inner := items.foldl Flags.set f
    if last = ':' then return (.openPlain, inner, rest)
    else if items.isEmpty then .error .repetitionMissing
    else return (.flags, inner, rest)
  | rest => .ok (.openCapture none, f, rest)

def greatestCount : Nat := 0xffffffff

/-- A repetition count, which may have blanks around it; a text without digits gives none. -/
def count (verbose : Bool) (cs : List Char) : List Char × List Char :=
  let (digits, rest) := runOf verbose Char.isDigit cs.length (cs.dropWhile isBlank)
  (digits, (runOf verbose isBlank rest.length rest).2)

def countValue (digits : List Char) : Except Error Nat :=
  let n := digits.foldl (fun n d => 10 * n + (d.toNat - '0'.toNat)) 0
  if digits.isEmpty || greatestCount < n then .error .repetitionCount else .ok n

/-- The greatest count of a repetition, after the comma; there is none before the closing brace. -/
def upperCount (verbose : Bool) (cs : List Char) : Except Error (Option Nat × List Char) := do
  match skip verbose cs with
  | '\x7d' :: rest => return (none, '\x7d' :: rest)
  | cs =>
    let (digits, rest) := count verbose cs
    return (some (← countValue digits), rest)

def closeCounts (low : Nat) (high : Option Nat) : List Char →
    Except Error (Nat × Option Nat × List Char)
  | '\x7d' :: rest =>
    if high.all (low ≤ ·) then .ok (low, high, rest) else .error .repetitionReversed
  | _ => .error .repetitionUnclosed

def counts (verbose : Bool) (cs : List Char) :
    Except Error (Nat × Option Nat × List Char) := do
  let (digits, rest) := count verbose (skip verbose cs)
  match rest with
  | '\x7d' :: _ =>
    let low ← countValue digits
    closeCounts low (some low) rest
  | ',' :: rest =>
    let low ← countValue digits
    let (high, rest) ← upperCount verbose rest
    closeCounts low high rest
  | _ => .error .repetitionUnclosed

def signCounts? : Char → Option (Nat × Option Nat)
  | '?' => some (0, some 1)
  | '*' => some (0, none)
  | '+' => some (1, none)
  | _ => none

/-- A repetition token; a question mark after it makes it lazy. -/
def quantified (f : Flags) (low : Nat) (high : Option Nat) :
    List Char → Except Error (Token × Flags × List Char)
  | '?' :: rest => .ok (.quantifier low high f.swapGreed, f, rest)
  | rest => .ok (.quantifier low high !f.swapGreed, f, rest)

def anyChar (f : Flags) : Except Error CharSet :=
  if !f.unicode then .error .beyondAscii
  else if f.dotAll then .ok .any
  else if f.crlf then .ok (.complement (.union (.single '\r') (.single '\n')))
  else .ok (.complement (.single '\n'))

def lineStart (f : Flags) : Look :=
  if f.multiLine then if f.crlf then .returnLineStart else .lineStart else .textStart

def lineEnd (f : Flags) : Look :=
  if f.multiLine then if f.crlf then .returnLineEnd else .lineEnd else .textEnd

def Primitive.atom (f : Flags) : Primitive → Except Error Regex
  | .char c byte =>
    if byte && !f.unicode && 128 ≤ c.toNat then .error .beyondAscii
    else .ok (.set (fold f (.single c)))
  | .set s => .set <$> checked f s
  | .look l => .ok (.look l)

def charAtom (f : Flags) : Char → Except Error Regex
  | '.' => .set <$> anyChar f
  | '^' => .ok (.look (lineStart f))
  | '$' => .ok (.look (lineEnd f))
  | c => .ok (.set (fold f (.single c)))

section
variable [Engine]

def token (f : Flags) : List Char → Except Error (Token × Flags × List Char)
  | [] => .error .repetitionMissing
  | '(' :: rest => opening f rest
  | ')' :: rest => .ok (.close, f, rest)
  | '|' :: rest => .ok (.bar, f, rest)
  | '[' :: rest => do
    let (s, rest) ← bracketed f rest
    return (.atom (.set s), f, rest)
  | '\x7b' :: rest => do
    let (low, high, rest) ← counts f.verbose rest
    quantified f low high (skip f.verbose rest)
  | '\\' :: rest => do
    let (p, rest) ← escape f rest
    return (.atom (← p.atom f), f, rest)
  | c :: rest =>
    match signCounts? c with
    | some (low, high) => quantified f low high rest
    | none => return (.atom (← charAtom f c), f, rest)

end

/-- Where the scanner stands: the flags that are on, those to return to when a group ends, innermost
group first, and the text that is left. -/
structure Scanner where
  flags : Flags := {}
  outer : List Flags := []
  rest : List Char

namespace Scanner

def after (s : Scanner) (t : Token) (inner : Flags) (rest : List Char) : Scanner :=
  match t with
  | .openCapture _ | .openPlain => { flags := inner, outer := s.flags :: s.outer, rest }
  | .close => { flags := s.outer.headD s.flags, outer := s.outer.tail, rest }
  | _ => { flags := inner, outer := s.outer, rest }

def next [Engine] (s : Scanner) : Except Error (Option (Token × Scanner)) :=
  match skip s.flags.verbose s.rest with
  | [] => .ok none
  | cs => do
    let (t, inner, rest) ← token s.flags cs
    return some (t, s.after t inner rest)

end Scanner

def scan [Engine] : Nat → Scanner → Except Error (List Token)
  | 0, _ => .ok []
  | n + 1, s => do
    match ← s.next with
    | none => return []
    | some (t, s) => return t :: (← scan n s)

def tokens [Engine] (pattern : List Char) : Except Error (List Token) :=
  scan (pattern.length + 1) { rest := pattern }

end Brine.Regex
