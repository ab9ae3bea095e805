import Brine.Regex.Engine
import Brine.Regex.Look

namespace Brine.Regex
open Text

inductive Primitive where
  /-- A character; `byte` marks one given by the value of a single byte. -/
  | char (c : Char) (byte : Bool)
  | set (s : CharSet)
  | look (l : Look)

/-- A set in the place of a class: without Unicode mode classes have ASCII characters only. -/
def checked (f : Flags) (s : CharSet) : Except Error CharSet :=
  if f.unicode || s.isAscii then .ok s else .error .beyondAscii

def hexDigit? (c : Char) : Option Nat :=
  if '0' ≤ c && c ≤ '9' then some (c.toNat - '0'.toNat)
  else if 'a' ≤ c && c ≤ 'f' then some (c.toNat - 'a'.toNat + 10)
  else if 'A' ≤ c && c ≤ 'F' then some (c.toNat - 'A'.toNat + 10)
  else none

/-- The character of a hexadecimal number, if there is one. -/
def hexChar (digits : List Char) (byte : Bool) : Except Error Primitive :=
  let n := (digits.filterMap hexDigit?).foldl (fun n d => 16 * n + d) 0
  if digits.all (hexDigit? · |>.isSome) && n.isValidChar then .ok (.char (Char.ofNat n) byte)
  else .error .hexDigits

def braced (verbose : Bool) (cs : List Char) : Except Error (List Char × List Char) :=
  match runOf verbose (· ≠ '\x7d') cs.length (skip verbose cs) with
  | (_, []) => .error .escapeUnfinished
  | (text, _ :: rest) => .ok (text, rest)

/-- A character by number: `count` digits, or any number of them in braces. Only two digits without
braces give a single byte. -/
def hexEscape (verbose : Bool) (count : Nat) (cs : List Char) :
    Except Error (Primitive × List Char) :=
  match skip verbose cs with
  | '\x7b' :: rest => do
    let (digits, rest) ← braced verbose rest
    if digits.isEmpty then .error .hexDigits
    else return (← hexChar digits false, skip verbose rest)
  | cs =>
    let (digits, rest) := runOf verbose (fun _ => true) count cs
    if digits.length < count then .error .escapeUnfinished
    else do return (← hexChar digits (count = 2), rest)

def fold (f : Flags) (s : CharSet) : CharSet :=
  if f.caseless then if f.unicode then s.folded else s.asciiFolded else s

def isPropertyChar (c : Char) : Bool :=
  c.isAlphanum || c ∈ [' ', '-', '_', '.', ':', '=', '!'] || 128 ≤ c.toNat

def cutUnequal? : List Char → Option (List Char × List Char)
  | [] => none
  | '!' :: '=' :: rest => some ([], rest)
  | c :: rest => (cutUnequal? rest).map fun (name, value) => (c :: name, value)

/-- A property that is named in braces, and whether it is negated there: a value may follow its name
after `!=`, a colon or an equals sign. -/
def namedProperty (text : List Char) : Property × Bool :=
  match cutUnequal? text with
  | some (name, value) => (⟨name, some value⟩, true)
  | none =>
    let mark := if ':' ∈ text then ':' else '='
    match text.dropWhile (· ≠ mark) with
    | [] => (⟨text, none⟩, false)
    | _ :: value => (⟨text.takeWhile (· ≠ mark), some value⟩, false)

def propertyText (verbose : Bool) (cs : List Char) : Except Error (List Char × List Char) :=
  match skip verbose cs with
  | [] => .error .escapeUnfinished
  | '\x7b' :: rest => braced verbose rest
  | c :: rest => .ok ([c], rest)

/-- The class `\d`, `\s` or `\w`, of all scripts or of ASCII only. -/
def shorthand? (unicode : Bool) : Char → Option CharSet
  | 'd' => if unicode then some .digit else CharSet.ascii? "digit"
  | 's' => if unicode then some .blank else CharSet.ascii? "space"
  | 'w' => if unicode then some .word else CharSet.ascii? "word"
  | _ => none

def isEscapable (c : Char) : Bool :=
  c.toNat < 128 && !c.isAlphanum && c ≠ '<' && c ≠ '>'

def controlEscape? : Char → Option Char
  | 'a' => some '\x07'
  | 'f' => some '\x0c'
  | 't' => some '\t'
  | 'n' => some '\n'
  | 'r' => some '\r'
  | 'v' => some '\x0b'
  | _ => none

def edgeNamed? : String → Option WordEdge
  | "start" => some .start
  | "end" => some .stop
  | "start-half" => some .startHalf
  | "end-half" => some .stopHalf
  | _ => none

/-- The word boundary after `\b`, which may be named in braces. Braces that hold no name belong to a
repetition. -/
def boundary (f : Flags) : List Char → Except Error (WordEdge × List Char)
  | '\x7b' :: rest =>
    match skip f.verbose rest with
    | [] => .error .boundaryName
    | c :: more =>
      if c.isAlpha || c = '-' then
        let (name, rest) := runOf f.verbose (fun c => c.isAlpha || c = '-') rest.length (c :: more)
        match rest, edgeNamed? (String.ofList name) with
        | '\x7d' :: rest, some edge => .ok (edge, rest)
        | _, _ => .error .boundaryName
      else .ok (.boundary, '\x7b' :: rest)
  | cs => .ok (.boundary, cs)

/-- What a character after a backslash stands for, unless more text belongs to the escape. -/
def charEscape (f : Flags) (c : Char) : Except Error Primitive :=
  let edge (e : WordEdge) : Primitive := .look (.edge e !f.unicode)
  if c.isDigit then .error .backReference
  else if let some s := shorthand? f.unicode c then .ok (.set s)
  else if let some s := shorthand? f.unicode c.toLower then .ok (.set s.complement)
  else if isEscapable c then .ok (.char c false)
  else if let some d := controlEscape? c then .ok (.char d false)
  else
    match c with
    | 'A' => .ok (.look .textStart)
    | 'z' => .ok (.look .textEnd)
    | 'B' => .ok (edge .inside)
    | '<' => .ok (edge .start)
    | '>' => .ok (edge .stop)
    | c => .error (.escapeUnknown c)

section
variable [Engine]

def propertySet (f : Flags) (negated : Bool) (text : List Char) : Except Error CharSet :=
  let (property, unequal) := namedProperty text
  match Engine.property? property with
  | none => .error .propertyUnknown
  | some s =>
    if !f.unicode then .error .beyondAscii
    else if !text.all isPropertyChar then .error .propertyUnknown
    else .ok (if negated = unequal then fold f s else (fold f s).complement)

def propertyEscape (f : Flags) (negated : Bool) (cs : List Char) :
    Except Error (Primitive × List Char) := do
  let (text, rest) ← propertyText f.verbose cs
  return (.set (← propertySet f negated text), rest)

def escape (f : Flags) : List Char → Except Error (Primitive × List Char)
  | [] => .error .escapeUnfinished
  | 'x' :: rest => hexEscape f.verbose 2 rest
  | 'u' :: rest => hexEscape f.verbose 4 rest
  | 'U' :: rest => hexEscape f.verbose 8 rest
  | 'b' :: rest => do
    let (e, rest) ← boundary f rest
    return (.look (.edge e !f.unicode), rest)
  | 'p' :: rest => propertyEscape f false rest
  | 'P' :: rest => propertyEscape f true rest
  | c :: rest => return (← charEscape f c, rest)

end

end Brine.Regex
