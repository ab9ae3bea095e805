import Brine.Text.Blank
import Brine.Text.CaseFold
import Brine.Text.Word

namespace Brine.Regex
open Text

/-- A set of code points, written with the operations that character classes offer. -/
inductive CharSet where
  | empty
  | range (low high : Nat)
  | digit
  | blank
  | word
  | union (a b : CharSet)
  | inter (a b : CharSet)
  | complement (a : CharSet)
  /-- The set closed under case variants. -/
  | folded (a : CharSet)
  /-- The set closed under case variants of ASCII letters. -/
  | asciiFolded (a : CharSet)
deriving DecidableEq, Repr, Inhabited

namespace CharSet

def holds : CharSet → Nat → Bool
  | empty, _ => false
  | range low high, n => low ≤ n && n ≤ high
  | digit, n => isDecimalDigit n
  | blank, n => blanks.holds n
  | word, n => isWord n
  | union a b, n => a.holds n || b.holds n
  | inter a b, n => a.holds n && b.holds n
  | complement a, n => !a.holds n
  | folded a, n => (caseVariants n).any a.holds
  | asciiFolded a, n => (asciiCaseVariants n).any a.holds

def contains (s : CharSet) (c : Char) : Bool :=
  s.holds c.toNat

def single (c : Char) : CharSet :=
  range c.toNat c.toNat

def any : CharSet :=
  complement empty

def diff (a b : CharSet) : CharSet :=
  inter a (complement b)

def symmDiff (a b : CharSet) : CharSet :=
  union (diff a b) (diff b a)

def ofRanges (rs : List (Char × Char)) : CharSet :=
  rs.foldr (fun r s => union (range r.1.toNat r.2.toNat) s) empty

def ascii? : String → Option CharSet
  | "alnum" => some (ofRanges [('0', '9'), ('A', 'Z'), ('a', 'z')])
  | "alpha" => some (ofRanges [('A', 'Z'), ('a', 'z')])
  | "ascii" => some (range 0 0x7f)
  | "blank" => some (ofRanges [('\t', '\t'), (' ', ' ')])
  | "cntrl" => some (union (range 0 0x1f) (range 0x7f 0x7f))
  | "digit" => some (ofRanges [('0', '9')])
  | "graph" => some (ofRanges [('!', '~')])
  | "lower" => some (ofRanges [('a', 'z')])
  | "print" => some (ofRanges [(' ', '~')])
  | "punct" => some (ofRanges [('!', '/'), (':', '@'), ('[', '\x60'), ('\x7b', '~')])
  | "space" => some (ofRanges [('\t', '\r'), (' ', ' ')])
  | "upper" => some (ofRanges [('A', 'Z')])
  | "word" => some (ofRanges [('0', '9'), ('A', 'Z'), ('_', '_'), ('a', 'z')])
  | "xdigit" => some (ofRanges [('0', '9'), ('A', 'F'), ('a', 'f')])
  | _ => none

/-- Whether the set has ASCII characters only, as far as code points of one byte go. -/
def isAscii (s : CharSet) : Bool :=
  (List.range 128).all fun n => !s.holds (n + 128)

end CharSet

end Brine.Regex
