import Brine.Regex.CharSet
import Brine.Regex.Error
import Brine.Regex.Flags
import Brine.Text.Bytes

namespace Brine.Regex
open Text

structure Property where
  name : List Char
  value? : Option (List Char) := none
deriving DecidableEq

/-- What patterns leave to the engine that runs them. -/
class Engine where
  /-- The characters with a property, if there is one of this name. -/
  property? : Property → Option CharSet
  /-- Whether a pattern keeps the limits on nesting and on the size of what it is compiled to. -/
  admits : List Char → Bool
  /-- A short pattern that counts no repetitions keeps them. -/
  admits_short : ∀ pattern, pattern.length ≤ 64 → '\x7b' ∉ pattern → admits pattern = true

namespace Engine

def ofRanges (ranges : Ranges) : CharSet :=
  ranges.foldr (fun r s => .union (.range r.1 r.2) s) .empty

/-- Letters are what is alphabetic except marks, letter numerals and letters in circles and
squares. -/
def letters : CharSet :=
  .diff (ofRanges alphabetic) (ofRanges (marks ++ letterNumerals ++
    [(0x24b6, 0x24e9), (0x1f130, 0x1f149), (0x1f150, 0x1f169), (0x1f170, 0x1f189)]))

def categories : List (List String × CharSet) :=
  [(["l", "letter"], letters), (["m", "mark", "combiningmark"], ofRanges marks),
    (["n", "number"], ofRanges (decimalDigits ++ letterNumerals ++ otherNumerals)),
    (["nd", "decimalnumber", "digit"], .digit), (["nl", "letternumber"], ofRanges letterNumerals),
    (["no", "othernumber"], ofRanges otherNumerals),
    (["pc", "connectorpunctuation"], ofRanges connectors), (["any"], .any),
    (["ascii"], .range 0 0x7f)]

def binaryProperties : List (List String × CharSet) :=
  [(["alphabetic", "alpha"], ofRanges alphabetic), (["whitespace", "wspace", "space"], .blank),
    (["joincontrol", "joinc"], ofRanges joiners)]

/-- In the names of properties, case, blanks, hyphens and underscores do not matter. -/
def looseName (name : List Char) : String :=
  String.ofList ((name.filter Char.isAlphanum).map Char.toLower)

def find? (table : List (List String × CharSet)) (name : List Char) : Option CharSet :=
  (table.find? fun entry => looseName name ∈ entry.1).map Prod.snd

def nesting : Nat → List Char → Nat
  | n, [] => n
  | n, '\\' :: _ :: rest => nesting n rest
  | n, '(' :: rest => nesting (n + 1) rest
  | n, ')' :: rest => max n (nesting (n - 1) rest)
  | n, _ :: rest => nesting n rest

def states (pattern : List Char) : Nat :=
  byteSize (pattern.filter (· ≠ '\\'))

theorem nesting_le (n : Nat) (pattern : List Char) : nesting n pattern ≤ n + pattern.length := by
  fun_induction nesting n pattern <;> simp_all <;> omega

theorem states_le (pattern : List Char) : states pattern ≤ 4 * pattern.length := by
  induction pattern with
  | nil => exact Nat.zero_le _
  | cons c rest ih =>
    have hc := c.utf8Size_le_four
    by_cases h : c = '\\' <;> simp_all [states, byteSize] <;> omega

/-- The engine of a program that runs by itself. It has the properties whose tables there are, and
estimates from the text of a pattern whether it keeps the limits: what is to match one text takes a
state of 32 bytes for each byte of the text, and there is room for ten mebibytes. -/
instance standard : Engine where
  property? p :=
    match p.value? with
    | none => find? (categories ++ binaryProperties) p.name
    | some value =>
      if looseName p.name ∈ ["gc", "generalcategory"] then find? categories value else none
  admits pattern := nesting 0 pattern ≤ 250 && 32 * states pattern ≤ 10 * 1024 * 1024
  admits_short := by
    intro pattern h _
    have hn := nesting_le 0 pattern
    have hs := states_le pattern
    simp only [Bool.and_eq_true, decide_eq_true_eq]
    omega

end Engine

end Brine.Regex
