import Brine.Line.Token

namespace Brine.Line
open Text

def endWord (column : Nat) (word : List Char) (words : List Item) : List Item :=
  if word.isEmpty then words
  else ⟨column - word.length, String.ofList word.reverse⟩ :: words

/-- The words of a line, where `column` is the column of its first character and `word` holds the
characters before it, last first, that belong to a word. -/
def wordsFrom (column : Nat) (word : List Char) : List Char → List Item
  | [] => endWord column word []
  | c :: rest =>
    if isBlank c then endWord column word (wordsFrom (column + 1) [] rest)
    else wordsFrom (column + 1) (c :: word) rest

def tagItems (line : List Char) : List Item :=
  (wordsFrom 1 [] line).takeWhile fun item => item.text.toList.head? ≠ some '#'

def unescapeCell : List Char → List Char
  | [] => []
  | '\\' :: 'n' :: rest => '\n' :: unescapeCell rest
  | '\\' :: '|' :: rest => '|' :: unescapeCell rest
  | '\\' :: '\\' :: rest => '\\' :: unescapeCell rest
  | '\\' :: c :: rest => '\\' :: c :: unescapeCell rest
  | c :: rest => c :: unescapeCell rest

def cell (column : Nat) (raw : List Char) : Item :=
  ⟨column + indent raw, String.ofList (unescapeCell (trim raw))⟩

/-- The cells of a row after its first pipe: `column` is the column of the next character, `start`
that of the first character of the cell, and `raw` holds the characters of the cell so far, last
first. What no pipe ends is no cell. -/
def cellsFrom (column start : Nat) (raw : List Char) : List Char → List Item
  | [] => []
  | '|' :: rest => cell start raw.reverse :: cellsFrom (column + 1) (column + 1) [] rest
  | '\\' :: c :: rest => cellsFrom (column + 2) start (c :: '\\' :: raw) rest
  | c :: rest => cellsFrom (column + 1) start (c :: raw) rest

def cellItems (line : List Char) : List Item :=
  match line.dropWhile (· ≠ '|') with
  | [] => []
  | _ :: rest =>
    let column := line.length - rest.length + 1
    cellsFrom column column [] rest

end Brine.Line
