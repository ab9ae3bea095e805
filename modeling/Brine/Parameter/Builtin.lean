import Brine.Parameter.Basic
import Brine.Text.Blank
import Brine.Text.Replace

namespace Brine.ParameterType
open Text

def toInt (text : String) : Except ParameterError Value :=
  match Number.readInteger text.toList with
  | .ok n => .ok (.int n)
  | .error e => .error (.transform "int" text e.message)

def toFloat (text : String) : Except ParameterError Value :=
  match Number.Binary64.read text.toList with
  | .ok x => .ok (.float x)
  | .error e => .error (.transform "float" text e.message)

/-- What stands between two quotes at the ends of a text, if there are two. -/
def betweenQuotes? (quote : Char) (text : List Char) : Option (List Char) := do
  let rest ← after? [quote] text
  guard (rest.getLast? = some quote)
  return rest.dropLast

/-- Removes one pair of quotes from around a text, double or else single, and the backslash before
each such quote inside. A text without quotes around it stays as it is. -/
def stripQuotes (raw : String) : String :=
  let inner := ['"', '\''].findSome? fun quote =>
    (betweenQuotes? quote raw.toList).map (replace ['\\', quote] [quote])
  (inner.map String.ofList).getD raw

def int : ParameterType where
  name := "int"
  regexps := ["-?\\d+"]
  convert := toInt
  forSnippets := true
  preferred := true

def float : ParameterType where
  name := "float"
  regexps := ["-?\\d*\\.\\d+"]
  convert := toFloat
  forSnippets := true
  preferred := true

def string : ParameterType where
  name := "string"
  regexps := ["\"(?:[^\"\\\\]*(?:\\\\.[^\"\\\\]*)*)\"", "'(?:[^'\\\\]*(?:\\\\.[^'\\\\]*)*)'"]
  clean := stripQuotes
  forSnippets := true

def word : ParameterType where
  name := "word"
  regexps := ["[^\\s]+"]

def anonymous : ParameterType where
  name := ""
  regexps := [".+"]

def builtins : List ParameterType :=
  [int, float, string, word, anonymous]

end Brine.ParameterType
