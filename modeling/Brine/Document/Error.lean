import Brine.Line.Token

namespace Brine.Document
open Line

inductive Error where
  | unexpectedLine (location : Location) (expected : List Kind) (found : String)
  | unexpectedEnd (location : Location) (expected : List Kind)
  | secondBackground (location : Location)
  | raggedTable (location : Location)
deriving DecidableEq, Repr

def expectedText (kinds : List Kind) : String :=
  ", ".intercalate (kinds.map Kind.label)

/-- The problem that `token` stands where only `expected` can. -/
def Error.unexpected (token : Token) (expected : List Kind) : Error :=
  if token.kind = .eof then .unexpectedEnd token.location expected
  else .unexpectedLine token.location expected token.describe

namespace Error

def location : Error → Location
  | unexpectedLine location _ _ | unexpectedEnd location _
  | secondBackground location | raggedTable location => location

def message : Error → String
  | unexpectedLine location expected found =>
    "(" ++ location.text ++ "): expected " ++ expectedText expected ++ ", got " ++ found
  | unexpectedEnd location expected =>
    "(" ++ location.text ++ "): unexpected end of file, expected " ++ expectedText expected
  | secondBackground location =>
    "(" ++ location.text ++ "): a feature or rule may only have one background"
  | raggedTable location =>
    "(" ++ location.text ++ "): inconsistent cell count within the table"

end Error

end Brine.Document
