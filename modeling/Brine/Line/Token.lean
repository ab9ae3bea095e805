import Brine.Language.Dialect
import Brine.Location
import Brine.Text.Blank

namespace Brine.Line

/-- What a line is; `eof` is the end of the text. -/
inductive Kind where
  | feature
  | rule
  | background
  | scenario
  | scenarioOutline
  | examples
  | step
  | tags
  | comment
  | language
  | docStringSeparator
  | docStringContent
  | tableRow
  | empty
  | other
  | eof
deriving DecidableEq, Repr

def Kind.label : Kind → String
  | .feature => "#FeatureLine"
  | .rule => "#RuleLine"
  | .background => "#BackgroundLine"
  | .scenario => "#ScenarioLine"
  | .scenarioOutline => "#ScenarioOutlineLine"
  | .examples => "#ExamplesLine"
  | .step => "#StepLine"
  | .tags => "#TagLine"
  | .comment => "#Comment"
  | .language => "#Language"
  | .docStringSeparator => "#DocStringSeparator"
  | .docStringContent => "#DocStringContent"
  | .tableRow => "#TableRow"
  | .empty => "#Empty"
  | .other => "#Other"
  | .eof => "#EOF"

def Kind.isHeading : Kind → Bool
  | .feature | .rule | .background | .scenario | .scenarioOutline | .examples => true
  | _ => false

structure Item where
  column : Nat
  text : String
deriving DecidableEq, Repr

structure Token where
  kind : Kind
  location : Location
  keyword : Option String := none
  keywordType : Option KeywordType := none
  text : String := ""
  items : List Item := []
  mediaType : Option String := none
deriving DecidableEq, Repr

def Token.describe (t : Token) : String :=
  let keyword := t.keyword.getD ""
  match t.kind with
  | .eof => t.kind.label
  | .empty => "an empty line"
  | kind =>
    if kind.isHeading then "'" ++ keyword ++ ": " ++ t.text ++ "'"
    else "'" ++ keyword ++ String.ofList (Text.trim t.text.toList) ++ "'"

end Brine.Line
