import Brine.Document.Basic
import Brine.Ids
import Brine.Line.Token

namespace Brine.Document
open Line

/-- A heading with its tags, and the lines of its description so far, last first. -/
structure Heading where
  tags : List Tag
  location : Location
  keyword : String
  name : String
  lines : List String := []

namespace Heading

def ofToken (tags : List Tag) (t : Token) : Heading :=
  { tags, location := t.location, keyword := t.keyword.getD "", name := t.text }

def addLine (h : Heading) (line : String) : Heading :=
  { h with lines := line :: h.lines }

/-- Blank lines count between lines of text only. -/
def addBlank (h : Heading) : Heading :=
  if h.lines.isEmpty then h else h.addLine ""

/-- The lines without blank ones at the end; no line at all is no description. -/
def description (h : Heading) : Option String :=
  match (h.lines.dropWhile (· = "")).reverse with
  | [] => none
  | lines => some ("\n".intercalate lines)

end Heading

/-- The argument of a step that is still open; rows are kept last first. -/
inductive OpenArgument where
  | none
  | docString (doc : DocString)
  | table (location : Location) (rows : List Row)

def OpenArgument.close : OpenArgument → Option StepArgument
  | .none => Option.none
  | .docString doc => some (.docString doc)
  | .table location rows => some (.dataTable { location, rows := rows.reverse })

structure OpenStep where
  location : Location
  keyword : String
  keywordType : KeywordType
  text : String
  argument : OpenArgument := .none

/-- A list of steps that is still open: the finished steps, last first, the last step, and the type
that a conjunction would take. -/
structure OpenSteps where
  done : List Step := []
  last : Option OpenStep := none
  resolved : Option KeywordType := none

/-- The type of a step whose keyword has the type `own`, and the type that conjunctions after it
take. -/
def resolveType (resolved : Option KeywordType) (own : KeywordType) :
    KeywordType × Option KeywordType :=
  match own with
  | .conjunction => (resolved.getD .conjunction, resolved)
  | .unknown => (.unknown, resolved)
  | type => (type, some type)

/-- An examples block that is still open; rows are kept last first. -/
structure OpenExamples where
  heading : Heading
  rows : List Row := []

inductive BlockKind where
  | background
  | scenario (kind : ScenarioKind)

/-- A background or scenario that is still open, with the finished examples, last first, and the
examples block that is open. -/
structure OpenBlock where
  kind : BlockKind
  heading : Heading
  steps : OpenSteps := {}
  examples : List Examples := []
  openExamples : Option OpenExamples := none

/-- A rule that is still open; children are kept last first. -/
structure OpenRule where
  heading : Heading
  hasBackground : Bool := false
  children : List RuleChild := []

/-- A doc string between its separators; lines are kept last first. -/
structure OpenDoc where
  location : Location
  delimiter : String
  mediaType : Option String
  lines : List String := []

/-- Tag lines, last first, whose heading has not come yet. They can belong to a rule, a scenario or
an examples block, unless a language line after them has left them to a scenario. -/
structure WaitingTags where
  lines : List Token
  forScenario : Bool := false

structure OpenFeature where
  heading : Heading
  hasBackground : Bool := false
  /-- The finished children, last first. -/
  children : List FeatureChild := []
  rule : Option OpenRule := none
  block : Option OpenBlock := none
  docString : Option OpenDoc := none
  waiting : Option WaitingTags := none
  /-- Whether a line of text now belongs to the description of the last heading. -/
  describing : Bool := true

/-- What has been read: nothing but tags, or a feature. -/
inductive Stage where
  | start (tags : Option (List Tag))
  | feature (f : OpenFeature)

structure Draft where
  ids : IdSource := {}
  /-- The comments so far, last first. -/
  comments : List Comment := []
  stage : Stage := .start none

end Brine.Document
