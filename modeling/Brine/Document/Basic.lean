import Brine.Language.Dialect
import Brine.Location

namespace Brine

structure Comment where
  location : Location
  text : String
deriving DecidableEq, Repr

structure Tag where
  id : String
  location : Location
  name : String
deriving DecidableEq, Repr

structure Cell where
  location : Location
  value : String
deriving DecidableEq, Repr

structure Row where
  id : String
  location : Location
  cells : List Cell
deriving DecidableEq, Repr

structure DocString where
  location : Location
  delimiter : String
  mediaType : Option String
  content : String
deriving DecidableEq, Repr

structure DataTable where
  location : Location
  rows : List Row
deriving DecidableEq, Repr

inductive StepArgument where
  | docString (doc : DocString)
  | dataTable (table : DataTable)
deriving DecidableEq, Repr

structure Step where
  id : String
  location : Location
  keyword : String
  keywordType : KeywordType
  text : String
  argument : Option StepArgument
deriving DecidableEq, Repr

structure Background where
  id : String
  location : Location
  keyword : String
  name : String
  description : Option String
  steps : List Step
deriving DecidableEq, Repr

/-- A table of values for an outline; its first row names the columns. -/
structure Examples where
  id : String
  location : Location
  tags : List Tag
  keyword : String
  name : String
  description : Option String
  header : Option Row
  body : List Row
deriving DecidableEq, Repr

inductive ScenarioKind where
  | scenario
  | outline
deriving DecidableEq, Repr

structure Scenario where
  id : String
  location : Location
  tags : List Tag
  kind : ScenarioKind
  keyword : String
  name : String
  description : Option String
  steps : List Step
  examples : List Examples
deriving DecidableEq, Repr

/-- A scenario with examples is an outline whatever its keyword. -/
def Scenario.isOutline (s : Scenario) : Bool :=
  s.kind = .outline || !s.examples.isEmpty

inductive RuleChild where
  | background (b : Background)
  | scenario (s : Scenario)
deriving DecidableEq, Repr

structure Rule where
  id : String
  location : Location
  tags : List Tag
  keyword : String
  name : String
  description : Option String
  children : List RuleChild
deriving DecidableEq, Repr

inductive FeatureChild where
  | background (b : Background)
  | scenario (s : Scenario)
  | rule (r : Rule)
deriving DecidableEq, Repr

structure Feature where
  location : Location
  tags : List Tag
  language : String
  keyword : String
  name : String
  description : Option String
  children : List FeatureChild
deriving DecidableEq, Repr

/-- A source file; one without any content has no feature. -/
structure Document where
  uri : String
  feature : Option Feature
  comments : List Comment
deriving DecidableEq, Repr

end Brine
