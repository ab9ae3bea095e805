import Brine.Pickle.Basic
import Brine.Pickle.Placeholder

namespace Brine

structure Inherited where
  tags : List Tag := []
  /-- The steps of the backgrounds of the feature and of the rule. -/
  steps : List Step := []

structure ExampleRow where
  block : Examples
  header : Row
  row : Row

def Scenario.exampleRows (s : Scenario) : List ExampleRow :=
  s.examples.flatMap fun block =>
    match block.header with
    | none => []
    | some header => block.body.map fun row => { block, header, row }

def PickleTag.ofTag (t : Tag) : PickleTag :=
  ⟨t.name, t.id⟩

def PickleArgument.ofStep (fill : String → String) : StepArgument → PickleArgument
  | .docString d => .docString (fill d.content) (d.mediaType.map fill)
  | .dataTable t => .dataTable (t.rows.map fun r => r.cells.map fun c => fill c.value)

def StepPlan.ofStep (s : Step) : StepPlan :=
  { text := s.text, purpose := .ofKeyword s.keywordType,
    argument := s.argument.map (.ofStep id), sources := [s.id] }

def StepPlan.ofRow (e : ExampleRow) (s : Step) : StepPlan :=
  let fill := ExampleValues.substitute (.ofRows e.header e.row)
  { text := fill s.text, purpose := .ofKeyword s.keywordType,
    argument := s.argument.map (.ofStep fill), sources := [s.id, e.row.id] }

def Plan.ofScenario (i : Inherited) (s : Scenario) : Plan :=
  { location := s.location, name := s.name, tags := (i.tags ++ s.tags).map .ofTag,
    steps := i.steps.map .ofStep ++ s.steps.map .ofStep, sources := [s.id] }

def Plan.ofRow (i : Inherited) (s : Scenario) (e : ExampleRow) : Plan :=
  { location := e.row.location,
    name := ExampleValues.substitute (.ofRows e.header e.row) s.name,
    tags := (i.tags ++ s.tags ++ e.block.tags).map .ofTag,
    steps := i.steps.map .ofStep ++ s.steps.map (.ofRow e), sources := [s.id, e.row.id] }

def Scenario.plans (i : Inherited) (s : Scenario) : List Plan :=
  if s.isOutline then s.exampleRows.map (.ofRow i s) else [.ofScenario i s]

/-- The plans of the children of a rule; `background` holds the steps of its last background. -/
def rulePlans (i : Inherited) (background : List Step) : List RuleChild → List Plan
  | [] => []
  | .background b :: rest => rulePlans i b.steps rest
  | .scenario s :: rest =>
    s.plans { i with steps := i.steps ++ background } ++ rulePlans i background rest

/-- The plans of the children of a feature with these tags; `background` holds the steps of its last
background. -/
def featurePlans (tags : List Tag) (background : List Step) : List FeatureChild → List Plan
  | [] => []
  | .background b :: rest => featurePlans tags b.steps rest
  | .scenario s :: rest => s.plans ⟨tags, background⟩ ++ featurePlans tags background rest
  | .rule r :: rest =>
    rulePlans ⟨tags ++ r.tags, background⟩ [] r.children ++ featurePlans tags background rest

def Document.plans (d : Document) : List Plan :=
  match d.feature with
  | none => []
  | some f => featurePlans f.tags [] f.children

/-- The language of a document; one without a feature has none. -/
def Document.language (d : Document) : String :=
  (d.feature.map (·.language)).getD ""

def numberPlans (uri language : String) (ids : IdSource) : List Plan → List Pickle
  | [] => []
  | p :: rest =>
    let (pickle, ids) := p.number uri language ids
    pickle :: numberPlans uri language ids rest

def Document.pickles (d : Document) : List Pickle :=
  numberPlans d.uri d.language pickleIds d.plans

end Brine
