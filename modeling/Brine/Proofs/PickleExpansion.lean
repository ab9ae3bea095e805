import Brine.Proofs.PickleStream

namespace Brine.Proofs.PickleExpansion
open PickleStream

/-- A pickle without the identifiers that are drawn for it and its steps. -/
structure Content extends Plan where
  uri : String
  language : String

def content (p : Pickle) : Content where
  uri := p.uri
  language := p.language
  location := p.location
  name := p.name
  tags := p.tags
  steps := p.steps.map (·.toStepPlan)
  sources := p.sources

/-- What stands around a scenario: its feature and rule, and the last background before it in either
of them. -/
structure Scope where
  uri : String
  feature : Feature
  featureBackground : Option Background := none
  rule : Option Rule := none
  ruleBackground : Option Background := none

def Scope.tags (scope : Scope) : List Tag :=
  scope.feature.tags ++ (scope.rule.map (·.tags)).getD []

def Scope.steps (scope : Scope) : List Step :=
  (scope.featureBackground.map (·.steps)).getD [] ++ (scope.ruleBackground.map (·.steps)).getD []

def pickleTag (t : Tag) : PickleTag where
  name := t.name
  tagId := t.id

def stepContent (fill : String → String) (row : List String) (s : Step) : StepPlan where
  text := fill s.text
  purpose := .ofKeyword s.keywordType
  argument := s.argument.map fun
    | .docString d => .docString (fill d.content) (d.mediaType.map fill)
    | .dataTable t => .dataTable (t.rows.map fun r => r.cells.map fun c => fill c.value)
  sources := s.id :: row

def plainContent (scope : Scope) (s : Scenario) : Content where
  uri := scope.uri
  language := scope.feature.language
  location := s.location
  name := s.name
  tags := (scope.tags ++ s.tags).map pickleTag
  steps := scope.steps.map (stepContent id []) ++ s.steps.map (stepContent id [])
  sources := [s.id]

def rowContent (scope : Scope) (s : Scenario) (block : Examples) (header row : Row) : Content :=
  let fill := ExampleValues.substitute (.ofRows header row)
  { uri := scope.uri
    language := scope.feature.language
    location := row.location
    name := fill s.name
    tags := (scope.tags ++ s.tags ++ block.tags).map pickleTag
    steps := scope.steps.map (stepContent id []) ++ s.steps.map (stepContent fill [row.id])
    sources := [s.id, row.id] }

def scenarioContents (scope : Scope) (s : Scenario) : List Content :=
  if s.isOutline then
    s.examples.flatMap fun block => block.header.toList.flatMap fun header =>
      block.body.map fun row => rowContent scope s block header row
  else [plainContent scope s]

def ruleContents (scope : Scope) : List RuleChild → List Content
  | [] => []
  | .background b :: rest => ruleContents { scope with ruleBackground := some b } rest
  | .scenario s :: rest => scenarioContents scope s ++ ruleContents scope rest

def featureContents (scope : Scope) : List FeatureChild → List Content
  | [] => []
  | .background b :: rest => featureContents { scope with featureBackground := some b } rest
  | .scenario s :: rest => scenarioContents scope s ++ featureContents scope rest
  | .rule r :: rest =>
    ruleContents { scope with rule := some r, ruleBackground := none } r.children ++
      featureContents scope rest

/-- What the pickles of a document hold, in their order. -/
def expansion (d : Document) : List Content :=
  match d.feature with
  | none => []
  | some f => featureContents { uri := d.uri, feature := f } f.children

theorem numberSteps_plans (ids : IdSource) (steps : List StepPlan) :
    (numberSteps ids steps).1.map (·.toStepPlan) = steps := by
  induction steps generalizing ids with
  | nil => rfl
  | cons s rest ih => simp [numberSteps, ih]

theorem content_number (uri language : String) (p : Plan) (ids : IdSource) :
    content (p.number uri language ids).1 = { p with uri, language } := by
  simp [content, Plan.number, numberSteps_plans]

theorem content_numberPlans (uri language : String) (ids : IdSource) (plans : List Plan) :
    (numberPlans uri language ids plans).map content =
      plans.map fun p => { p with uri, language } := by
  induction plans generalizing ids with
  | nil => rfl
  | cons p rest ih => simp [numberPlans, content_number, ih]

theorem ofTag_pickleTag : PickleTag.ofTag = pickleTag := rfl

theorem ofStep_content : StepPlan.ofStep = stepContent id [] := by
  funext s
  cases ha : s.argument with
  | none => simp [StepPlan.ofStep, stepContent, ha]
  | some argument =>
    cases argument <;> simp [StepPlan.ofStep, stepContent, PickleArgument.ofStep, ha]

theorem ofRow_content (e : ExampleRow) :
    StepPlan.ofRow e =
      stepContent (ExampleValues.substitute (.ofRows e.header e.row)) [e.row.id] := by
  funext s
  cases ha : s.argument with
  | none => simp [StepPlan.ofRow, stepContent, ha]
  | some argument =>
    cases argument <;> simp [StepPlan.ofRow, stepContent, PickleArgument.ofStep, ha]

theorem scenario_contents (scope : Scope) (s : Scenario) :
    (s.plans ⟨scope.tags, scope.steps⟩).map
        (fun p => { p with uri := scope.uri, language := scope.feature.language }) =
      scenarioContents scope s := by
  unfold Scenario.plans scenarioContents
  split
  · unfold Scenario.exampleRows
    simp only [List.map_flatMap]
    congr 1
    funext block
    cases block.header with
    | none => rfl
    | some header =>
      simp [rowContent, Plan.ofRow, ofStep_content, ofRow_content, ofTag_pickleTag,
        Function.comp_def]
  · simp [plainContent, Plan.ofScenario, ofStep_content, ofTag_pickleTag]

/-- The steps that a rule inherits are those of the feature; its own background follows them. -/
theorem rule_contents (scope : Scope) (i : Inherited) (children : List RuleChild)
    (ht : i.tags = scope.tags)
    (hs : i.steps = (scope.featureBackground.map (·.steps)).getD []) :
    (rulePlans i ((scope.ruleBackground.map (·.steps)).getD []) children).map
        (fun p => { p with uri := scope.uri, language := scope.feature.language }) =
      ruleContents scope children := by
  induction children generalizing scope with
  | nil => rfl
  | cons child rest ih =>
    cases child with
    | background b => exact ih { scope with ruleBackground := some b } ht hs
    | scenario s =>
      simp only [rulePlans, ruleContents, List.map_append, ih scope ht hs]
      rw [← scenario_contents]
      simp only [Scope.steps, ht, hs]

theorem feature_contents (scope : Scope) (children : List FeatureChild)
    (hr : scope.rule = none) (hb : scope.ruleBackground = none) :
    (featurePlans scope.feature.tags ((scope.featureBackground.map (·.steps)).getD []) children).map
        (fun p => { p with uri := scope.uri, language := scope.feature.language }) =
      featureContents scope children := by
  induction children generalizing scope with
  | nil => rfl
  | cons child rest ih =>
    cases child with
    | background b => exact ih { scope with featureBackground := some b } hr hb
    | scenario s =>
      simp only [featurePlans, featureContents, List.map_append, ih scope hr hb]
      rw [← scenario_contents]
      simp [Scope.tags, Scope.steps, hr, hb]
    | rule r =>
      have h := rule_contents { scope with rule := some r, ruleBackground := none }
        ⟨scope.feature.tags ++ r.tags, (scope.featureBackground.map (·.steps)).getD []⟩
        r.children rfl rfl
      simp only [Option.map_none, Option.getD_none] at h
      simp only [featurePlans, featureContents, List.map_append, ih scope hr hb, h]

theorem pickles_contents (d : Document) : d.pickles.map content = expansion d := by
  unfold Document.pickles Document.plans Document.language expansion
  rw [content_numberPlans]
  cases d.feature with
  | none => rfl
  | some f => exact feature_contents { uri := d.uri, feature := f } f.children rfl rfl

/-- The calls of a stream give the pickles of the document one by one and nothing after them, as
taking all of them at once does, and these pickles hold what the expansion says. -/
theorem stream_gives_expansion (d : Document) :
    (∀ k, call (.ofDocument d) k = d.pickles[k]?) ∧
    (∀ j k, j ≤ k → call (.ofDocument d) j = none → call (.ofDocument d) k = none) ∧
    (Stream.ofDocument d).takeAll.1 = d.pickles ∧
    d.pickles.map content = expansion d := by
  have hc : ∀ k, call (.ofDocument d) k = d.pickles[k]? := by
    intro k
    rw [call_picklesLeft, picklesLeft_ofDocument]
  refine ⟨hc, ?_, ?_, pickles_contents d⟩
  · intro j k hjk hj
    rw [hc, List.getElem?_eq_none_iff] at hj ⊢
    exact Nat.le_trans hj hjk
  · rw [takeAll_picklesLeft, picklesLeft_ofDocument]

end Brine.Proofs.PickleExpansion
