import Brine.Proofs.DraftEntries
import Brine.Proofs.PickleSources
import Brine.Proofs.Success

namespace Brine.Proofs.StepTypes
open Line Document DraftSteps DraftEntries Entries Success PickleExpansion PickleSources

def ownType (t : Token) : KeywordType :=
  t.keywordType.getD .unknown

def isResolved : KeywordType → Bool
  | .context | .action | .outcome => true
  | .conjunction | .unknown => false

def nearest? (before : List Token) : Option KeywordType :=
  (before.reverse.map ownType).find? isResolved

def typeAfter (before : List Token) (t : Token) : KeywordType :=
  match ownType t with
  | .conjunction => (nearest? before).getD .conjunction
  | type => type

theorem nearest?_append (before : List Token) (t : Token) :
    nearest? (before ++ [t]) =
      if isResolved (ownType t) then some (ownType t) else nearest? before := by
  rw [nearest?, List.reverse_append, List.map_append, List.find?_append]
  cases h : isResolved (ownType t) <;> simp [h, nearest?]

/-- The type that is kept beside open steps is the nearest one. -/
theorem resolveType_nearest (before : List Token) (t : Token) :
    resolveType (nearest? before) (ownType t) =
      (typeAfter before t, nearest? (before ++ [t])) := by
  rw [nearest?_append, typeAfter]
  cases ownType t <;> rfl

structure StepView where
  location : Location
  keyword : String
  text : String
  type : KeywordType
deriving DecidableEq

/-- What is shown of a background or a scenario. -/
structure BlockView where
  kind : Kind
  location : Location
  steps : List StepView
deriving DecidableEq

def startsBlock : Kind → Bool
  | .background | .scenario | .scenarioOutline => true
  | _ => false

def endsBlock (k : Kind) : Bool :=
  startsBlock k || k = .rule

def stepLines (ts : List Token) : List Token :=
  (ts.takeWhile fun t => !endsBlock t.kind).filter (·.kind = .step)

def readStep (before : List Token) (t : Token) : StepView where
  location := t.location
  keyword := t.keyword.getD ""
  text := t.text
  type := typeAfter before t

def readSteps (ts : List Token) : List StepView :=
  ts.mapIdx fun i t => readStep (ts.take i) t

/-- The backgrounds and scenarios of lines, each with the steps of its own lines. -/
def readBlocks : List Token → List BlockView
  | [] => []
  | t :: ts =>
    if startsBlock t.kind then ⟨t.kind, t.location, readSteps (stepLines ts)⟩ :: readBlocks ts
    else readBlocks ts

def viewStep (s : Step) : StepView :=
  ⟨s.location, s.keyword, s.text, s.keywordType⟩

def viewBackground (b : Background) : BlockView :=
  ⟨.background, b.location, b.steps.map viewStep⟩

def viewScenario (s : Scenario) : BlockView :=
  ⟨kindOf s.kind, s.location, s.steps.map viewStep⟩

def viewRuleChild : RuleChild → BlockView
  | .background b => viewBackground b
  | .scenario s => viewScenario s

def viewFeatureChild : FeatureChild → List BlockView
  | .background b => [viewBackground b]
  | .scenario s => [viewScenario s]
  | .rule r => r.children.map viewRuleChild

/-- The backgrounds and scenarios of a document, also those of its rules. -/
def viewBlocks (doc : Document) : List BlockView :=
  doc.feature.toList.flatMap fun f => f.children.flatMap viewFeatureChild

def viewOpenStep (s : OpenStep) : StepView :=
  ⟨s.location, s.keyword, s.text, s.keywordType⟩

def viewOpenSteps (s : OpenSteps) : List StepView :=
  s.done.reverse.map viewStep ++ s.last.toList.map viewOpenStep

def continueSteps (resolved : Option KeywordType) : List Token → List StepView
  | [] => []
  | t :: ts =>
    ⟨t.location, t.keyword.getD "", t.text, (resolveType resolved (ownType t)).1⟩ ::
      continueSteps (resolveType resolved (ownType t)).2 ts

/-- To keep a type is to look back. -/
theorem continueSteps_nearest (before ts : List Token) :
    continueSteps (nearest? before) ts =
      ts.mapIdx fun i t => readStep (before ++ ts.take i) t := by
  induction ts generalizing before with
  | nil => rfl
  | cons t ts ih => simp [continueSteps, resolveType_nearest, ih, readStep]

theorem continueSteps_none (ts : List Token) : continueSteps none ts = readSteps ts :=
  continueSteps_nearest [] ts

theorem close_view (s : OpenSteps) (ids : IdSource) :
    viewOpenSteps (s.close ids).1 = viewOpenSteps s ∧ (s.close ids).1.resolved = s.resolved := by
  unfold OpenSteps.close
  cases hs : s.last with
  | none => exact ⟨rfl, rfl⟩
  | some step => simp [viewOpenSteps, viewStep, viewOpenStep, hs]

/-- A step that is pushed is the first of those to come. -/
theorem push_view (s : OpenSteps) (ids : IdSource) (t : Token) (ts : List Token) :
    viewOpenSteps (s.push ids t).1 ++ continueSteps (s.push ids t).1.resolved ts =
      viewOpenSteps s ++ continueSteps s.resolved (t :: ts) := by
  obtain ⟨hview, hresolved⟩ := close_view s ids
  have hl := close_last s ids
  rw [← hview, ← hresolved]
  simp [OpenSteps.push, viewOpenSteps, viewOpenStep, continueSteps, ownType, hl]

def viewOpenBlock (ts : List Token) (b : OpenBlock) : BlockView where
  kind := blockLine b.kind
  location := b.heading.location
  steps := viewOpenSteps b.steps ++ continueSteps b.steps.resolved (stepLines ts)

def viewClosed (f : OpenFeature) : List BlockView :=
  f.children.reverse.flatMap viewFeatureChild ++
    f.rule.toList.flatMap fun r => r.children.reverse.map viewRuleChild

def upcomingBlocks (f : OpenFeature) (ts : List Token) : List BlockView :=
  viewClosed f ++ f.block.toList.map (viewOpenBlock ts) ++ readBlocks ts

section Lines

variable {t : Token} (ts : List Token)

theorem stepLines_end (hk : endsBlock t.kind = true) : stepLines (t :: ts) = [] := by
  simp [stepLines, hk]

theorem stepLines_step (hk : t.kind = .step) : stepLines (t :: ts) = t :: stepLines ts := by
  simp [stepLines, endsBlock, startsBlock, hk]

theorem stepLines_other (hk : endsBlock t.kind = false) (hs : t.kind ≠ .step) :
    stepLines (t :: ts) = stepLines ts := by
  simp [stepLines, hk, hs]

theorem readBlocks_other (hk : endsBlock t.kind = false) :
    readBlocks (t :: ts) = readBlocks ts := by
  have hs : startsBlock t.kind = false := by
    rw [endsBlock, Bool.or_eq_false_iff] at hk
    exact hk.1
  simp [readBlocks, hs]

theorem viewOpenBlock_end (hk : endsBlock t.kind = true) (b : OpenBlock) :
    viewOpenBlock (t :: ts) b = viewOpenBlock [] b := by
  rw [viewOpenBlock, stepLines_end ts hk]
  rfl

theorem viewOpenBlock_other (hk : endsBlock t.kind = false) (hs : t.kind ≠ .step) :
    viewOpenBlock (t :: ts) = viewOpenBlock ts := by
  funext b
  rw [viewOpenBlock, stepLines_other ts hk hs, viewOpenBlock]

theorem viewOpenBlock_step (hk : t.kind = .step) (b : OpenBlock) (ids : IdSource) :
    viewOpenBlock ts { b with steps := (b.steps.push ids t).1 } = viewOpenBlock (t :: ts) b := by
  rw [viewOpenBlock, viewOpenBlock, stepLines_step ts hk, push_view]

theorem viewOpenBlock_setArgument {b : OpenBlock} {s : OpenStep} (hs : b.steps.last = some s)
    (a : OpenArgument) : viewOpenBlock ts (setArgument b s a) = viewOpenBlock ts b := by
  simp [viewOpenBlock, setArgument, viewOpenSteps, viewOpenStep, hs]

theorem viewOpenBlock_fillDoc (d : OpenDoc) (b : OpenBlock) :
    viewOpenBlock ts (fillDoc d b) = viewOpenBlock ts b := by
  cases hs : b.steps.last with
  | none => simp [fillDoc, viewOpenBlock, viewOpenSteps, hs]
  | some s => rw [fillDoc_eq d hs, viewOpenBlock_setArgument ts hs]

theorem viewOpenBlock_closeInner (b : OpenBlock) (ids : IdSource) :
    viewOpenBlock ts (b.closeInner ids).1 = viewOpenBlock ts b := by
  obtain ⟨hview, hresolved⟩ := close_view b.steps ids
  unfold OpenBlock.closeInner
  cases b.openExamples <;> simp [viewOpenBlock, hview, hresolved]

end Lines

section Closing

variable (f : OpenFeature) (ids : IdSource)

/-- A block is closed as it is shown without steps to come. -/
theorem viewRuleChild_close (b : OpenBlock) (ids : IdSource) :
    viewRuleChild (b.close ids).1 = viewOpenBlock [] b := by
  obtain ⟨hl, -, hk⟩ := closeInner_closed b ids
  rw [← viewOpenBlock_closeInner [] b ids]
  unfold OpenBlock.close
  cases hb : b.kind with
  | background =>
    rw [hb] at hk
    simp [viewRuleChild, viewBackground, viewOpenBlock, viewOpenSteps, hk, hl, blockLine, stepLines,
      continueSteps]
  | scenario kind =>
    rw [hb] at hk
    simp [viewRuleChild, viewScenario, viewOpenBlock, viewOpenSteps, hk, hl, blockLine, stepLines,
      continueSteps]

theorem viewFeatureChild_childOfFeature (c : RuleChild) :
    viewFeatureChild (childOfFeature c) = [viewRuleChild c] := by
  cases c <;> rfl

theorem viewClosed_closeBlock :
    viewClosed (f.closeBlock ids).1 = viewClosed f ++ f.block.toList.map (viewOpenBlock []) := by
  unfold OpenFeature.closeBlock
  cases hb : f.block with
  | none => simp
  | some b =>
    have hc := viewRuleChild_close b ids
    cases hr : f.rule with
    | none => simp [viewClosed, hr, viewFeatureChild_childOfFeature, hc]
    | some r => simp [viewClosed, hr, hc]

theorem viewClosed_closeRule :
    viewClosed (f.closeRule ids).1 = viewClosed f ++ f.block.toList.map (viewOpenBlock []) := by
  rw [← viewClosed_closeBlock f ids]
  unfold OpenFeature.closeRule
  cases hr : (f.closeBlock ids).1.rule with
  | none => simp [hr]
  | some r => simp [viewClosed, hr, viewFeatureChild]

theorem upcomingBlocks_markBackground (ts : List Token) :
    upcomingBlocks f.markBackground ts = upcomingBlocks f ts := by
  unfold OpenFeature.markBackground
  cases hr : f.rule <;> simp [upcomingBlocks, viewClosed, hr]

/-- A change of a heading that leaves its place changes nothing that is shown. -/
theorem mapHeading_view {g : Heading → Heading} (hg : ∀ h, (g h).location = h.location)
    (ts : List Token) : viewClosed (f.mapHeading g) = viewClosed f ∧
      (f.mapHeading g).block.toList.map (viewOpenBlock ts) =
        f.block.toList.map (viewOpenBlock ts) := by
  unfold OpenFeature.mapHeading
  cases hb : f.block with
  | none => cases hr : f.rule <;> simp [viewClosed, hr]
  | some b => cases he : b.openExamples <;> simp [viewClosed, viewOpenBlock, he, hg]

end Closing

section Features

variable {f f' : OpenFeature} {t : Token} {ts : List Token} {ids : IdSource}
  {r : OpenFeature × IdSource}

/-- A line that is no step and ends no block leaves the blocks. -/
theorem upcomingBlocks_other (hk : endsBlock t.kind = false) (hs : t.kind ≠ .step)
    (hc : viewClosed f' = viewClosed f)
    (hb : f'.block.toList.map (viewOpenBlock ts) = f.block.toList.map (viewOpenBlock ts)) :
    upcomingBlocks f (t :: ts) = upcomingBlocks f' ts := by
  rw [upcomingBlocks, upcomingBlocks, hc, hb, readBlocks_other ts hk, viewOpenBlock_other ts hk hs]

theorem upcomingBlocks_heading (hk : endsBlock t.kind = false) (hs : t.kind ≠ .step)
    {g : Heading → Heading} (hg : ∀ h, (g h).location = h.location) :
    upcomingBlocks f (t :: ts) = upcomingBlocks (f.mapHeading g) ts := by
  obtain ⟨hc, hb⟩ := mapHeading_view f hg ts
  exact upcomingBlocks_other hk hs hc hb

/-- The line of a new block ends the one before it, and its own steps start anew. -/
theorem upcomingBlocks_openBlock (kind : BlockKind) (hk : t.kind = blockLine kind) :
    upcomingBlocks f (t :: ts) = upcomingBlocks (f.openBlock ids kind t).1 ts := by
  have hstarts : startsBlock t.kind = true := by
    rw [hk]
    rcases kind with _ | (_ | _) <;> rfl
  have hends : endsBlock t.kind = true := by rw [endsBlock, hstarts, Bool.true_or]
  have hclosed : viewClosed (f.openBlock ids kind t).1 = viewClosed (f.closeBlock ids).1 := rfl
  have hnew : (f.openBlock ids kind t).1.block.toList.map (viewOpenBlock ts) =
      [⟨t.kind, t.location, readSteps (stepLines ts)⟩] := by
    simp [OpenFeature.openBlock, viewOpenBlock, viewOpenSteps, continueSteps_none,
      Heading.ofToken, hk]
  rw [upcomingBlocks, upcomingBlocks, hclosed, hnew, viewClosed_closeBlock, readBlocks,
    if_pos hstarts, funext (viewOpenBlock_end ts hends)]
  exact List.append_cons ..

/-- A line outside of doc strings leaves the blocks that the feature will show. -/
theorem taken_upcomingBlocks (h : Taken f ids t r) :
    upcomingBlocks f (t :: ts) = upcomingBlocks r.1 ts := by
  cases h with
  | blank hk hd =>
    refine upcomingBlocks_heading (by rw [hk]; rfl) (by simp [hk]) fun h => ?_
    unfold Heading.addBlank
    split <;> rfl
  | text hk hd => exact upcomingBlocks_heading (by rw [hk]; rfl) (by simp [hk]) fun _ => rfl
  | skipped hk | language hk | tags hk =>
    exact upcomingBlocks_other (by rw [hk]; rfl) (by simp [hk]) rfl rfl
  | rule hk hu =>
    have hends : endsBlock t.kind = true := by rw [hk]; rfl
    have hread : readBlocks (t :: ts) = readBlocks ts := by simp [readBlocks, startsBlock, hk]
    obtain ⟨hb, hr, -, -⟩ := closeRule_closed (quiet f) ids
    have hclosed : viewClosed ((quiet f).openRule ids t).1 =
        viewClosed ((quiet f).closeRule ids).1 := by
      simp [viewClosed, OpenFeature.openRule, hr]
    have hnone : ((quiet f).openRule ids t).1.block = none := hb
    rw [upcomingBlocks, upcomingBlocks, hclosed, hnone, viewClosed_closeRule, hread,
      funext (viewOpenBlock_end ts hends)]
    simp [quiet, viewClosed]
  | background hk hw hs =>
    rw [upcomingBlocks_markBackground]
    exact upcomingBlocks_openBlock (f := quiet f) .background hk
  | scenario hk => exact upcomingBlocks_openBlock (f := quiet f) (.scenario .scenario) hk
  | outline hk => exact upcomingBlocks_openBlock (f := quiet f) (.scenario .outline) hk
  | examples b hk hb hu =>
    obtain ⟨hb, -⟩ := block_of_scenario hb
    refine upcomingBlocks_other (by rw [hk]; rfl) (by simp [hk]) rfl ?_
    rw [hb, Option.toList_some, List.map_singleton, ← viewOpenBlock_closeInner ts b ids]
    rfl
  | step b hk hw hb hx ho =>
    have hread : readBlocks (t :: ts) = readBlocks ts := readBlocks_other ts (by rw [hk]; rfl)
    simp only [upcomingBlocks, hb, Option.toList_some, List.map_singleton,
      viewOpenBlock_step ts hk, hread]
    rfl
  | exampleRow b e hk hw hb ho =>
    refine upcomingBlocks_other (by rw [hk]; rfl) (by simp [hk]) rfl ?_
    rw [hb]
    rfl
  | firstRow b s hk hw hb ho hl ha | nextRow b s _ _ hk hw hb ho hl ha =>
    refine upcomingBlocks_other (by rw [hk]; rfl) (by simp [hk]) rfl ?_
    simp only [hb, Option.toList_some, List.map_singleton, viewOpenBlock_setArgument ts hl]
  | doc b s hk hw hb ho hl ha =>
    exact upcomingBlocks_other (by rw [hk]; rfl) (by simp [hk]) rfl rfl

theorem takenDoc_upcomingBlocks {d : OpenDoc} (h : TakenDoc f d t f') :
    upcomingBlocks f (t :: ts) = upcomingBlocks f' ts := by
  cases h with
  | content hk => exact upcomingBlocks_other (by rw [hk]; rfl) (by simp [hk]) rfl rfl
  | closed hk =>
    refine upcomingBlocks_other (by rw [hk]; rfl) (by simp [hk]) rfl ?_
    cases f.block with
    | none => rfl
    | some b => simp [viewOpenBlock_fillDoc]

end Features

def draftBlocks (d : Draft) (ts : List Token) : List BlockView :=
  match d.stage with
  | .start _ => readBlocks ts
  | .feature f => upcomingBlocks f ts

section Drafts

variable {d d' : Draft} {t eof : Token} {ts : List Token} {language uri : String} {doc : Document}

/-- A line leaves the blocks that the draft will show. -/
theorem draftTaken_blocks (h : DraftTaken d t d') :
    draftBlocks d (t :: ts) = draftBlocks d' ts := by
  cases h with
  | comment hk hd =>
    have hends : endsBlock t.kind = false := by rw [hk]; rfl
    cases hs : d.stage with
    | start tags => simp only [draftBlocks, hs, readBlocks_other ts hends]
    | feature f =>
      simp only [draftBlocks, hs]
      exact upcomingBlocks_other hends (by simp [hk]) rfl rfl
  | leading tags hd hk =>
    have hends : endsBlock t.kind = false := by rcases hk with hk | hk <;> rw [hk] <;> rfl
    simp only [draftBlocks, hd, readBlocks_other ts hends]
  | tags tags hd hk =>
    have hends : endsBlock t.kind = false := by rw [hk]; rfl
    simp only [draftBlocks, hd, readBlocks_other ts hends]
  | feature tags hd hk =>
    have hends : endsBlock t.kind = false := by rw [hk]; rfl
    simp only [draftBlocks, hd, readBlocks_other ts hends]
    rfl
  | inside f f' doc hf hd h =>
    simp only [draftBlocks, hf]
    exact takenDoc_upcomingBlocks h
  | outside f r hf hd hk h =>
    simp only [draftBlocks, hf]
    exact taken_upcomingBlocks h

theorem finish_blocks (h : d.finish language uri eof = .ok doc) :
    viewBlocks doc = draftBlocks d [] := by
  cases finished_of_finish h with
  | empty hd => simp [viewBlocks, draftBlocks, hd, readBlocks]
  | feature f hd _ _ =>
    obtain ⟨hb, hr, -, -⟩ := closeRule_closed f d.ids
    have hclosed := viewClosed_closeRule f d.ids
    simp only [viewClosed, hr, Option.toList_none, List.flatMap_nil, List.append_nil] at hclosed
    simp [viewBlocks, draftBlocks, hd, upcomingBlocks, Draft.closeFeature, hclosed, readBlocks,
      viewClosed]

/-- The blocks of a document are those of the lines up to the end of the text. -/
theorem build_blocks (h : d.build language uri eof ts = .ok doc) :
    viewBlocks doc = draftBlocks d (ts.takeWhile (·.kind ≠ .eof)) := by
  induction ts generalizing d with
  | nil => exact finish_blocks h
  | cons t ts ih =>
    by_cases hk : t.kind = .eof
    · rw [Draft.build, if_pos hk] at h
      rw [List.takeWhile_cons_of_neg (by simp [hk])]
      exact finish_blocks h
    · obtain ⟨d', ht, h⟩ := draftTaken_of_build hk h
      rw [List.takeWhile_cons_of_pos (by simp [hk]), draftTaken_blocks ht]
      exact ih h

end Drafts

inductive Serves : KeywordType → StepPurpose → Prop
  | context : Serves .context .context
  | action : Serves .action .action
  | outcome : Serves .outcome .outcome
  | unresolved : Serves .conjunction .unknown
  | unknown : Serves .unknown .unknown

theorem serves_ofKeyword (type : KeywordType) : Serves type (.ofKeyword type) := by
  cases type <;> constructor

/-- The plan of a step names the step first and has the purpose of its type. -/
structure Plans (p : StepPlan) (s : Step) : Prop where
  source : p.sources.head? = some s.id
  purpose : Serves s.keywordType p.purpose

theorem plans_ofStep (s : Step) : Plans (.ofStep s) s :=
  ⟨rfl, serves_ofKeyword _⟩

theorem plans_ofRow (e : ExampleRow) (s : Step) : Plans (.ofRow e s) s :=
  ⟨rfl, serves_ofKeyword _⟩

theorem plans_map {plan : Step → StepPlan} (h : ∀ s, Plans (plan s) s) (steps : List Step) :
    List.Forall₂ Plans (steps.map plan) steps :=
  List.forall₂_map_left_iff.mpr (List.forall₂_same.mpr fun s _ => h s)

/-- The steps of a plan are those that the scenario inherits and its own. -/
theorem scenario_plans {i : Inherited} {s : Scenario} {p : Plan} (h : p ∈ s.plans i) :
    List.Forall₂ Plans p.steps (i.steps ++ s.steps) := by
  unfold Scenario.plans at h
  split at h
  · obtain ⟨e, -, rfl⟩ := List.mem_map.mp h
    exact List.rel_append (plans_map plans_ofStep i.steps) (plans_map (plans_ofRow e) s.steps)
  · obtain rfl := List.mem_singleton.mp h
    exact List.rel_append (plans_map plans_ofStep i.steps) (plans_map plans_ofStep s.steps)

/-- A step has the type of its keyword; a conjunction has that of the nearest step before it, in its
own background or scenario, whose keyword has one, and stays a conjunction if there is none.
Whatever else stands between the steps does not count. The steps of a pickle, those of backgrounds
before its scenario and those of the scenario, have the purposes of these types. -/
theorem ofTokens_types {source : Tokens} {uri : String} {doc : Document}
    (h : ofTokens source uri = .ok doc) :
    viewBlocks doc = readBlocks (source.tokens.takeWhile (·.kind ≠ .eof)) ∧
      ∀ p ∈ doc.pickles, ∃ place ∈ placed doc, ∃ inherited, StepsOf place.backgrounds inherited ∧
        List.Forall₂ Plans (p.steps.map (·.toStepPlan)) (inherited ++ place.scenario.steps) := by
  refine ⟨build_blocks h, fun p hp => ?_⟩
  have hplan : (content p).toPlan ∈ doc.plans := by
    rw [← pickles_plans doc]
    exact List.mem_map.mpr ⟨p, hp, rfl⟩
  obtain ⟨place, hplace, i, hof, hi⟩ := plans_placed hplan
  exact ⟨place, hplace, i.steps, hi, scenario_plans hof⟩

def numbered (lines : List (Kind × Option KeywordType)) : List Token :=
  lines.mapIdx fun i (kind, keywordType) => { kind, location := ⟨i + 1, 1⟩, keywordType }

def typedLines : Tokens where
  language := "en"
  tokens := numbered
    [(.feature, none), (.background, none), (.step, some .context), (.scenario, none),
      (.step, some .conjunction), (.step, some .action), (.tableRow, none), (.step, some .unknown),
      (.comment, none), (.step, some .conjunction), (.rule, none), (.scenario, none),
      (.step, some .conjunction), (.eof, none)]

theorem ofTokens_types_sample :
    ∃ doc, ofTokens typedLines "" = .ok doc ∧
      viewBlocks doc = readBlocks (typedLines.tokens.takeWhile (·.kind ≠ .eof)) ∧
      ∀ p ∈ doc.pickles, ∃ place ∈ placed doc, ∃ inherited, StepsOf place.backgrounds inherited ∧
        List.Forall₂ Plans (p.steps.map (·.toStepPlan)) (inherited ++ place.scenario.steps) := by
  have ho : (ofTokens typedLines "").isOk = true := by decide +kernel
  cases h : ofTokens typedLines "" with
  | error e => simp [h, Except.isOk, Except.toBool] at ho
  | ok doc => exact ⟨doc, rfl, ofTokens_types h⟩

-- The wildcard has no type and gives none, so the conjunction after it goes on with the action. The
-- first steps of the scenarios do not look back at the blocks before them.
example : (ofTokens typedLines "").toOption.map (fun doc =>
      (viewBlocks doc).map fun block => block.steps.map (·.type)) =
    some [[.context], [.conjunction, .action, .unknown, .action], [.conjunction]] := by
  decide +kernel

end Brine.Proofs.StepTypes
