import Brine.Proofs.Conservation
import Mathlib.Algebra.Group.Nat.Defs
import Mathlib.Data.List.Nodup

namespace Brine.Proofs.NodeIds
open Line Document DraftSteps DraftEntries Conservation

/-- What has an identifier in a document. -/
inductive Node where
  | tag (t : Tag)
  | row (r : Row)
  | step (s : Step)
  | examples (e : Examples)
  | background (b : Background)
  | scenario (s : Scenario)
  | rule (r : Rule)
deriving DecidableEq

def Node.id : Node → String
  | .tag t => t.id
  | .row r => r.id
  | .step s => s.id
  | .examples e => e.id
  | .background b => b.id
  | .scenario s => s.id
  | .rule r => r.id

def argumentNodes : Option StepArgument → List Node
  | some (.dataTable table) => table.rows.map .row
  | _ => []

def stepNodes (s : Step) : List Node :=
  argumentNodes s.argument ++ [.step s]

def examplesNodes (e : Examples) : List Node :=
  e.tags.map .tag ++ (e.header.toList ++ e.body).map .row ++ [.examples e]

def backgroundNodes (b : Background) : List Node :=
  b.steps.flatMap stepNodes ++ [.background b]

def scenarioNodes (s : Scenario) : List Node :=
  s.tags.map .tag ++ s.steps.flatMap stepNodes ++ s.examples.flatMap examplesNodes ++ [.scenario s]

def ruleChildNodes : RuleChild → List Node
  | .background b => backgroundNodes b
  | .scenario s => scenarioNodes s

def ruleNodes (r : Rule) : List Node :=
  r.tags.map .tag ++ r.children.flatMap ruleChildNodes ++ [.rule r]

def featureChildNodes : FeatureChild → List Node
  | .background b => backgroundNodes b
  | .scenario s => scenarioNodes s
  | .rule r => ruleNodes r

def featureNodes (f : Feature) : List Node :=
  f.tags.map .tag ++ f.children.flatMap featureChildNodes

/-- The nodes of a document, each after what it holds. -/
def nodes (d : Document) : List Node :=
  d.feature.toList.flatMap featureNodes

def openStepNodes (s : OpenStep) : List Node :=
  argumentNodes s.argument.close

def openStepsNodes (s : OpenSteps) : List Node :=
  s.done.reverse.flatMap stepNodes ++ s.last.toList.flatMap openStepNodes

def openExamplesNodes (e : OpenExamples) : List Node :=
  e.heading.tags.map .tag ++ e.rows.reverse.map .row

def blockTags : BlockKind → Heading → List Node
  | .background, _ => []
  | .scenario _, h => h.tags.map .tag

def openBlockNodes (b : OpenBlock) : List Node :=
  blockTags b.kind b.heading ++ openStepsNodes b.steps ++
    b.examples.reverse.flatMap examplesNodes ++ b.openExamples.toList.flatMap openExamplesNodes

def openRuleNodes (r : OpenRule) : List Node :=
  r.heading.tags.map .tag ++ r.children.reverse.flatMap ruleChildNodes

def openNodes (f : OpenFeature) : List Node :=
  f.heading.tags.map .tag ++ f.children.reverse.flatMap featureChildNodes ++
    f.rule.toList.flatMap openRuleNodes ++ f.block.toList.flatMap openBlockNodes

def draftNodes (d : Draft) : List Node :=
  match d.stage with
  | .start tags => (tags.getD []).map .tag
  | .feature f => openNodes f

/-- Identifiers that a source gives one after the other, and the source after them. -/
inductive Draws : IdSource → List String → IdSource → Prop
  | done (ids : IdSource) : Draws ids [] ids
  | next {ids ids' : IdSource} {new : List String} : Draws ids.draw.2 new ids' →
      Draws ids (ids.draw.1 :: new) ids'

theorem Draws.append {ids ids' ids'' : IdSource} {new more : List String} (h : Draws ids new ids')
    (h' : Draws ids' more ids'') : Draws ids (new ++ more) ids'' := by
  induction h with
  | done ids => exact h'
  | next h ih => exact .next (ih h')

/-- Identifiers count up until their number is the greatest. -/
theorem Draws.numerals {ids ids' : IdSource} {new : List String} (h : Draws ids new ids') {k : Nat}
    (hk : ids.next = min k IdSource.greatest) :
    new = (List.range' k new.length).map fun i =>
      ids.stem ++ (min i IdSource.greatest).repr := by
  induction h generalizing k with
  | done ids => rfl
  | @next ids ids' new h ih =>
    have hd : ids.draw.2.next = min (k + 1) IdSource.greatest := by
      simp only [IdSource.draw, hk]
      omega
    rw [List.length_cons, List.range'_succ, List.map_cons]
    refine congrArg₂ List.cons ?_ (ih hd)
    rw [IdSource.draw, hk]

/-- Numbers in range are different identifiers. -/
theorem numerals_nodup (stem : String) {n : Nat} (h : n ≤ IdSource.greatest + 1) :
    ((List.range n).map fun i => stem ++ (min i IdSource.greatest).repr).Nodup := by
  refine List.Nodup.map_on ?_ List.nodup_range
  intro i hi j hj hij
  have hr : (min i IdSource.greatest).repr = (min j IdSource.greatest).repr := by
    simpa [← String.toList_inj] using hij
  -- The digits of a number give it back.
  have he : min i IdSource.greatest = min j IdSource.greatest := by
    simpa [Nat.repr_eq_ofList_toDigits, Nat.ofDigitChars_toDigits] using
      congrArg (Nat.ofDigitChars 10 ·.toList 0) hr
  rw [List.mem_range] at hi hj
  omega

theorem Draws.source {ids ids' : IdSource} {new : List String} (h : Draws ids new ids') {k : Nat}
    (hk : ids.next = min k IdSource.greatest) :
    ids' = { ids with next := min (k + new.length) IdSource.greatest } := by
  induction h generalizing k with
  | done ids =>
    obtain ⟨stem, next⟩ := ids
    exact congrArg (IdSource.mk stem) hk
  | @next ids ids' new h ih =>
    have hd : ids.draw.2.next = min (k + 1) IdSource.greatest := by
      simp only [IdSource.draw, hk]
      omega
    rw [ih hd, List.length_cons, Nat.add_right_comm k 1, Nat.add_assoc k]
    rfl

section Fresh

variable {ids ids' : IdSource} {new : List String}

theorem Draws.from_zero (h : Draws ids new ids') (hk : ids.next = 0) :
    new = (List.range new.length).map fun i =>
      ids.stem ++ (min i IdSource.greatest).repr := by
  rw [List.range_eq_range']
  exact h.numerals (hk.trans (Nat.zero_min _).symm)

theorem Draws.nodup (h : Draws ids new ids') (hk : ids.next = 0)
    (hl : new.length ≤ IdSource.greatest + 1) : new.Nodup := by
  rw [h.from_zero hk]
  exact numerals_nodup ids.stem hl

/-- A source that has not given all identifiers has given each number once. -/
theorem Draws.counts (h : Draws ids new ids') (hk : ids.next = 0) (hl : new.length < 2 ^ 64) :
    new = (List.range new.length).map (fun i => ids.stem ++ i.repr) ∧
      ids' = { ids with next := new.length } := by
  have hg : new.length ≤ IdSource.greatest := by
    simp only [IdSource.greatest]
    omega
  constructor
  · refine (h.from_zero hk).trans (List.map_congr_left fun i hi => ?_)
    rw [Nat.min_eq_left (Nat.le_trans (Nat.le_of_lt (List.mem_range.mp hi)) hg)]
  · rw [h.source (hk.trans (Nat.zero_min _).symm), Nat.zero_add, Nat.min_eq_left hg]

end Fresh

def Adds (ids : IdSource) (before after : List Node) (ids' : IdSource) : Prop :=
  ∃ new, after = before ++ new ∧ Draws ids (new.map Node.id) ids'

section Adding

variable {ids ids' ids'' : IdSource} {before after later : List Node}

theorem Adds.same (ids : IdSource) (before : List Node) : Adds ids before before ids :=
  ⟨[], (List.append_nil before).symm, .done ids⟩

theorem Adds.trans (h : Adds ids before after ids') (h' : Adds ids' after later ids'') :
    Adds ids before later ids'' := by
  obtain ⟨new, rfl, hd⟩ := h
  obtain ⟨more, rfl, hd'⟩ := h'
  refine ⟨new ++ more, List.append_assoc .., ?_⟩
  rw [List.map_append]
  exact hd.append hd'

theorem Adds.one {n : Node} (ids : IdSource) (before : List Node) (hn : n.id = ids.draw.1) :
    Adds ids before (before ++ [n]) ids.draw.2 := by
  refine ⟨[n], rfl, ?_⟩
  rw [List.map_singleton, hn]
  exact .next (.done _)

/-- What comes before all of them does not matter. -/
theorem Adds.prepend (h : Adds ids before after ids') (first : List Node) :
    Adds ids (first ++ before) (first ++ after) ids' := by
  obtain ⟨new, rfl, hd⟩ := h
  exact ⟨new, (List.append_assoc ..).symm, hd⟩

end Adding

theorem tagsOfLine_draws (ids : IdSource) (line : Nat) (items : List Item) :
    Draws ids ((tagsOfLine ids line items).1.map (·.id)) (tagsOfLine ids line items).2 := by
  induction items generalizing ids with
  | nil => exact .done ids
  | cons item items ih => exact .next (ih _)

theorem tagsOfLines_draws (ids : IdSource) (ts : List Token) :
    Draws ids ((tagsOfLines ids ts).1.map (·.id)) (tagsOfLines ids ts).2 := by
  induction ts generalizing ids with
  | nil => exact .done ids
  | cons t ts ih =>
    simp only [tagsOfLines, List.map_append]
    exact (tagsOfLine_draws ids _ _).append (ih _)

theorem adds_tags {ids ids' : IdSource} {tags : List Tag} (before : List Node)
    (h : Draws ids (tags.map (·.id)) ids') :
    Adds ids before (before ++ tags.map .tag) ids' := by
  refine ⟨tags.map .tag, rfl, ?_⟩
  rw [List.map_map]
  exact h

theorem waitingTags_adds (ids : IdSource) (w : Option WaitingTags) (before : List Node) :
    Adds ids before (before ++ (waitingTags ids w).1.map .tag) (waitingTags ids w).2 := by
  apply adds_tags
  cases w with
  | none => exact .done ids
  | some w => exact tagsOfLines_draws ids _

theorem openSteps_close_adds (s : OpenSteps) (ids : IdSource) :
    Adds ids (openStepsNodes s) (openStepsNodes (s.close ids).1) (s.close ids).2 := by
  unfold OpenSteps.close
  cases hs : s.last with
  | none => exact .same ids _
  | some step =>
    have hn (closed : Step) (ha : closed.argument = step.argument.close) :
        openStepsNodes { s with done := closed :: s.done, last := none } =
          openStepsNodes s ++ [.step closed] := by
      simp [openStepsNodes, stepNodes, openStepNodes, hs, ha]
    simp only [hn]
    exact .one ids _ rfl

theorem openExamples_close_adds (e : OpenExamples) (ids : IdSource) :
    Adds ids (openExamplesNodes e) (examplesNodes (e.close ids).1) (e.close ids).2 := by
  have hr : e.rows.reverse.head?.toList ++ e.rows.reverse.tail = e.rows.reverse := by
    cases e.rows.reverse <;> rfl
  have h := Adds.one (n := .examples (e.close ids).1) ids (openExamplesNodes e) rfl
  simp only [openExamplesNodes, examplesNodes, OpenExamples.close, hr] at h ⊢
  exact h

/-- A step is closed only where there are no examples after it. -/
theorem closeInner_adds {b : OpenBlock} (hb : Orderly b) (ids : IdSource) :
    Adds ids (openBlockNodes b) (openBlockNodes (b.closeInner ids).1) (b.closeInner ids).2 := by
  cases hl : b.steps.last with
  | some s =>
    obtain ⟨hx, ho⟩ := hb.steps (by simp [hl])
    have h := (openSteps_close_adds b.steps ids).prepend (blockTags b.kind b.heading)
    simpa [OpenBlock.closeInner, openBlockNodes, hx, ho] using h
  | none =>
    have hc : b.steps.close ids = (b.steps, ids) := by simp [OpenSteps.close, hl]
    cases ho : b.openExamples with
    | none =>
      simp only [OpenBlock.closeInner, hc, ho, openBlockNodes]
      exact .same ids _
    | some e =>
      have h := (openExamples_close_adds e ids).prepend
        (blockTags b.kind b.heading ++ openStepsNodes b.steps ++
          b.examples.reverse.flatMap examplesNodes)
      simpa [OpenBlock.closeInner, hc, ho, openBlockNodes] using h

def childNode : RuleChild → Node
  | .background b => .background b
  | .scenario s => .scenario s

/-- Closing a block adds what is open inside it, then the block. -/
theorem block_close_adds {b : OpenBlock} (hb : Orderly b) (ids : IdSource) :
    Adds ids (openBlockNodes b) (ruleChildNodes (b.close ids).1) (b.close ids).2 := by
  obtain ⟨hs, he, hc⟩ := closeInner_closed b ids
  have hn : ruleChildNodes (b.close ids).1 =
      openBlockNodes (b.closeInner ids).1 ++ [childNode (b.close ids).1] ∧
      (childNode (b.close ids).1).id = (b.closeInner ids).2.draw.1 ∧
      (b.close ids).2 = (b.closeInner ids).2.draw.2 := by
    unfold OpenBlock.close
    cases hk : b.kind with
    | background =>
      have hx := closeInner_examples ids hb hk
      rw [hk] at hc
      simp [openBlockNodes, openStepsNodes, blockTags, ruleChildNodes, backgroundNodes, childNode,
        Node.id, hc, hs, he, hx]
    | scenario kind =>
      rw [hk] at hc
      simp [openBlockNodes, openStepsNodes, blockTags, ruleChildNodes, scenarioNodes, childNode,
        Node.id, hc, hs, he]
  rw [hn.1, hn.2.2]
  exact (closeInner_adds hb ids).trans (.one _ _ hn.2.1)

theorem featureChildNodes_childOfFeature (c : RuleChild) :
    featureChildNodes (childOfFeature c) = ruleChildNodes c := by
  cases c <;> rfl

section Features

variable {f f' : OpenFeature}

theorem closeBlock_adds (hf : ∀ b, f.block = some b → Orderly b) (ids : IdSource) :
    Adds ids (openNodes f) (openNodes (f.closeBlock ids).1) (f.closeBlock ids).2 := by
  unfold OpenFeature.closeBlock
  cases hb : f.block with
  | none => exact .same ids _
  | some b =>
    have h := block_close_adds (hf b hb) ids
    cases hr : f.rule with
    | none =>
      have h := h.prepend (f.heading.tags.map .tag ++ f.children.reverse.flatMap featureChildNodes)
      simpa [openNodes, hb, hr, featureChildNodes_childOfFeature] using h
    | some r =>
      have h := h.prepend (f.heading.tags.map .tag ++
        f.children.reverse.flatMap featureChildNodes ++ openRuleNodes r)
      simpa [openNodes, hb, hr, openRuleNodes] using h

theorem closeRule_adds (hf : ∀ b, f.block = some b → Orderly b) (ids : IdSource) :
    Adds ids (openNodes f) (openNodes (f.closeRule ids).1) (f.closeRule ids).2 := by
  refine (closeBlock_adds hf ids).trans ?_
  obtain ⟨hb, -, -⟩ := closeBlock_closed f ids
  unfold OpenFeature.closeRule
  cases hr : (f.closeBlock ids).1.rule with
  | none =>
    simp only [hr]
    exact .same _ _
  | some r =>
    have hn (closed : Rule) (ht : closed.tags = r.heading.tags)
        (hc : closed.children = r.children.reverse) :
        openNodes { (f.closeBlock ids).1 with
            rule := none, children := .rule closed :: (f.closeBlock ids).1.children } =
          openNodes (f.closeBlock ids).1 ++ [.rule closed] := by
      simp [openNodes, openRuleNodes, featureChildNodes, ruleNodes, hb, hr, ht, hc]
    simp only [hr, hn]
    exact .one _ _ rfl

theorem openBlock_adds {kind : BlockKind} (hf : ∀ b, f.block = some b → Orderly b)
    (hw : kind = .background → f.waiting = none) (ids : IdSource) (t : Token) :
    Adds ids (openNodes f) (openNodes (f.openBlock ids kind t).1) (f.openBlock ids kind t).2 := by
  refine (closeBlock_adds hf ids).trans ?_
  obtain ⟨hb, hc, -⟩ := closeBlock_closed f ids
  have h := waitingTags_adds (f.closeBlock ids).2 (f.closeBlock ids).1.waiting
    (openNodes (f.closeBlock ids).1)
  cases kind with
  | background =>
    -- A background lists no tags, so none may be waiting for it.
    have hn : (f.closeBlock ids).1.waiting = none := hc.trans (hw rfl)
    simpa [OpenFeature.openBlock, openNodes, openBlockNodes, openStepsNodes, blockTags, hb, hn,
      waitingTags] using h
  | scenario kind =>
    simpa [OpenFeature.openBlock, openNodes, openBlockNodes, openStepsNodes, blockTags, hb,
      Heading.ofToken] using h

theorem openRule_adds (hf : ∀ b, f.block = some b → Orderly b) (ids : IdSource) (t : Token) :
    Adds ids (openNodes f) (openNodes (f.openRule ids t).1) (f.openRule ids t).2 := by
  refine (closeRule_adds hf ids).trans ?_
  obtain ⟨hb, hr, -⟩ := closeRule_closed f ids
  have h := waitingTags_adds (f.closeRule ids).2 (f.closeRule ids).1.waiting
    (openNodes (f.closeRule ids).1)
  simpa [OpenFeature.openRule, openNodes, openRuleNodes, hb, hr, Heading.ofToken] using h

theorem openExamples_adds {b : OpenBlock} (hb : f.block = some b) (ho : Orderly b)
    (ids : IdSource) (t : Token) :
    Adds ids (openNodes f) (openNodes (f.openExamples b ids t).1) (f.openExamples b ids t).2 := by
  obtain ⟨-, he, -⟩ := closeInner_closed b ids
  have hc : Adds ids (openNodes f) (openNodes { f with block := some (b.closeInner ids).1 })
      (b.closeInner ids).2 := by
    have h := (closeInner_adds ho ids).prepend (f.heading.tags.map .tag ++
      f.children.reverse.flatMap featureChildNodes ++ f.rule.toList.flatMap openRuleNodes)
    simpa [openNodes, hb] using h
  refine hc.trans ?_
  have h := waitingTags_adds (b.closeInner ids).2 f.waiting
    (openNodes { f with block := some (b.closeInner ids).1 })
  simpa [OpenFeature.openExamples, openNodes, openBlockNodes, openExamplesNodes, he,
    Heading.ofToken] using h

theorem openNodes_markBackground (f : OpenFeature) :
    openNodes f.markBackground = openNodes f := by
  unfold OpenFeature.markBackground
  split
  · rename_i r hr
    simp [openNodes, openRuleNodes, hr]
  · rfl

/-- What changes no tags of headings changes no nodes. -/
theorem openNodes_mapHeading (f : OpenFeature) {g : Heading → Heading}
    (hg : ∀ h, (g h).tags = h.tags) : openNodes (f.mapHeading g) = openNodes f := by
  unfold OpenFeature.mapHeading
  split
  · rename_i b hb
    split
    · rename_i e he
      simp [openNodes, openBlockNodes, openExamplesNodes, hb, he, hg]
    · rename_i he
      cases hk : b.kind <;> simp [openNodes, openBlockNodes, blockTags, hb, he, hk, hg]
  · rename_i r hb hr
    simp [openNodes, openRuleNodes, hb, hr, hg]
  · rename_i hb hr
    simp [openNodes, hb, hr, hg]

theorem addBlank_tags (h : Heading) : h.addBlank.tags = h.tags := by
  unfold Heading.addBlank
  split <;> rfl

theorem row_adds (ids : IdSource) (t : Token) (before : List Node) :
    Adds ids before (before ++ [.row (rowOf ids t).1]) (rowOf ids t).2 :=
  .one ids before rfl

theorem push_adds (s : OpenSteps) (ids : IdSource) (t : Token) :
    Adds ids (openStepsNodes s) (openStepsNodes (s.push ids t).1) (s.push ids t).2 := by
  have hl := close_last s ids
  have h := openSteps_close_adds s ids
  simpa [OpenSteps.push, openStepsNodes, openStepNodes, OpenArgument.close, argumentNodes, hl]
    using h

/-- What is added to the open block comes last. -/
theorem setBlock_adds {b b' : OpenBlock} {ids ids' : IdSource} (hb : f.block = some b)
    (h : Adds ids (openBlockNodes b) (openBlockNodes b') ids') :
    Adds ids (openNodes f) (openNodes { quiet f with block := some b' }) ids' := by
  have h := h.prepend (f.heading.tags.map .tag ++ f.children.reverse.flatMap featureChildNodes ++
    f.rule.toList.flatMap openRuleNodes)
  simpa [openNodes, quiet, hb] using h

theorem setArgument_adds {b : OpenBlock} {s : OpenStep} {a : OpenArgument} {ids ids' : IdSource}
    (hb : Orderly b) (hs : b.steps.last = some s)
    (h : Adds ids (argumentNodes s.argument.close) (argumentNodes a.close) ids') :
    Adds ids (openBlockNodes b) (openBlockNodes (setArgument b s a)) ids' := by
  obtain ⟨hx, ho⟩ := hb.steps (by simp [hs])
  have h := h.prepend (blockTags b.kind b.heading ++ b.steps.done.reverse.flatMap stepNodes)
  simpa [openBlockNodes, setArgument, openStepsNodes, openStepNodes, hs, hx, ho] using h

def Vacant (f : OpenFeature) : Prop :=
  f.docString ≠ none → ∀ b s, f.block = some b → b.steps.last = some s → s.argument = .none

variable {ids : IdSource} {t : Token} {r : OpenFeature × IdSource}

/-- A line outside of doc strings adds nodes at the end. -/
theorem taken_adds (hs : Sound f) (h : Taken f ids t r) :
    Adds ids (openNodes f) (openNodes r.1) r.2 := by
  cases h with
  | blank =>
    rw [openNodes_mapHeading f addBlank_tags]
    exact .same ids _
  | text =>
    have ht (h : Heading) : (h.addLine t.text).tags = h.tags := rfl
    rw [openNodes_mapHeading f ht]
    exact .same ids _
  | skipped | language | tags | doc => exact .same ids _
  | rule => exact @openRule_adds (quiet f) hs.block ids t
  | background hk hw _ =>
    rw [openNodes_markBackground]
    exact @openBlock_adds (quiet f) .background hs.block (fun _ => hw) ids t
  | scenario | outline => exact @openBlock_adds (quiet f) (.scenario _) hs.block nofun ids t
  | examples b hk hb hu =>
    obtain ⟨hb, -⟩ := block_of_scenario hb
    exact @openExamples_adds (quiet f) b hb (hs.block b hb) ids t
  | step b hk hw hb hx ho =>
    refine setBlock_adds hb ?_
    have h := (push_adds b.steps ids t).prepend (blockTags b.kind b.heading)
    simpa [openBlockNodes, hx, ho] using h
  | exampleRow b e hk hw hb ho =>
    refine setBlock_adds hb ?_
    have h := row_adds ids t (openBlockNodes b)
    simpa [openBlockNodes, openExamplesNodes, ho] using h
  | firstRow b s hk hw hb ho hl ha =>
    refine setBlock_adds hb (setArgument_adds (hs.block b hb) hl ?_)
    rw [ha]
    exact row_adds ids t []
  | nextRow b s location rows hk hw hb ho hl ha =>
    refine setBlock_adds hb (setArgument_adds (hs.block b hb) hl ?_)
    rw [ha]
    have h := row_adds ids t (rows.reverse.map .row)
    simpa [OpenArgument.close, argumentNodes] using h

/-- A doc string is opened only at a step without an argument. -/
theorem taken_vacant (hd : f.docString = none) (h : Taken f ids t r) : Vacant r.1 := by
  have hn {g : OpenFeature} (hg : g.docString = f.docString) : Vacant g :=
    fun h => absurd (hg.trans hd) h
  cases h with
  | blank | text => exact hn (mapHeading_frame f _).1
  | skipped | language | tags | examples | step | exampleRow | firstRow | nextRow => exact hn rfl
  | rule => exact hn (openRule_frame (quiet f) ids t).1
  | background =>
    exact hn ((markBackground_frame _).1.trans (openBlock_frame (quiet f) ids _ t).1)
  | scenario | outline => exact hn (openBlock_frame (quiet f) ids _ t).1
  | doc b s hk hw hb ho hl ha =>
    intro _ b' s' hb' hl'
    cases hb.symm.trans hb'
    cases hl.symm.trans hl'
    exact ha

/-- A line of a doc string adds no nodes. -/
theorem takenDoc_nodes {d : OpenDoc} (hv : Vacant f) (hd : f.docString = some d)
    (h : TakenDoc f d t f') : openNodes f' = openNodes f := by
  cases h with
  | content => rfl
  | closed hk =>
    cases hb : f.block with
    | none => simp [openNodes, hb]
    | some b =>
      cases hl : b.steps.last with
      | none => simp [openNodes, openBlockNodes, openStepsNodes, fillDoc, hb, hl]
      | some s =>
        have ha := hv (by simp [hd]) b s hb hl
        simp [openNodes, openBlockNodes, openStepsNodes, openStepNodes, fillDoc, hb, hl, ha,
          OpenArgument.close, argumentNodes]

theorem takenDoc_vacant {d : OpenDoc} (hv : Vacant f) (hd : f.docString = some d)
    (h : TakenDoc f d t f') : Vacant f' := by
  cases h with
  | content => exact fun _ => hv (by simp [hd])
  | closed => exact fun h => absurd rfl h

end Features

def DraftVacant (d : Draft) : Prop :=
  ∀ f, d.stage = .feature f → Vacant f

section Drafts

variable {d d' : Draft} {t : Token}

theorem draftTaken_adds (hs : DraftSound d) (hv : DraftVacant d) (h : DraftTaken d t d') :
    Adds d.ids (draftNodes d) (draftNodes d') d'.ids := by
  cases h with
  | comment | leading => exact .same _ _
  | tags tags hd hk =>
    have h := adds_tags ((tags.getD []).map .tag) (tagsOfLine_draws d.ids t.location.line t.items)
    simpa [draftNodes, hd] using h
  | feature tags hd hk =>
    have hn : draftNodes d = openNodes { heading := .ofToken (tags.getD []) t } := by
      simp [draftNodes, hd, openNodes, Heading.ofToken]
    rw [hn]
    exact .same _ _
  | inside f f' doc hf hd h =>
    have hn := takenDoc_nodes (hv f hf) hd h
    simp only [draftNodes, hf, hn]
    exact .same _ _
  | outside f r hf hd hk h =>
    simp only [draftNodes, hf]
    exact taken_adds (hs f hf) h

theorem draftTaken_vacant (hv : DraftVacant d) (h : DraftTaken d t d') : DraftVacant d' := by
  cases h with
  | comment | leading => exact hv
  | tags =>
    intro f hf
    simp at hf
  | feature tags hd hk =>
    intro f hf
    obtain rfl := Stage.feature.inj hf
    exact fun h => absurd rfl h
  | inside f f' doc hf hd h =>
    intro g hg
    obtain rfl := Stage.feature.inj hg
    exact takenDoc_vacant (hv f hf) hd h
  | outside f r hf hd hk h =>
    intro g hg
    obtain rfl := Stage.feature.inj hg
    exact taken_vacant hd h

variable {language uri : String} {last : Token} {doc : Document}

theorem featureNodes_closeFeature (f : OpenFeature) (ids : IdSource) (language : String) :
    featureNodes (Draft.closeFeature f ids language) = openNodes (f.closeRule ids).1 := by
  obtain ⟨hb, hr, -⟩ := closeRule_closed f ids
  simp [featureNodes, Draft.closeFeature, openNodes, hb, hr]

theorem finish_adds (hs : DraftSound d) (h : d.finish language uri last = .ok doc) :
    ∃ ids, Adds d.ids (draftNodes d) (nodes doc) ids := by
  cases finished_of_finish h with
  | empty hd =>
    simp only [draftNodes, hd]
    exact ⟨d.ids, .same _ _⟩
  | feature f hd _ _ =>
    refine ⟨(f.closeRule d.ids).2, ?_⟩
    simp only [nodes, Option.toList_some, List.flatMap_cons, List.flatMap_nil, List.append_nil,
      featureNodes_closeFeature, draftNodes, hd]
    exact closeRule_adds (hs f hd).block d.ids

/-- Taking all lines to come adds nodes at the end. -/
theorem build_adds {ts : List Token} (hs : DraftSound d) (hv : DraftVacant d)
    (h : d.build language uri last ts = .ok doc) :
    ∃ ids, Adds d.ids (draftNodes d) (nodes doc) ids := by
  induction ts generalizing d with
  | nil => exact finish_adds hs h
  | cons t ts ih =>
    by_cases hk : t.kind = .eof
    · simp only [Draft.build, hk, ↓reduceIte] at h
      exact finish_adds hs h
    · obtain ⟨d', hd, h⟩ := draftTaken_of_build hk h
      obtain ⟨ids, ha⟩ := ih (draftTaken_sound hs hd) (draftTaken_vacant hv hd) h
      exact ⟨ids, (draftTaken_adds hs hv hd).trans ha⟩

end Drafts

/-- The identifiers of a document are drawn for its nodes one after the other. -/
theorem ofTokens_draws {source : Tokens} {uri : String} {doc : Document}
    (h : ofTokens source uri = .ok doc) : ∃ ids, Draws {} ((nodes doc).map Node.id) ids := by
  have hs : DraftSound {} := fun f hf => by simp at hf
  have hv : DraftVacant {} := fun f hf => by simp at hf
  obtain ⟨ids, new, hn, hd⟩ := build_adds hs hv h
  obtain rfl : nodes doc = new := hn
  exact ⟨ids, hd⟩

/-- As long as no identifier repeats, no two nodes have the same. -/
theorem ids_nodup {source : Tokens} {uri : String} {doc : Document}
    (h : ofTokens source uri = .ok doc) (hl : (nodes doc).length ≤ IdSource.greatest + 1) :
    ((nodes doc).map Node.id).Nodup := by
  obtain ⟨ids, hd⟩ := ofTokens_draws h
  exact hd.nodup rfl (by rwa [List.length_map])

/-- The identifiers of a document are the numbers from 0 on, one for each node in the order in which
the nodes end. -/
theorem ofTokens_numbers {source : Tokens} {uri : String} {doc : Document}
    (h : ofTokens source uri = .ok doc) (hl : (nodes doc).length < 2 ^ 64) :
    (nodes doc).map Node.id = (List.range (nodes doc).length).map Nat.repr ∧
      ((nodes doc).map Node.id).Nodup := by
  obtain ⟨ids, hd⟩ := ofTokens_draws h
  have hc := (hd.counts rfl (by rwa [List.length_map])).1
  rw [List.length_map] at hc
  constructor
  · refine hc.trans (List.map_congr_left fun i _ => ?_)
    exact String.empty_append
  · exact ids_nodup h (by simp only [IdSource.greatest]; omega)

def numberedText : String :=
  "@a\nFeature:\nBackground:\nGiven b\n@s @t\nScenario:\nGiven x\n|1|\n|2|\n@r\nRule:\n" ++
    "Background:\nGiven c\nOutline:\nGiven y\n@e\nExamples:\n|v|\n|1|\nExamples:\n"

theorem ofTokens_numbers_sample :
    ∃ doc, ofTokens (tokenize sampleTable {} "en" numberedText) "" = .ok doc ∧
      (nodes doc).length < 2 ^ 64 ∧
      (nodes doc).map Node.id = (List.range (nodes doc).length).map Nat.repr ∧
      ((nodes doc).map Node.id).Nodup := by
  have ho : (ofTokens (tokenize sampleTable {} "en" numberedText) "").toOption.any
      (fun doc => (nodes doc).length < 2 ^ 64) = true := by decide +kernel
  cases h : ofTokens (tokenize sampleTable {} "en" numberedText) "" with
  | error e => simp [h, Except.toOption] at ho
  | ok doc =>
    have hl : (nodes doc).length < 2 ^ 64 := by simpa [h, Except.toOption] using ho
    exact ⟨doc, rfl, hl, ofTokens_numbers h hl⟩

end Brine.Proofs.NodeIds
