import Brine.Proofs.DraftSteps
import Brine.Proofs.Entries

namespace Brine.Proofs.BareDocuments
open Line Document DraftSteps Success

def bareExamples (e : Examples) : Examples :=
  { e with description := none }

def bareBackground (b : Background) : Background :=
  { b with description := none }

def bareScenario (s : Scenario) : Scenario :=
  { s with description := none, examples := s.examples.map bareExamples }

def bareRuleChild : RuleChild → RuleChild
  | .background b => .background (bareBackground b)
  | .scenario s => .scenario (bareScenario s)

def bareRule (r : Rule) : Rule :=
  { r with description := none, children := r.children.map bareRuleChild }

def bareFeatureChild : FeatureChild → FeatureChild
  | .background b => .background (bareBackground b)
  | .scenario s => .scenario (bareScenario s)
  | .rule r => .rule (bareRule r)

def bareFeature (f : Feature) : Feature :=
  { f with description := none, children := f.children.map bareFeatureChild }

def bare (d : Document) : Document :=
  { d with feature := d.feature.map bareFeature, comments := [] }

def bareHeading (h : Heading) : Heading :=
  { h with lines := [] }

def bareOpenExamples (e : OpenExamples) : OpenExamples :=
  { e with heading := bareHeading e.heading }

def bareOpenBlock (b : OpenBlock) : OpenBlock :=
  { b with
    heading := bareHeading b.heading
    examples := b.examples.map bareExamples
    openExamples := b.openExamples.map bareOpenExamples }

def bareOpenRule (r : OpenRule) : OpenRule :=
  { r with heading := bareHeading r.heading, children := r.children.map bareRuleChild }

def bareOpenFeature (f : OpenFeature) : OpenFeature :=
  { f with
    heading := bareHeading f.heading
    children := f.children.map bareFeatureChild
    rule := f.rule.map bareOpenRule
    block := f.block.map bareOpenBlock }

def bareStage : Stage → Stage
  | .start tags => .start tags
  | .feature f => .feature (bareOpenFeature f)

def bareDraft (d : Draft) : Draft :=
  { d with comments := [], stage := bareStage d.stage }

def bareResult (r : OpenFeature × IdSource) : OpenFeature × IdSource :=
  (bareOpenFeature r.1, r.2)

variable {f : OpenFeature} {ids : IdSource} {t : Token}

theorem closeInner_bare (b : OpenBlock) (ids : IdSource) : (bareOpenBlock b).closeInner ids =
    (bareOpenBlock (b.closeInner ids).1, (b.closeInner ids).2) := by
  obtain ⟨kind, heading, steps, examples, openExamples⟩ := b
  cases openExamples <;> rfl

theorem close_bare (b : OpenBlock) (ids : IdSource) : (bareOpenBlock b).close ids =
    (bareRuleChild (b.close ids).1, (b.close ids).2) := by
  unfold OpenBlock.close
  rw [closeInner_bare b ids]
  obtain ⟨⟨kind, heading, steps, examples, openExamples⟩, ids⟩ := b.closeInner ids
  cases kind with
  | background => rfl
  | scenario kind =>
    simp [bareOpenBlock, bareRuleChild, bareScenario, bareHeading, Heading.description]

theorem childOfFeature_bare (c : RuleChild) :
    childOfFeature (bareRuleChild c) = bareFeatureChild (childOfFeature c) := by
  cases c <;> rfl

theorem closeBlock_bare (f : OpenFeature) (ids : IdSource) :
    (bareOpenFeature f).closeBlock ids = bareResult (f.closeBlock ids) := by
  obtain ⟨heading, hasBackground, children, rule, block, docString, waiting, describing⟩ := f
  cases block with
  | none => rfl
  | some b =>
    cases rule <;>
      simp [OpenFeature.closeBlock, bareOpenFeature, bareResult, close_bare, childOfFeature_bare,
        bareOpenRule]

theorem closeRule_bare (f : OpenFeature) (ids : IdSource) :
    (bareOpenFeature f).closeRule ids = bareResult (f.closeRule ids) := by
  unfold OpenFeature.closeRule
  rw [closeBlock_bare]
  obtain ⟨⟨heading, hasBackground, children, rule, block, docString, waiting, describing⟩, ids⟩ :=
    f.closeBlock ids
  cases rule <;>
    simp [bareOpenFeature, bareResult, bareOpenRule, bareFeatureChild, bareRule, bareHeading,
      Heading.description]

theorem mapHeading_bare (f : OpenFeature) {g : Heading → Heading}
    (hg : ∀ h, bareHeading (g h) = bareHeading h) :
    bareOpenFeature (f.mapHeading g) = bareOpenFeature f := by
  obtain ⟨heading, hasBackground, children, rule, block, docString, waiting, describing⟩ := f
  cases block with
  | none => cases rule <;> simp [OpenFeature.mapHeading, bareOpenFeature, bareOpenRule, hg]
  | some b =>
    obtain ⟨kind, heading, steps, examples, openExamples⟩ := b
    cases openExamples <;>
      simp [OpenFeature.mapHeading, bareOpenFeature, bareOpenBlock, bareOpenExamples, hg]

theorem openBlock_bare (f : OpenFeature) (ids : IdSource) (kind : BlockKind) (t : Token) :
    (bareOpenFeature f).openBlock ids kind t = bareResult (f.openBlock ids kind t) := by
  unfold OpenFeature.openBlock
  rw [closeBlock_bare]
  rfl

theorem openRule_bare (f : OpenFeature) (ids : IdSource) (t : Token) :
    (bareOpenFeature f).openRule ids t = bareResult (f.openRule ids t) := by
  unfold OpenFeature.openRule
  rw [closeRule_bare]
  rfl

theorem openExamples_bare (f : OpenFeature) (b : OpenBlock) (ids : IdSource) (t : Token) :
    (bareOpenFeature f).openExamples (bareOpenBlock b) ids t =
      bareResult (f.openExamples b ids t) := by
  unfold OpenFeature.openExamples
  rw [closeInner_bare]
  rfl

theorem markBackground_bare (f : OpenFeature) :
    (bareOpenFeature f).markBackground = bareOpenFeature f.markBackground := by
  obtain ⟨heading, hasBackground, children, rule, block, docString, waiting, describing⟩ := f
  cases rule <;> rfl

theorem scopeHasBackground_bare (f : OpenFeature) :
    (bareOpenFeature f).scopeHasBackground = f.scopeHasBackground := by
  obtain ⟨heading, hasBackground, children, rule, block, docString, waiting, describing⟩ := f
  cases rule <;> rfl

theorem scenario_bare (f : OpenFeature) :
    (bareOpenFeature f).scenario? = f.scenario?.map bareOpenBlock := by
  obtain ⟨heading, hasBackground, children, rule, block, docString, waiting, describing⟩ := f
  cases block with
  | none => rfl
  | some b =>
    obtain ⟨kind, heading, steps, examples, openExamples⟩ := b
    cases kind <;> rfl

theorem pushStep_bare (f : OpenFeature) (ids : IdSource) (t : Token) :
    (bareOpenFeature f).pushStep? ids t = (f.pushStep? ids t).map bareResult := by
  obtain ⟨heading, hasBackground, children, rule, block, docString, waiting, describing⟩ := f
  cases block with
  | none => rfl
  | some b =>
    obtain ⟨kind, heading, steps, examples, openExamples⟩ := b
    cases examples <;> cases openExamples <;> rfl

theorem pushRow_bare (f : OpenFeature) (ids : IdSource) (t : Token) :
    (bareOpenFeature f).pushRow? ids t = (f.pushRow? ids t).map bareResult := by
  obtain ⟨heading, hasBackground, children, rule, block, docString, waiting, describing⟩ := f
  cases block with
  | none => rfl
  | some b =>
    obtain ⟨kind, heading, ⟨done, last, resolved⟩, examples, openExamples⟩ := b
    cases openExamples with
    | some e => rfl
    | none =>
      cases last with
      | none => rfl
      | some s =>
        obtain ⟨location, keyword, type, text, argument⟩ := s
        cases argument <;> rfl

theorem openDoc_bare (f : OpenFeature) (t : Token) :
    (bareOpenFeature f).openDoc? t = (f.openDoc? t).map bareOpenFeature := by
  obtain ⟨heading, hasBackground, children, rule, block, docString, waiting, describing⟩ := f
  cases block with
  | none => rfl
  | some b =>
    obtain ⟨kind, heading, ⟨done, last, resolved⟩, examples, openExamples⟩ := b
    cases last with
    | none => rfl
    | some s =>
      obtain ⟨location, keyword, type, text, argument⟩ := s
      cases argument <;> cases openExamples <;> rfl

theorem pushDoc_bare (f : OpenFeature) (d : OpenDoc) (t : Token) :
    (bareOpenFeature f).pushDoc d t = (f.pushDoc d t).map bareOpenFeature := by
  obtain ⟨heading, hasBackground, children, rule, block, docString, waiting, describing⟩ := f
  unfold OpenFeature.pushDoc
  split
  · rfl
  · cases block <;> rfl
  · rfl

theorem unexpected_bare (f : OpenFeature) (t : Token) :
    (Stage.feature (bareOpenFeature f)).unexpected t = (Stage.feature f).unexpected t :=
  rfl

/-- What is read from a line that is no text does not depend on descriptions. -/
theorem push_bare (f : OpenFeature) (ids : IdSource) (ht : t.kind ≠ .empty ∧ t.kind ≠ .other) :
    (bareOpenFeature f).push ids t = (f.push ids t).map bareResult := by
  have hquiet : { bareOpenFeature f with describing := false } =
      bareOpenFeature { f with describing := false } := rfl
  have hwaiting : (bareOpenFeature f).waiting = f.waiting := rfl
  unfold OpenFeature.push
  dsimp only
  rw [hquiet, openRule_bare, openBlock_bare, openBlock_bare, openBlock_bare, pushStep_bare,
    pushRow_bare, openDoc_bare, scopeHasBackground_bare, scenario_bare, unexpected_bare, hwaiting]
  generalize ({ f with describing := false } : OpenFeature) = closed
  cases hk : t.kind with
  | empty => exact absurd hk ht.1
  | other => exact absurd hk ht.2
  | language | tags | scenario | scenarioOutline => rfl
  | rule => cases f.waiting.all fun w => !w.forScenario <;> rfl
  | background =>
    cases f.waiting with
    | some w => rfl
    | none =>
      cases f.scopeHasBackground with
      | true => rfl
      | false =>
        exact congrArg (fun g => Except.ok (g, _)) (markBackground_bare _)
  | examples =>
    cases f.scenario? with
    | none => rfl
    | some b =>
      simp only [Option.map_some, openExamples_bare]
      cases f.waiting.all fun w => !w.forScenario <;> rfl
  | step =>
    cases f.waiting with
    | some w => rfl
    | none => cases closed.pushStep? ids t <;> rfl
  | tableRow =>
    cases f.waiting with
    | some w => rfl
    | none => cases closed.pushRow? ids t <;> rfl
  | docStringSeparator =>
    cases f.waiting with
    | some w => rfl
    | none => cases closed.openDoc? t <;> rfl
  | feature | docStringContent | comment | eof => rfl

theorem push_empty (f : OpenFeature) (ids : IdSource) (hk : t.kind = .empty) :
    (f.push ids t).map bareResult = .ok (bareOpenFeature f, ids) := by
  have hblank (h : Heading) : bareHeading h.addBlank = bareHeading h := by
    unfold Heading.addBlank
    split <;> rfl
  unfold OpenFeature.push
  rw [hk]
  cases f.describing with
  | true => exact congrArg (fun g => Except.ok (g, ids)) (mapHeading_bare f hblank)
  | false => rfl

theorem push_other (f : OpenFeature) (ids : IdSource) (hk : t.kind = .other) :
    (f.push ids t).map bareResult =
      if f.describing then .ok (bareOpenFeature f, ids)
      else .error ((Stage.feature f).unexpected t) := by
  unfold OpenFeature.push
  rw [hk]
  cases f.describing with
  | true => exact congrArg (fun g => Except.ok (g, ids)) (mapHeading_bare f fun _ => rfl)
  | false => rfl

/-- What is read from a line does not depend on descriptions. -/
theorem push_congr {f f' : OpenFeature} (h : bareOpenFeature f = bareOpenFeature f')
    (ids : IdSource) (t : Token) :
    (f.push ids t).map bareResult = (f'.push ids t).map bareResult := by
  by_cases he : t.kind = .empty
  · rw [push_empty f ids he, push_empty f' ids he, h]
  · by_cases ho : t.kind = .other
    · have hd : f.describing = f'.describing := by
        have hb := congrArg OpenFeature.describing h
        exact hb
      rw [push_other f ids ho, push_other f' ids ho, h, hd, ← unexpected_bare f,
        ← unexpected_bare f', h]
    · rw [← push_bare f ids ⟨he, ho⟩, ← push_bare f' ids ⟨he, ho⟩, h]

variable {d d' : Draft}

theorem pushStart_congr (hi : d.ids = d'.ids) (hs : d.stage = d'.stage)
    (tags : Option (List Tag)) (t : Token) :
    (d.pushStart tags t).map bareDraft = (d'.pushStart tags t).map bareDraft := by
  obtain ⟨ids, comments, stage⟩ := d
  obtain ⟨ids', comments', stage'⟩ := d'
  cases hi
  cases hs
  unfold Draft.pushStart
  split <;> rfl

theorem stage_bare (d : Draft) (x : Except Error OpenFeature) :
    (x >>= fun f => pure { d with stage := .feature f }).map bareDraft =
      (x.map bareOpenFeature).map fun f => { bareDraft d with stage := .feature f } := by
  cases x <;> rfl

theorem result_bare (d : Draft) (x : Except Error (OpenFeature × IdSource)) :
    (x >>= fun r => pure { d with ids := r.2, stage := .feature r.1 }).map bareDraft =
      (x.map bareResult).map fun r => { bareDraft d with ids := r.2, stage := .feature r.1 } := by
  cases x <;> rfl

/-- What a draft does with a line does not depend on descriptions and comments. -/
theorem draft_push_congr (h : bareDraft d = bareDraft d') (t : Token) :
    (d.push t).map bareDraft = (d'.push t).map bareDraft := by
  obtain ⟨hi, hs⟩ : d.ids = d'.ids ∧ bareStage d.stage = bareStage d'.stage := by
    simpa [bareDraft] using h
  cases hd : d.stage with
  | start tags =>
    cases hd' : d'.stage with
    | feature f' => simp [hd, hd', bareStage] at hs
    | start tags' =>
      obtain rfl : tags = tags' := by simpa [hd, hd', bareStage] using hs
      by_cases hk : t.kind = .comment
      · rw [push_comment hk (by simp [hd]), push_comment hk (by simp [hd'])]
        exact congrArg Except.ok h
      · rw [push_start hd hk, push_start hd' hk]
        exact pushStart_congr hi (hd.trans hd'.symm) tags t
  | feature f =>
    cases hd' : d'.stage with
    | start tags' => simp [hd, hd', bareStage] at hs
    | feature f' =>
      have hf : bareOpenFeature f = bareOpenFeature f' := by simpa [hd, hd', bareStage] using hs
      have hdoc : f.docString = f'.docString := by
        have hb := congrArg OpenFeature.docString hf
        exact hb
      cases hopen : f.docString with
      | some doc =>
        rw [hopen] at hdoc
        rw [push_inDoc hd hopen, push_inDoc hd' hdoc.symm]
        rw [stage_bare, stage_bare, ← pushDoc_bare, ← pushDoc_bare, hf, h]
      | none =>
        rw [hopen] at hdoc
        by_cases hk : t.kind = .comment
        · rw [push_comment hk (by simp [hd, hopen]), push_comment hk (by simp [hd', ← hdoc])]
          exact congrArg Except.ok h
        · rw [push_outside hd hopen hk, push_outside hd' hdoc.symm hk, ← hi]
          rw [result_bare, result_bare, push_congr hf, h]

theorem closeFeature_bare (f : OpenFeature) (ids : IdSource) (language : String) :
    Draft.closeFeature (bareOpenFeature f) ids language =
      bareFeature (Draft.closeFeature f ids language) := by
  unfold Draft.closeFeature
  rw [closeRule_bare]
  simp [bareResult, bareOpenFeature, bareFeature, bareHeading, Heading.description]

theorem finish_bare (d : Draft) (language uri : String) (eof : Token) :
    (bareDraft d).finish language uri eof = (d.finish language uri eof).map bare := by
  obtain ⟨ids, comments, stage⟩ := d
  unfold Draft.finish
  cases stage with
  | start tags => cases tags <;> rfl
  | feature f =>
    have hopen : ((bareOpenFeature f).docString.isSome || (bareOpenFeature f).waiting.isSome) =
        (f.docString.isSome || f.waiting.isSome) := rfl
    simp only [bareDraft, bareStage, hopen, closeFeature_bare]
    cases f.docString.isSome || f.waiting.isSome <;> rfl

/-- Reading goes the same way from drafts that differ in descriptions and comments only. -/
theorem build_congr (h : bareDraft d = bareDraft d') (language uri : String) (last : Token)
    (ts : List Token) :
    (d.build language uri last ts).map bare = (d'.build language uri last ts).map bare := by
  induction ts generalizing d d' with
  | nil =>
    rw [Draft.build, Draft.build, ← finish_bare, ← finish_bare, h]
  | cons t ts ih =>
    by_cases ht : t.kind = .eof
    · rw [Draft.build, Draft.build, if_pos ht, if_pos ht, ← finish_bare, ← finish_bare, h]
    · rw [build_cons ht, build_cons ht]
      rcases map_eq_map (draft_push_congr h t) with ⟨e, hx, hy⟩ | ⟨x, y, hx, hy, hb⟩
      · rw [hx, hy]
      · rw [hx, hy]
        exact ih hb

section Entries
open Entries

/-- Lists are equal if their items are, once these agree where they leave out nothing. -/
theorem eq_of_parts {α β γ : Type} {f : α → β} {g : α → List γ}
    (hlength : ∀ a b, f a = f b → (g a).length = (g b).length)
    (hsame : ∀ a b, f a = f b → g a = g b → a = b) {as bs : List α} (hf : as.map f = bs.map f)
    (hg : as.flatMap g = bs.flatMap g) : as = bs := by
  induction as generalizing bs with
  | nil =>
    cases bs with
    | nil => rfl
    | cons b bs => cases hf
  | cons a as ih =>
    cases bs with
    | nil => cases hf
    | cons b bs =>
      obtain ⟨hab, hf⟩ := List.cons.inj hf
      rw [List.flatMap_cons, List.flatMap_cons] at hg
      obtain ⟨hg, hgs⟩ := List.append_inj hg (hlength a b hab)
      rw [hsame a b hab hg, ih hf hgs]

theorem length_examples (e : Examples) :
    (ofExamples (bareExamples e)).length = (ofExamples e).length := by
  simp [ofExamples, bareExamples]

theorem length_scenario (s : Scenario) :
    (ofScenario (bareScenario s)).length = (ofScenario s).length := by
  simp [ofScenario, bareScenario, List.length_flatMap, Function.comp_def, length_examples]

theorem length_ruleChild (c : RuleChild) :
    (ofRuleChild (bareRuleChild c)).length = (ofRuleChild c).length := by
  cases c with
  | background b => simp [ofRuleChild, bareRuleChild, ofBackground, bareBackground]
  | scenario s => exact length_scenario s

theorem length_featureChild (c : FeatureChild) :
    (ofFeatureChild (bareFeatureChild c)).length = (ofFeatureChild c).length := by
  cases c with
  | background b => simp [ofFeatureChild, bareFeatureChild, ofBackground, bareBackground]
  | scenario s => exact length_scenario s
  | rule r =>
    simp [ofFeatureChild, bareFeatureChild, ofRule, bareRule, List.length_flatMap,
      Function.comp_def, length_ruleChild]

theorem examples_eq {e e' : Examples} (hb : bareExamples e = bareExamples e')
    (he : ofExamples e = ofExamples e') : e = e' := by
  obtain ⟨id, location, tags, keyword, name, description, header, body⟩ := e
  obtain ⟨id', location', tags', keyword', name', description', header', body'⟩ := e'
  simp only [bareExamples, Examples.mk.injEq] at hb
  obtain ⟨rfl, rfl, rfl, rfl, rfl, -, rfl, rfl⟩ := hb
  simpa [ofExamples] using he

theorem background_eq {b b' : Background} (hb : bareBackground b = bareBackground b')
    (he : ofBackground b = ofBackground b') : b = b' := by
  obtain ⟨id, location, keyword, name, description, steps⟩ := b
  obtain ⟨id', location', keyword', name', description', steps'⟩ := b'
  simp only [bareBackground, Background.mk.injEq] at hb
  obtain ⟨rfl, rfl, rfl, rfl, -, rfl⟩ := hb
  simpa [ofBackground] using he

theorem scenario_eq {s s' : Scenario} (hb : bareScenario s = bareScenario s')
    (he : ofScenario s = ofScenario s') : s = s' := by
  obtain ⟨id, location, tags, kind, keyword, name, description, steps, examples⟩ := s
  obtain ⟨id', location', tags', kind', keyword', name', description', steps', examples'⟩ := s'
  simp only [bareScenario, Scenario.mk.injEq] at hb
  obtain ⟨rfl, rfl, rfl, rfl, rfl, rfl, -, rfl, hx⟩ := hb
  simp only [ofScenario, List.append_assoc, List.append_cancel_left_eq, List.cons_append,
    List.nil_append, List.cons.injEq, Entry.heading.injEq, true_and] at he
  obtain ⟨rfl, he⟩ := he
  obtain rfl := eq_of_parts
    (fun a b h => by rw [← length_examples, h, length_examples]) (fun _ _ => examples_eq) hx he
  rfl

theorem ruleChild_eq {c c' : RuleChild} (hb : bareRuleChild c = bareRuleChild c')
    (he : ofRuleChild c = ofRuleChild c') : c = c' := by
  cases c with
  | background b =>
    cases c' with
    | background b' => rw [background_eq (RuleChild.background.inj hb) he]
    | scenario s' => cases hb
  | scenario s =>
    cases c' with
    | background b' => cases hb
    | scenario s' => rw [scenario_eq (RuleChild.scenario.inj hb) he]

theorem rule_eq {r r' : Rule} (hb : bareRule r = bareRule r') (he : ofRule r = ofRule r') :
    r = r' := by
  obtain ⟨id, location, tags, keyword, name, description, children⟩ := r
  obtain ⟨id', location', tags', keyword', name', description', children'⟩ := r'
  simp only [bareRule, Rule.mk.injEq] at hb
  obtain ⟨rfl, rfl, rfl, rfl, rfl, -, hx⟩ := hb
  simp only [ofRule, List.append_assoc, List.append_cancel_left_eq, List.cons_append,
    List.nil_append, List.cons.injEq, Entry.heading.injEq, true_and] at he
  obtain ⟨rfl, he⟩ := he
  obtain rfl := eq_of_parts
    (fun a b h => by rw [← length_ruleChild, h, length_ruleChild]) (fun _ _ => ruleChild_eq) hx he
  rfl

theorem featureChild_eq {c c' : FeatureChild} (hb : bareFeatureChild c = bareFeatureChild c')
    (he : ofFeatureChild c = ofFeatureChild c') : c = c' := by
  cases c with
  | background b =>
    cases c' with
    | background b' => rw [background_eq (FeatureChild.background.inj hb) he]
    | scenario | rule => cases hb
  | scenario s =>
    cases c' with
    | scenario s' => rw [scenario_eq (FeatureChild.scenario.inj hb) he]
    | background | rule => cases hb
  | rule r =>
    cases c' with
    | rule r' => rw [rule_eq (FeatureChild.rule.inj hb) he]
    | background | scenario => cases hb

theorem feature_eq {f f' : Feature} (hb : bareFeature f = bareFeature f')
    (he : ofFeature f = ofFeature f') : f = f' := by
  obtain ⟨location, tags, language, keyword, name, description, children⟩ := f
  obtain ⟨location', tags', language', keyword', name', description', children'⟩ := f'
  simp only [bareFeature, Feature.mk.injEq] at hb
  obtain ⟨rfl, rfl, rfl, rfl, rfl, -, hx⟩ := hb
  simp only [ofFeature, List.append_assoc, List.append_cancel_left_eq, List.cons_append,
    List.nil_append, List.cons.injEq, Entry.heading.injEq, true_and] at he
  obtain ⟨rfl, he⟩ := he
  obtain rfl := eq_of_parts
    (fun a b h => by rw [← length_featureChild, h, length_featureChild])
    (fun _ _ => featureChild_eq) hx he
  rfl

/-- A document is what is left without descriptions and comments, with what it lists and with its
comments. -/
theorem document_eq {d d' : Document} (hb : bare d = bare d') (he : ofDocument d = ofDocument d')
    (hc : d.comments = d'.comments) : d = d' := by
  obtain ⟨uri, feature, comments⟩ := d
  obtain ⟨uri', feature', comments'⟩ := d'
  simp only [bare, Document.mk.injEq] at hb
  obtain ⟨rfl, hf, -⟩ := hb
  cases hc
  cases feature with
  | none =>
    cases feature' with
    | none => rfl
    | some f' => cases hf
  | some f =>
    cases feature' with
    | none => cases hf
    | some f' =>
      have hof : ofFeature f = ofFeature f' := by simpa [ofDocument] using he
      rw [feature_eq (Option.some.inj hf) hof]

end Entries

end Brine.Proofs.BareDocuments
