import Brine.Proofs.DraftSteps
import Brine.Proofs.Entries

namespace Brine.Proofs.DraftEntries
open Line Document DraftSteps Entries

def ofHeading (kind : Kind) (h : Heading) : List Entry :=
  h.tags.map ofTag ++ [.heading kind h.location h.keyword h.name h.description]

def ofOpenStep (s : OpenStep) : List Entry :=
  .step s.location s.keyword s.text :: ofArgument s.argument.close

def ofOpenSteps (s : OpenSteps) : List Entry :=
  s.done.reverse.flatMap ofStep ++ s.last.toList.flatMap ofOpenStep

def ofOpenExamples (e : OpenExamples) : List Entry :=
  ofHeading .examples e.heading ++ e.rows.reverse.map ofRow

def ofBlockHeading : BlockKind → Heading → List Entry
  | .background, h => [.heading .background h.location h.keyword h.name h.description]
  | .scenario kind, h => ofHeading (kindOf kind) h

def ofOpenBlock (b : OpenBlock) : List Entry :=
  ofBlockHeading b.kind b.heading ++ ofOpenSteps b.steps ++ b.examples.reverse.flatMap ofExamples ++
    b.openExamples.toList.flatMap ofOpenExamples

def ofOpenRule (r : OpenRule) : List Entry :=
  ofHeading .rule r.heading ++ r.children.reverse.flatMap ofRuleChild

def ofWaiting : Option WaitingTags → List Entry
  | none => []
  | some w => w.lines.reverse.flatMap tagEntries

@[simp] theorem ofWaiting_none : ofWaiting none = [] :=
  rfl

def ofOpenFeature (f : OpenFeature) : List Entry :=
  ofHeading .feature f.heading ++ f.children.reverse.flatMap ofFeatureChild ++
    f.rule.toList.flatMap ofOpenRule ++ f.block.toList.flatMap ofOpenBlock ++ ofWaiting f.waiting

theorem ofTag_tagsOfLine (ids : IdSource) (line : Nat) (items : List Item) :
    (tagsOfLine ids line items).1.map ofTag =
      items.map fun item => .tag ⟨line, item.column⟩ item.text := by
  induction items generalizing ids with
  | nil => rfl
  | cons item items ih => simp [tagsOfLine, ofTag, ih]

theorem ofTag_tagsOfLines (ids : IdSource) (ts : List Token) :
    (tagsOfLines ids ts).1.map ofTag = ts.flatMap tagEntries := by
  induction ts generalizing ids with
  | nil => rfl
  | cons t ts ih => simp [tagsOfLines, ofTag_tagsOfLine, tagEntries, ih]

theorem ofTag_waitingTags (ids : IdSource) (w : Option WaitingTags) :
    (waitingTags ids w).1.map ofTag = ofWaiting w := by
  cases w with
  | none => rfl
  | some w => exact ofTag_tagsOfLines ids _

theorem ofOpenFeature_addTags (f : OpenFeature) (t : Token) :
    ofOpenFeature (addTags f t) = ofOpenFeature f ++ tagEntries t := by
  cases hw : f.waiting <;> simp [ofOpenFeature, addTags, quiet, ofWaiting, hw]

theorem ofOpenFeature_leaveTags (f : OpenFeature) :
    ofOpenFeature (leaveTags f) = ofOpenFeature f := by
  cases hw : f.waiting <;> simp [ofOpenFeature, leaveTags, quiet, ofWaiting, hw]

structure Orderly (b : OpenBlock) : Prop where
  steps : b.steps.last ≠ none → b.examples = [] ∧ b.openExamples = none
  background : b.kind = .background → b.examples = [] ∧ b.openExamples = none

theorem ofOpenSteps_close (s : OpenSteps) (ids : IdSource) :
    ofOpenSteps (s.close ids).1 = ofOpenSteps s := by
  unfold OpenSteps.close
  cases hs : s.last with
  | none => rfl
  | some step => simp [ofOpenSteps, hs, ofStep, ofOpenStep]

theorem ofExamples_close (e : OpenExamples) (ids : IdSource) :
    ofExamples (e.close ids).1 = ofOpenExamples e := by
  have hr : e.rows.reverse.head?.toList ++ e.rows.reverse.tail = e.rows.reverse := by
    cases e.rows.reverse <;> rfl
  simp only [OpenExamples.close, ofExamples, ofOpenExamples, ofHeading, hr]

theorem ofOpenBlock_closeInner (b : OpenBlock) (ids : IdSource) :
    ofOpenBlock (b.closeInner ids).1 = ofOpenBlock b := by
  unfold OpenBlock.closeInner
  cases he : b.openExamples with
  | none => simp [ofOpenBlock, ofOpenSteps_close, he]
  | some e => simp [ofOpenBlock, ofOpenSteps_close, ofExamples_close, he]

theorem close_last (s : OpenSteps) (ids : IdSource) : (s.close ids).1.last = none := by
  unfold OpenSteps.close
  cases hs : s.last with
  | none => exact hs
  | some step => rfl

theorem closeInner_closed (b : OpenBlock) (ids : IdSource) :
    (b.closeInner ids).1.steps.last = none ∧ (b.closeInner ids).1.openExamples = none ∧
      (b.closeInner ids).1.kind = b.kind := by
  unfold OpenBlock.closeInner
  cases he : b.openExamples with
  | none => exact ⟨close_last b.steps ids, rfl, rfl⟩
  | some e => exact ⟨close_last b.steps ids, rfl, rfl⟩

theorem closeInner_examples {b : OpenBlock} (ids : IdSource) (hb : Orderly b)
    (hk : b.kind = .background) : (b.closeInner ids).1.examples = [] := by
  obtain ⟨hx, ho⟩ := hb.background hk
  simp [OpenBlock.closeInner, ho, hx]

theorem ofRuleChild_close {b : OpenBlock} (hb : Orderly b) (ids : IdSource) :
    ofRuleChild (b.close ids).1 = ofOpenBlock b := by
  obtain ⟨hs, he, hc⟩ := closeInner_closed b ids
  rw [← ofOpenBlock_closeInner b ids]
  unfold OpenBlock.close
  cases hk : b.kind with
  | background =>
    -- A finished background has no place for examples.
    have hx := closeInner_examples ids hb hk
    rw [hk] at hc
    simp [ofOpenBlock, ofOpenSteps, ofRuleChild, ofBackground, ofBlockHeading, hc, hs, he, hx]
  | scenario kind =>
    rw [hk] at hc
    simp [ofOpenBlock, ofOpenSteps, ofRuleChild, ofScenario, ofBlockHeading, ofHeading, hc, hs, he]

theorem ofFeatureChild_childOfFeature (c : RuleChild) :
    ofFeatureChild (childOfFeature c) = ofRuleChild c := by
  cases c <;> rfl

theorem ofOpenFeature_closeBlock {f : OpenFeature} (hf : ∀ b, f.block = some b → Orderly b)
    (ids : IdSource) : ofOpenFeature (f.closeBlock ids).1 = ofOpenFeature f := by
  unfold OpenFeature.closeBlock
  cases hb : f.block with
  | none => rfl
  | some b =>
    have hc := ofRuleChild_close (hf b hb) ids
    cases hr : f.rule with
    | none => simp [ofOpenFeature, hb, hr, ofFeatureChild_childOfFeature, hc]
    | some r => simp [ofOpenFeature, hb, hr, ofOpenRule, hc]

theorem closeBlock_closed (f : OpenFeature) (ids : IdSource) :
    (f.closeBlock ids).1.block = none ∧ (f.closeBlock ids).1.waiting = f.waiting ∧
      (f.closeBlock ids).1.docString = f.docString := by
  unfold OpenFeature.closeBlock
  cases hb : f.block with
  | none => exact ⟨hb, rfl, rfl⟩
  | some b => cases f.rule <;> exact ⟨rfl, rfl, rfl⟩

theorem ofOpenFeature_closeRule {f : OpenFeature} (hf : ∀ b, f.block = some b → Orderly b)
    (ids : IdSource) : ofOpenFeature (f.closeRule ids).1 = ofOpenFeature f := by
  rw [← ofOpenFeature_closeBlock hf ids]
  unfold OpenFeature.closeRule
  cases hr : (f.closeBlock ids).1.rule with
  | none => simp [hr]
  | some r =>
    obtain ⟨hb, -, -⟩ := closeBlock_closed f ids
    simp [ofOpenFeature, hr, hb, ofOpenRule, ofHeading, ofFeatureChild, ofRule]

theorem closeRule_closed (f : OpenFeature) (ids : IdSource) :
    (f.closeRule ids).1.block = none ∧ (f.closeRule ids).1.rule = none ∧
      (f.closeRule ids).1.waiting = f.waiting ∧ (f.closeRule ids).1.docString = f.docString := by
  obtain ⟨hb, hw, hd⟩ := closeBlock_closed f ids
  unfold OpenFeature.closeRule
  cases hr : (f.closeBlock ids).1.rule <;> simp [hb, hr, hw, hd]

def absorbLines (lines : List String) : List Token → List String
  | [] => lines
  | t :: ts =>
    match t.kind with
    | .other => absorbLines (t.text :: lines) ts
    | .empty => absorbLines (if lines.isEmpty then lines else "" :: lines) ts
    | .comment => absorbLines lines ts
    | _ => lines

def absorb (ts : List Token) (h : Heading) : Heading :=
  { h with lines := absorbLines h.lines ts }

def headingEntry (kind : Kind) (t : Token) (ts : List Token) : Entry :=
  .heading kind t.location (t.keyword.getD "") t.text
    (absorb ts (.ofToken [] t)).description

theorem ofHeading_absorb (kind : Kind) (tags : List Tag) (t : Token) (ts : List Token) :
    ofHeading kind (absorb ts (.ofToken tags t)) = tags.map ofTag ++ [headingEntry kind t ts] :=
  rfl

theorem mapHeading_mapHeading (f : OpenFeature) (g h : Heading → Heading) :
    (f.mapHeading g).mapHeading h = f.mapHeading fun x => h (g x) := by
  unfold OpenFeature.mapHeading
  cases f.block with
  | none => cases f.rule <;> rfl
  | some b =>
    obtain ⟨kind, heading, steps, examples, openExamples⟩ := b
    cases openExamples <;> rfl

/-- A change that changes no heading changes nothing. -/
theorem mapHeading_of_id (f : OpenFeature) {g : Heading → Heading} (hg : ∀ h, g h = h) :
    f.mapHeading g = f := by
  obtain ⟨heading, hasBackground, children, rule, block, docString, waiting, describing⟩ := f
  cases block with
  | none => cases rule <;> simp [OpenFeature.mapHeading, hg]
  | some b =>
    obtain ⟨kind, h, steps, examples, openExamples⟩ := b
    cases openExamples <;> simp [OpenFeature.mapHeading, hg]

def blockLine : BlockKind → Kind
  | .background => .background
  | .scenario kind => kindOf kind

/-- Waiting tags go before the heading that they have waited for; a background takes none. -/
theorem ofBlockHeading_absorb {kind : BlockKind} {w : Option WaitingTags}
    (hw : kind = .background → w = none) (ids : IdSource) (t : Token) (ts : List Token) :
    ofBlockHeading kind (absorb ts (.ofToken (waitingTags ids w).1 t)) =
      ofWaiting w ++ [headingEntry (blockLine kind) t ts] := by
  cases kind with
  | background =>
    rw [hw rfl]
    rfl
  | scenario kind => rw [ofBlockHeading, ofHeading_absorb, ofTag_waitingTags, blockLine]

section Opening

variable {f : OpenFeature} (ids : IdSource) (t : Token) (ts : List Token)

theorem ofOpenFeature_openBlock {kind : BlockKind} (hf : ∀ b, f.block = some b → Orderly b)
    (hw : kind = .background → f.waiting = none) :
    ofOpenFeature ((f.openBlock ids kind t).1.mapHeading (absorb ts)) =
      ofOpenFeature f ++ [headingEntry (blockLine kind) t ts] := by
  obtain ⟨hb, hc, -⟩ := closeBlock_closed f ids
  have hh := ofBlockHeading_absorb hw (f.closeBlock ids).2 t ts
  rw [← ofOpenFeature_closeBlock hf ids]
  unfold OpenFeature.openBlock OpenFeature.mapHeading
  simp [ofOpenFeature, ofOpenBlock, ofOpenSteps, hb, hc, hh]

theorem ofOpenFeature_openRule (hf : ∀ b, f.block = some b → Orderly b) :
    ofOpenFeature ((f.openRule ids t).1.mapHeading (absorb ts)) =
      ofOpenFeature f ++ [headingEntry .rule t ts] := by
  obtain ⟨hb, hr, hc, -⟩ := closeRule_closed f ids
  rw [← ofOpenFeature_closeRule hf ids]
  unfold OpenFeature.openRule OpenFeature.mapHeading
  simp [ofOpenFeature, ofOpenRule, ofHeading_absorb, ofTag_waitingTags, hb, hr, hc]

theorem ofOpenFeature_openExamples {b : OpenBlock} (hb : f.block = some b) :
    ofOpenFeature ((f.openExamples b ids t).1.mapHeading (absorb ts)) =
      ofOpenFeature f ++ [headingEntry .examples t ts] := by
  obtain ⟨-, he, -⟩ := closeInner_closed b ids
  have hf : ofOpenFeature f = ofOpenFeature { f with block := some (b.closeInner ids).1 } := by
    simp [ofOpenFeature, hb, ofOpenBlock_closeInner]
  rw [hf]
  unfold OpenFeature.openExamples OpenFeature.mapHeading
  simp [ofOpenFeature, ofOpenBlock, ofOpenExamples, ofHeading_absorb, ofTag_waitingTags, he]

/-- That a background has come changes no entry. -/
theorem ofOpenFeature_markBackground (f : OpenFeature) (g : Heading → Heading) :
    ofOpenFeature (f.markBackground.mapHeading g) = ofOpenFeature (f.mapHeading g) := by
  obtain ⟨heading, hasBackground, children, rule, block, docString, waiting, describing⟩ := f
  cases rule <;> cases block with
  | none => rfl
  | some b =>
    obtain ⟨kind, h, steps, examples, openExamples⟩ := b
    cases openExamples <;> rfl

end Opening

theorem ofOpenSteps_push (s : OpenSteps) (ids : IdSource) (t : Token) :
    ofOpenSteps (s.push ids t).1 =
      ofOpenSteps s ++ [.step t.location (t.keyword.getD "") t.text] := by
  have hl := close_last s ids
  rw [← ofOpenSteps_close s ids]
  simp [OpenSteps.push, ofOpenSteps, ofOpenStep, OpenArgument.close, ofArgument, hl]

theorem ofOpenBlock_step {b : OpenBlock} (hx : b.examples = []) (ho : b.openExamples = none)
    (ids : IdSource) (t : Token) :
    ofOpenBlock { b with steps := (b.steps.push ids t).1 } =
      ofOpenBlock b ++ [.step t.location (t.keyword.getD "") t.text] := by
  simp [ofOpenBlock, ofOpenSteps_push, hx, ho]

theorem ofOpenBlock_exampleRow {b : OpenBlock} {e : OpenExamples} (ho : b.openExamples = some e)
    (row : Row) :
    ofOpenBlock { b with openExamples := some { e with rows := row :: e.rows } } =
      ofOpenBlock b ++ [ofRow row] := by
  simp [ofOpenBlock, ofOpenExamples, ho]

theorem ofOpenBlock_setArgument {b : OpenBlock} {s : OpenStep} {a : OpenArgument}
    {es : List Entry} (hb : Orderly b) (hs : b.steps.last = some s)
    (ha : ofArgument a.close = ofArgument s.argument.close ++ es) :
    ofOpenBlock (setArgument b s a) = ofOpenBlock b ++ es := by
  obtain ⟨hx, ho⟩ := hb.steps (by simp [hs])
  simp [ofOpenBlock, setArgument, ofOpenSteps, ofOpenStep, hs, hx, ho, ha]

/-- What is added to the open block comes last, unless tags are waiting. -/
theorem ofOpenFeature_setBlock {f : OpenFeature} {b b' : OpenBlock} {es : List Entry}
    (hb : f.block = some b) (hw : f.waiting = none) (h : ofOpenBlock b' = ofOpenBlock b ++ es) :
    ofOpenFeature { f with block := some b' } = ofOpenFeature f ++ es := by
  simp [ofOpenFeature, hb, hw, h]

end Brine.Proofs.DraftEntries
