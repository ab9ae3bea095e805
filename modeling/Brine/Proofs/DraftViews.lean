import Brine.Proofs.DraftSteps
import Brine.Proofs.Grammar

namespace Brine.Proofs.DraftViews
open Line Document Grammar DraftSteps

inductive Carried where
  | nothing
  | docString
  | table

def carried : OpenArgument → Carried
  | .none => .nothing
  | .docString _ => .docString
  | .table _ _ => .table

def blockOf : BlockKind → Block
  | .background => .background
  | .scenario _ => .scenario

/-- What decides about lines in an open block. -/
structure BlockView where
  kind : Block
  last : Option Carried := none
  examples : Bool := false
  openExamples : Bool := false

def blockView (b : OpenBlock) : BlockView where
  kind := blockOf b.kind
  last := b.steps.last.map (carried ·.argument)
  examples := !(b.examples.isEmpty && b.openExamples.isNone)
  openExamples := b.openExamples.isSome

/-- What decides about lines in an open feature. Of waiting tags it counts whether they have been
left to a scenario. -/
structure View where
  seen : Bool
  block : Option BlockView := none
  docString : Bool := false
  waiting : Option Bool := none
  describing : Bool := false

def view (f : OpenFeature) : View where
  seen := f.scopeHasBackground
  block := f.block.map blockView
  docString := f.docString.isSome
  waiting := f.waiting.map (·.forScenario)
  describing := f.describing

theorem view_mapHeading (f : OpenFeature) (g : Heading → Heading) :
    view (f.mapHeading g) = view f := by
  unfold OpenFeature.mapHeading
  cases hb : f.block with
  | none => cases hr : f.rule <;> simp [view, OpenFeature.scopeHasBackground, hb, hr]
  | some b =>
    cases he : b.openExamples <;> simp [view, OpenFeature.scopeHasBackground, blockView, hb, he]

theorem view_closeBlock (f : OpenFeature) (ids : IdSource) :
    view (f.closeBlock ids).1 = { view f with block := none } := by
  unfold OpenFeature.closeBlock
  cases hb : f.block with
  | none => simp [view, hb]
  | some b => cases hr : f.rule <;> simp [view, OpenFeature.scopeHasBackground, hr]

theorem view_openBlock (f : OpenFeature) (ids : IdSource) (kind : BlockKind) (t : Token) :
    view (f.openBlock ids kind t).1 =
      { view f with
        block := some { kind := blockOf kind }, waiting := none, describing := true } := by
  have h := view_closeBlock f ids
  simp only [view, View.mk.injEq] at h ⊢
  exact ⟨h.1, rfl, h.2.2.1, rfl, rfl⟩

theorem view_markBackground (f : OpenFeature) :
    view f.markBackground = { view f with seen := true } := by
  unfold OpenFeature.markBackground
  cases hr : f.rule <;> simp [view, OpenFeature.scopeHasBackground, hr]

theorem view_openRule (f : OpenFeature) (ids : IdSource) (t : Token) :
    view (f.openRule ids t).1 =
      { view f with seen := false, block := none, waiting := none, describing := true } := by
  have h := view_closeBlock f ids
  simp only [view, View.mk.injEq] at h
  unfold OpenFeature.openRule OpenFeature.closeRule
  cases hr : (f.closeBlock ids).1.rule <;>
    simp [view, OpenFeature.scopeHasBackground, hr, h.2.1, h.2.2.1]

theorem view_openExamples (f : OpenFeature) (b : OpenBlock) (ids : IdSource) (t : Token) :
    view (f.openExamples b ids t).1 =
      { view f with
        block := some { kind := blockOf b.kind, examples := true, openExamples := true },
        waiting := none, describing := true } := by
  unfold OpenFeature.openExamples OpenBlock.closeInner OpenSteps.close
  cases hs : b.steps.last <;> cases he : b.openExamples <;>
    simp [view, OpenFeature.scopeHasBackground, blockView, hs]

def View.addStep (v : View) : Option View :=
  v.block.bind fun b =>
    if b.examples then none else some { v with block := some { b with last := some .nothing } }

theorem view_pushStep (f : OpenFeature) (ids : IdSource) (t : Token) :
    (f.pushStep? ids t).map (view ·.1) = (view f).addStep := by
  unfold OpenFeature.pushStep? View.addStep
  cases hb : f.block with
  | none => simp [view, hb]
  | some b =>
    cases he : b.examples <;> cases ho : b.openExamples <;>
      simp [view, blockView, OpenFeature.scopeHasBackground, OpenSteps.push, carried, guard, hb, he,
        ho]

def View.addRow (v : View) : Option View :=
  v.block.bind fun b =>
    if b.openExamples then some v
    else
      match b.last with
      | some .nothing | some .table => some { v with block := some { b with last := some .table } }
      | _ => none

theorem view_pushRow (f : OpenFeature) (ids : IdSource) (t : Token) :
    (f.pushRow? ids t).map (view ·.1) = (view f).addRow := by
  unfold OpenFeature.pushRow? View.addRow
  cases hb : f.block with
  | none => simp [view, hb]
  | some b =>
    cases he : b.openExamples with
    | some e => simp [view, blockView, OpenFeature.scopeHasBackground, hb, he]
    | none =>
      cases hs : b.steps.last with
      | none => simp [view, blockView, hb, he, hs]
      | some s =>
        cases ha : s.argument <;>
          simp [view, blockView, OpenFeature.scopeHasBackground, carried, hb, he, hs, ha]

def View.openDoc (v : View) : Option View :=
  v.block.bind fun b =>
    match b.last, b.openExamples with
    | some .nothing, false => some { v with docString := true }
    | _, _ => none

theorem view_openDoc (f : OpenFeature) (t : Token) :
    (f.openDoc? t).map view = (view f).openDoc := by
  unfold OpenFeature.openDoc? View.openDoc
  cases hb : f.block with
  | none => simp [view, hb]
  | some b =>
    cases hs : b.steps.last with
    | none => simp [view, blockView, hb, hs]
    | some s =>
      cases ha : s.argument <;> cases he : b.openExamples <;>
        simp [view, blockView, OpenFeature.scopeHasBackground, carried, hb, hs, ha, he]

def View.nextInDoc (v : View) : Kind → Option View
  | .docStringContent => some v
  | .docStringSeparator =>
    some { v with
           block := v.block.map fun b => { b with last := b.last.map fun _ => .docString }
           docString := false }
  | _ => none

def View.next (v : View) (k : Kind) : Option View :=
  let closed := { v with describing := false }
  let free := v.waiting.isNone
  let undecided := v.waiting.all (!·)
  match k with
  | .empty => some v
  | .language => some { closed with waiting := v.waiting.map fun _ => true }
  | .other => if v.describing then some v else none
  | .tags => some { closed with waiting := some (v.waiting.getD false) }
  | .rule =>
    if undecided then
      some { v with seen := false, block := none, waiting := none, describing := true }
    else none
  | .background =>
    if free && !v.seen then
      some { v with seen := true, block := some { kind := .background }, waiting := none,
                    describing := true }
    else none
  | .scenario | .scenarioOutline =>
    some { v with block := some { kind := .scenario }, waiting := none, describing := true }
  | .examples =>
    if undecided && v.block.map (·.kind) = some .scenario then
      some { v with block := some { kind := .scenario, examples := true, openExamples := true },
                    waiting := none, describing := true }
    else none
  | .step => if free then closed.addStep else none
  | .tableRow => if free then closed.addRow else none
  | .docStringSeparator => if free then closed.openDoc else none
  | .feature | .docStringContent | .comment | .eof => none

/-- The view decides what a line does inside a doc string. -/
theorem view_pushDoc {f : OpenFeature} {d : OpenDoc} (t : Token) (hd : f.docString = some d) :
    (f.pushDoc d t).toOption.map view = (view f).nextInDoc t.kind := by
  unfold OpenFeature.pushDoc
  cases t.kind with
  | docStringContent =>
    simp only [Except.toOption, Option.map_some, View.nextInDoc, view, hd, Option.isSome_some]
    rfl
  | docStringSeparator =>
    simp only [Except.toOption, Option.map_some, View.nextInDoc, view]
    cases f.block with
    | none => rfl
    | some b =>
      cases hs : b.steps.last <;> simp [OpenFeature.scopeHasBackground, blockView, carried, hs]
  | _ => rfl

theorem isNone_waiting (f : OpenFeature) : (view f).waiting.isNone = f.waiting.isNone :=
  Option.isNone_map

theorem all_waiting (f : OpenFeature) :
    (view f).waiting.all (!·) = f.waiting.all fun w => !w.forScenario :=
  Option.all_map

theorem kind_scenario (f : OpenFeature) :
    ((view f).block.map (·.kind) = some .scenario) = (f.scenario?.isSome = true) := by
  unfold OpenFeature.scenario?
  cases hb : f.block with
  | none => simp [view, hb]
  | some b => cases hk : b.kind <;> simp [view, blockView, blockOf, hb, hk]

/-- The view decides which lines a feature takes outside of doc strings, and what becomes of the
view. -/
theorem view_push (f : OpenFeature) (ids : IdSource) (t : Token) :
    (f.push ids t).toOption.map (view ·.1) = (view f).next t.kind := by
  simp only [OpenFeature.push, View.next, isNone_waiting, all_waiting]
  cases t.kind with
  | empty =>
    simp only [Except.toOption, Option.map_some]
    split
    · rw [view_mapHeading]
    · rfl
  | language =>
    simp only [Except.toOption, Option.map_some]
    cases hw : f.waiting <;> simp [view, OpenFeature.scopeHasBackground, hw]
  | other =>
    have hf : (view f).describing = f.describing := rfl
    simp only [hf]
    split
    · simp only [Except.toOption, Option.map_some, view_mapHeading]
    · rfl
  | tags =>
    simp only [Except.toOption, Option.map_some]
    cases hw : f.waiting <;> simp [view, OpenFeature.scopeHasBackground, hw]
  | rule =>
    simp only
    split
    · simp only [Except.toOption, Option.map_some, view_openRule]
      rfl
    · rfl
  | background =>
    have hs : (view f).seen = f.scopeHasBackground := rfl
    simp only [hs]
    cases f.waiting.isNone with
    | false => rfl
    | true =>
      cases f.scopeHasBackground with
      | true => rfl
      | false =>
        simp only [Bool.not_true, Bool.false_eq_true, ↓reduceIte, Except.toOption, Option.map_some,
          view_markBackground, view_openBlock]
        rfl
  | scenario | scenarioOutline =>
    simp only [Except.toOption, Option.map_some, view_openBlock]
    rfl
  | examples =>
    simp only [kind_scenario]
    cases hb : f.scenario? with
    | none => simp [Except.toOption]
    | some b =>
      obtain ⟨-, kind, hk⟩ := block_of_scenario hb
      cases f.waiting.all fun w => !w.forScenario with
      | false => rfl
      | true =>
        simp only [↓reduceIte, Except.toOption, Option.map_some, view_openExamples, hk, blockOf]
        rfl
  | step =>
    simp only
    split
    · refine Eq.trans ?_ (view_pushStep { f with describing := false } ids t)
      cases OpenFeature.pushStep? { f with describing := false } ids t <;> rfl
    · rfl
  | tableRow =>
    simp only
    split
    · refine Eq.trans ?_ (view_pushRow { f with describing := false } ids t)
      cases OpenFeature.pushRow? { f with describing := false } ids t <;> rfl
    · rfl
  | docStringSeparator =>
    simp only
    split
    · refine Eq.trans ?_ (view_openDoc { f with describing := false } t)
      cases OpenFeature.openDoc? { f with describing := false } t <;> rfl
    · rfl
  | feature | docStringContent | comment | eof => rfl

end Brine.Proofs.DraftViews
