import Brine.Document.Draft.Basic

namespace Brine.Document
open Line

def tagsOfLine (ids : IdSource) (line : Nat) : List Item → List Tag × IdSource
  | [] => ([], ids)
  | item :: rest =>
    let (id, ids) := ids.draw
    let (tags, ids) := tagsOfLine ids line rest
    (⟨id, ⟨line, item.column⟩, item.text⟩ :: tags, ids)

def tagsOfLines (ids : IdSource) : List Token → List Tag × IdSource
  | [] => ([], ids)
  | t :: rest =>
    let (tags, ids) := tagsOfLine ids t.location.line t.items
    let (more, ids) := tagsOfLines ids rest
    (tags ++ more, ids)

def waitingTags (ids : IdSource) (waiting : Option WaitingTags) : List Tag × IdSource :=
  match waiting with
  | none => ([], ids)
  | some w => tagsOfLines ids w.lines.reverse

def rowOf (ids : IdSource) (t : Token) : Row × IdSource :=
  let (id, ids) := ids.draw
  let cells := t.items.map fun item => ⟨⟨t.location.line, item.column⟩, item.text⟩
  (⟨id, t.location, cells⟩, ids)

namespace OpenSteps

def close (s : OpenSteps) (ids : IdSource) : OpenSteps × IdSource :=
  match s.last with
  | none => (s, ids)
  | some step =>
    let (id, ids) := ids.draw
    let step : Step :=
      { id, location := step.location, keyword := step.keyword, keywordType := step.keywordType,
        text := step.text, argument := step.argument.close }
    ({ s with done := step :: s.done, last := none }, ids)

def push (s : OpenSteps) (ids : IdSource) (t : Token) : OpenSteps × IdSource :=
  let (s, ids) := s.close ids
  let (type, resolved) := resolveType s.resolved (t.keywordType.getD .unknown)
  let step : OpenStep :=
    { location := t.location, keyword := t.keyword.getD "", keywordType := type, text := t.text }
  ({ s with last := some step, resolved }, ids)

end OpenSteps

def OpenExamples.close (e : OpenExamples) (ids : IdSource) : Examples × IdSource :=
  let (id, ids) := ids.draw
  let rows := e.rows.reverse
  let h := e.heading
  ({ id, location := h.location, tags := h.tags, keyword := h.keyword, name := h.name,
     description := h.description, header := rows.head?, body := rows.tail }, ids)

namespace OpenBlock

def closeInner (b : OpenBlock) (ids : IdSource) : OpenBlock × IdSource :=
  let (steps, ids) := b.steps.close ids
  match b.openExamples with
  | none => ({ b with steps }, ids)
  | some e =>
    let (e, ids) := e.close ids
    ({ b with steps, examples := e :: b.examples, openExamples := none }, ids)

def close (b : OpenBlock) (ids : IdSource) : RuleChild × IdSource :=
  let (b, ids) := b.closeInner ids
  let (id, ids) := ids.draw
  let h := b.heading
  let steps := b.steps.done.reverse
  match b.kind with
  | .background =>
    (.background { id, location := h.location, keyword := h.keyword, name := h.name,
                   description := h.description, steps }, ids)
  | .scenario kind =>
    (.scenario { id, location := h.location, tags := h.tags, kind, keyword := h.keyword,
                 name := h.name, description := h.description, steps,
                 examples := b.examples.reverse }, ids)

end OpenBlock

def childOfFeature : RuleChild → FeatureChild
  | .background b => .background b
  | .scenario s => .scenario s

namespace OpenFeature

def closeBlock (f : OpenFeature) (ids : IdSource) : OpenFeature × IdSource :=
  match f.block with
  | none => (f, ids)
  | some b =>
    let (child, ids) := b.close ids
    match f.rule with
    | none => ({ f with block := none, children := childOfFeature child :: f.children }, ids)
    | some r =>
      ({ f with block := none, rule := some { r with children := child :: r.children } }, ids)

def closeRule (f : OpenFeature) (ids : IdSource) : OpenFeature × IdSource :=
  let (f, ids) := f.closeBlock ids
  match f.rule with
  | none => (f, ids)
  | some r =>
    let (id, ids) := ids.draw
    let h := r.heading
    let rule : Rule :=
      { id, location := h.location, tags := h.tags, keyword := h.keyword, name := h.name,
        description := h.description, children := r.children.reverse }
    ({ f with rule := none, children := .rule rule :: f.children }, ids)

end OpenFeature

end Brine.Document
