import Brine.Document.Draft.Close
import Brine.Document.Error

namespace Brine.Document
open Line

namespace OpenFeature

def mapHeading (f : OpenFeature) (g : Heading → Heading) : OpenFeature :=
  match f.block, f.rule with
  | some b, _ =>
    match b.openExamples with
    | some e =>
      let e := { e with heading := g e.heading }
      { f with block := some { b with openExamples := some e } }
    | none => { f with block := some { b with heading := g b.heading } }
  | none, some r => { f with rule := some { r with heading := g r.heading } }
  | none, none => { f with heading := g f.heading }

def scopeHasBackground (f : OpenFeature) : Bool :=
  match f.rule with
  | some r => r.hasBackground
  | none => f.hasBackground

def markBackground (f : OpenFeature) : OpenFeature :=
  match f.rule with
  | some r => { f with rule := some { r with hasBackground := true } }
  | none => { f with hasBackground := true }

def openBlock (f : OpenFeature) (ids : IdSource) (kind : BlockKind) (t : Token) :
    OpenFeature × IdSource :=
  let (f, ids) := f.closeBlock ids
  let (tags, ids) := waitingTags ids f.waiting
  ({ f with block := some { kind, heading := .ofToken tags t }, waiting := none,
            describing := true }, ids)

def openRule (f : OpenFeature) (ids : IdSource) (t : Token) : OpenFeature × IdSource :=
  let (f, ids) := f.closeRule ids
  let (tags, ids) := waitingTags ids f.waiting
  ({ f with rule := some { heading := .ofToken tags t }, waiting := none, describing := true }, ids)

def openExamples (f : OpenFeature) (b : OpenBlock) (ids : IdSource) (t : Token) :
    OpenFeature × IdSource :=
  let (b, ids) := b.closeInner ids
  let (tags, ids) := waitingTags ids f.waiting
  ({ f with block := some { b with openExamples := some { heading := .ofToken tags t } },
            waiting := none, describing := true }, ids)

end OpenFeature

def featureLines : List Kind :=
  [.eof, .background, .tags, .scenario, .scenarioOutline, .rule]

def scenarioLines : List Kind :=
  [.scenario, .scenarioOutline]

def Stage.expected : Stage → List Kind
  | .start _ => [.feature]
  | .feature f =>
    if f.docString.isSome then [.docStringSeparator]
    else if f.waiting.isSome then scenarioLines
    else featureLines

def Stage.unexpected (s : Stage) (t : Token) : Error :=
  .unexpected t s.expected

namespace OpenFeature

def pushDoc (f : OpenFeature) (d : OpenDoc) (t : Token) : Except Error OpenFeature :=
  match t.kind with
  | .docStringContent => .ok { f with docString := some { d with lines := t.text :: d.lines } }
  | .docStringSeparator =>
    let doc : DocString :=
      { location := d.location, delimiter := d.delimiter, mediaType := d.mediaType,
        content := "\n".intercalate d.lines.reverse }
    let close (b : OpenBlock) : OpenBlock :=
      let last := b.steps.last.map ({ · with argument := .docString doc })
      { b with steps := { b.steps with last } }
    .ok { f with docString := none, block := f.block.map close }
  | _ => .error (.unexpected t [.docStringSeparator])

/-- Opens a doc string under the last step, if it has no argument yet. -/
def openDoc? (f : OpenFeature) (t : Token) : Option OpenFeature := do
  let b ← f.block
  let step ← b.steps.last
  match step.argument, b.openExamples with
  | .none, none =>
    let doc : OpenDoc :=
      { location := t.location, delimiter := t.keyword.getD "", mediaType := t.mediaType }
    return { f with docString := some doc }
  | _, _ => none

def pushRow? (f : OpenFeature) (ids : IdSource) (t : Token) : Option (OpenFeature × IdSource) := do
  let b ← f.block
  let (row, ids) := rowOf ids t
  match b.openExamples with
  | some e =>
    let e := { e with rows := row :: e.rows }
    return ({ f with block := some { b with openExamples := some e } }, ids)
  | none =>
    let step ← b.steps.last
    let argument ←
      match step.argument with
      | .none => some (.table t.location [row])
      | .table location rows => some (.table location (row :: rows))
      | .docString _ => none
    let steps := { b.steps with last := some { step with argument } }
    return ({ f with block := some { b with steps } }, ids)

/-- Adds a step to the open block, as long as it has no examples. -/
def pushStep? (f : OpenFeature) (ids : IdSource) (t : Token) : Option (OpenFeature × IdSource) := do
  let b ← f.block
  guard (b.examples.isEmpty && b.openExamples.isNone)
  let (steps, ids) := b.steps.push ids t
  return ({ f with block := some { b with steps } }, ids)

/-- The open scenario, if tags that are waiting may belong to its examples. -/
def scenario? (f : OpenFeature) : Option OpenBlock :=
  match f.block with
  | some b =>
    match b.kind with
    | .scenario _ => some b
    | .background => none
  | none => none

/-- Takes a line that is no comment and no part of a doc string. -/
def push (f : OpenFeature) (ids : IdSource) (t : Token) :
    Except Error (OpenFeature × IdSource) :=
  let closed := { f with describing := false }
  let unexpected : Except Error (OpenFeature × IdSource) := .error ((Stage.feature f).unexpected t)
  let orUnexpected (r : Option (OpenFeature × IdSource)) : Except Error (OpenFeature × IdSource) :=
    match r with
    | some r => .ok r
    | none => unexpected
  let free := f.waiting.isNone
  let undecided := f.waiting.all fun w => !w.forScenario
  match t.kind with
  | .empty => .ok (if f.describing then f.mapHeading .addBlank else f, ids)
  | .language =>
    .ok ({ closed with waiting := f.waiting.map fun w => { w with forScenario := true } }, ids)
  | .other =>
    if f.describing then .ok (f.mapHeading (·.addLine t.text), ids) else unexpected
  | .tags =>
    let w := f.waiting.getD { lines := [] }
    .ok ({ closed with waiting := some { w with lines := t :: w.lines } }, ids)
  | .rule => if undecided then .ok (closed.openRule ids t) else unexpected
  | .background =>
    if !free then unexpected
    else if f.scopeHasBackground then .error (.secondBackground t.location)
    else
      let (f, ids) := closed.openBlock ids .background t
      .ok (f.markBackground, ids)
  | .scenario => .ok (closed.openBlock ids (.scenario .scenario) t)
  | .scenarioOutline => .ok (closed.openBlock ids (.scenario .outline) t)
  | .examples =>
    match f.scenario? with
    | some b => if undecided then .ok (closed.openExamples b ids t) else unexpected
    | none => unexpected
  | .step => if free then orUnexpected (closed.pushStep? ids t) else unexpected
  | .tableRow => if free then orUnexpected (closed.pushRow? ids t) else unexpected
  | .docStringSeparator =>
    if free then orUnexpected ((closed.openDoc? t).map (·, ids)) else unexpected
  | .feature | .docStringContent | .comment | .eof => unexpected

end OpenFeature

namespace Draft

def pushStart (d : Draft) (tags : Option (List Tag)) (t : Token) : Except Error Draft :=
  match t.kind with
  | .empty | .language => .ok d
  | .tags =>
    let (more, ids) := tagsOfLine d.ids t.location.line t.items
    .ok { d with ids, stage := .start (some (tags.getD [] ++ more)) }
  | .feature => .ok { d with stage := .feature { heading := .ofToken (tags.getD []) t } }
  | _ => .error (d.stage.unexpected t)

def push (d : Draft) (t : Token) : Except Error Draft :=
  let comment := { d with comments := ⟨t.location, t.text⟩ :: d.comments }
  match d.stage with
  | .start tags => if t.kind = .comment then .ok comment else d.pushStart tags t
  | .feature f =>
    match f.docString with
    | some doc => do return { d with stage := .feature (← f.pushDoc doc t) }
    | none =>
      if t.kind = .comment then .ok comment
      else do
        let (f, ids) ← f.push d.ids t
        return { d with ids, stage := .feature f }

end Draft

end Brine.Document
