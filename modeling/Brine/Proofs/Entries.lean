import Brine.Document.Basic
import Brine.Proofs.LineShapes
import Mathlib.Data.List.DropRight

namespace Brine.Proofs.Entries
open Line LineShapes

/-- Something that a line says, at the place where it stands. -/
inductive Entry where
  | tag (location : Location) (name : String)
  | heading (kind : Kind) (location : Location) (keyword name : String)
      (description : Option String)
  | step (location : Location) (keyword text : String)
  | row (location : Location) (cells : List Cell)
  | docString (doc : DocString)
deriving DecidableEq

def ofTag (t : Tag) : Entry :=
  .tag t.location t.name

def ofRow (r : Row) : Entry :=
  .row r.location r.cells

def ofArgument : Option StepArgument → List Entry
  | none => []
  | some (.docString doc) => [.docString doc]
  | some (.dataTable table) => table.rows.map ofRow

def ofStep (s : Step) : List Entry :=
  .step s.location s.keyword s.text :: ofArgument s.argument

def ofExamples (e : Examples) : List Entry :=
  e.tags.map ofTag ++ [.heading .examples e.location e.keyword e.name e.description] ++
    (e.header.toList ++ e.body).map ofRow

def ofBackground (b : Background) : List Entry :=
  [.heading .background b.location b.keyword b.name b.description] ++ b.steps.flatMap ofStep

def kindOf : ScenarioKind → Kind
  | .scenario => .scenario
  | .outline => .scenarioOutline

def ofScenario (s : Scenario) : List Entry :=
  s.tags.map ofTag ++ [.heading (kindOf s.kind) s.location s.keyword s.name s.description] ++
    s.steps.flatMap ofStep ++ s.examples.flatMap ofExamples

def ofRuleChild : RuleChild → List Entry
  | .background b => ofBackground b
  | .scenario s => ofScenario s

def ofRule (r : Rule) : List Entry :=
  r.tags.map ofTag ++ [.heading .rule r.location r.keyword r.name r.description] ++
    r.children.flatMap ofRuleChild

def ofFeatureChild : FeatureChild → List Entry
  | .background b => ofBackground b
  | .scenario s => ofScenario s
  | .rule r => ofRule r

def ofFeature (f : Feature) : List Entry :=
  f.tags.map ofTag ++ [.heading .feature f.location f.keyword f.name f.description] ++
    f.children.flatMap ofFeatureChild

/-- The entries of a document, in the order of a walk through it. -/
def ofDocument (d : Document) : List Entry :=
  d.feature.toList.flatMap ofFeature

def isText : Kind → Bool
  | .other | .empty | .comment => true
  | _ => false

/-- The lines that follow a heading up to the first that ends its description, comments left
out. -/
def textLines (ts : List Token) : List Token :=
  (ts.takeWhile (isText ·.kind)).filter (·.kind ≠ .comment)

def lineText (t : Token) : String :=
  if t.kind = .empty then "" else t.text

/-- What the lines after a heading describe it with: the lines of text and the blank lines between
them. -/
def descriptionOf (ts : List Token) : Option String :=
  match ((textLines ts).dropWhile (·.kind = .empty)).rdropWhile (·.kind = .empty) with
  | [] => none
  | lines => some ("\n".intercalate (lines.map lineText))

def contentOf (ts : List Token) : String :=
  "\n".intercalate ((ts.takeWhile (·.kind = .docStringContent)).map (·.text))

def tagEntries (t : Token) : List Entry :=
  t.items.map fun item => .tag ⟨t.location.line, item.column⟩ item.text

def lineEntries (t : Token) (rest : List Token) : List Entry :=
  match t.kind with
  | .feature | .rule | .background | .scenario | .scenarioOutline | .examples =>
    [.heading t.kind t.location (t.keyword.getD "") t.text (descriptionOf rest)]
  | .tags => tagEntries t
  | .step => [.step t.location (t.keyword.getD "") t.text]
  | .tableRow =>
    [.row t.location (t.items.map fun item => ⟨⟨t.location.line, item.column⟩, item.text⟩)]
  | .docStringSeparator =>
    [.docString
      { location := t.location, delimiter := t.keyword.getD "", mediaType := t.mediaType,
        content := contentOf rest }]
  | _ => []

theorem lineEntries_isHeading {t : Token} (h : t.kind.isHeading = true) (rest : List Token) :
    lineEntries t rest =
      [.heading t.kind t.location (t.keyword.getD "") t.text (descriptionOf rest)] := by
  unfold lineEntries
  cases hk : t.kind <;> simp [hk, Kind.isHeading] at h ⊢

/-- The entries that lines stand for; `inside` says whether a doc string is open. -/
def ofLines (inside : Bool) : List Token → List Entry
  | [] => []
  | t :: rest =>
    (if inside then [] else lineEntries t rest) ++ ofLines (insideAfter inside t.kind) rest

/-- The comments among lines. -/
def commentsOf (ts : List Token) : List Comment :=
  (ts.filter (·.kind = .comment)).map fun t => ⟨t.location, t.text⟩

end Brine.Proofs.Entries
