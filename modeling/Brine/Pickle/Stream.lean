import Brine.Pickle.Expansion

namespace Brine

structure OutlineCursor where
  inherited : Inherited
  scenario : Scenario
  blocks : List Examples
  row : Nat := 0

structure RuleCursor where
  inherited : Inherited
  background : List Step
  children : List RuleChild

/-- The place in a document at which the next pickle is looked for. -/
structure Cursor where
  tags : List Tag := []
  background : List Step := []
  children : List FeatureChild := []
  rule : Option RuleCursor := none
  outline : Option OutlineCursor := none

/-- The next row of examples in blocks of which the first has given `row` rows, and the blocks and
rows after it. -/
def nextRow? : List Examples → Nat → Option (ExampleRow × List Examples × Nat)
  | [], _ => none
  | block :: rest, row =>
    match block.header, block.body[row]? with
    | some header, some next => some (⟨block, header, next⟩, block :: rest, row + 1)
    | _, _ => nextRow? rest 0

def OutlineCursor.next? (o : OutlineCursor) : Option (Plan × OutlineCursor) :=
  (nextRow? o.blocks o.row).map fun (found, blocks, row) =>
    (.ofRow o.inherited o.scenario found, { o with blocks, row })

def Scenario.firstPlan? (i : Inherited) (s : Scenario) : Option (Plan × Option OutlineCursor) :=
  if s.isOutline then
    let outline : OutlineCursor := { inherited := i, scenario := s, blocks := s.examples }
    outline.next?.map fun (plan, outline) => (plan, some outline)
  else some (.ofScenario i s, none)

def nextInRule? (i : Inherited) (background : List Step) :
    List RuleChild → Option (Plan × RuleCursor × Option OutlineCursor)
  | [] => none
  | .background b :: rest => nextInRule? i b.steps rest
  | .scenario s :: rest =>
    match s.firstPlan? { i with steps := i.steps ++ background } with
    | some (plan, outline) => some (plan, ⟨i, background, rest⟩, outline)
    | none => nextInRule? i background rest

def nextInFeature (tags : List Tag) (background : List Step) :
    List FeatureChild → Option Plan × Cursor
  | [] => (none, { tags, background })
  | .background b :: rest => nextInFeature tags b.steps rest
  | .scenario s :: rest =>
    match s.firstPlan? ⟨tags, background⟩ with
    | some (plan, outline) => (some plan, { tags, background, children := rest, outline })
    | none => nextInFeature tags background rest
  | .rule r :: rest =>
    match nextInRule? ⟨tags ++ r.tags, background⟩ [] r.children with
    | some (plan, rule, outline) =>
      (some plan, { tags, background, children := rest, rule := some rule, outline })
    | none => nextInFeature tags background rest

def Cursor.next (c : Cursor) : Option Plan × Cursor :=
  match c.outline >>= (·.next?) with
  | some (plan, outline) => (some plan, { c with outline := some outline })
  | none =>
    match c.rule >>= fun r => nextInRule? r.inherited r.background r.children with
    | some (plan, rule, outline) => (some plan, { c with rule := some rule, outline })
    | none => nextInFeature c.tags c.background c.children

/-- The pickles of a document that have not been taken yet. -/
structure Stream where
  uri : String
  language : String
  ids : IdSource
  cursor : Cursor

namespace Stream

def ofDocument (d : Document) : Stream where
  uri := d.uri
  language := d.language
  ids := pickleIds
  cursor :=
    match d.feature with
    | none => {}
    | some f => { tags := f.tags, children := f.children }

/-- The next pickle, if there is one, and the stream after it. -/
def next (s : Stream) : Option Pickle × Stream :=
  match s.cursor.next with
  | (none, cursor) => (none, { s with cursor })
  | (some plan, cursor) =>
    let (pickle, ids) := plan.number s.uri s.language s.ids
    (some pickle, { s with ids, cursor })

def take (s : Stream) : Nat → List Pickle × Stream
  | 0 => ([], s)
  | n + 1 =>
    match s.next with
    | (none, s) => ([], s)
    | (some pickle, s) =>
      let (pickles, s) := s.take n
      (pickle :: pickles, s)

end Stream

def rowCount : List Examples → Nat → Nat
  | [], _ => 0
  | block :: rest, row =>
    (if block.header.isSome then block.body.length - row else 0) + rowCount rest 0

def Scenario.pickleCount (s : Scenario) : Nat :=
  if s.isOutline then rowCount s.examples 0 else 1

def rulePickleCount : List RuleChild → Nat
  | [] => 0
  | .background _ :: rest => rulePickleCount rest
  | .scenario s :: rest => s.pickleCount + rulePickleCount rest

def featurePickleCount : List FeatureChild → Nat
  | [] => 0
  | .background _ :: rest => featurePickleCount rest
  | .scenario s :: rest => s.pickleCount + featurePickleCount rest
  | .rule r :: rest => rulePickleCount r.children + featurePickleCount rest

def Stream.remaining (s : Stream) : Nat :=
  (s.cursor.outline.map fun o => rowCount o.blocks o.row).getD 0 +
    (s.cursor.rule.map fun r => rulePickleCount r.children).getD 0 +
    featurePickleCount s.cursor.children

def Stream.takeAll (s : Stream) : List Pickle × Stream :=
  s.take s.remaining

end Brine
