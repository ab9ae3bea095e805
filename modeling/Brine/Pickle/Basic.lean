import Brine.Document.Basic
import Brine.Ids

namespace Brine

inductive StepPurpose where
  | context
  | action
  | outcome
  | unknown
deriving DecidableEq, Repr

def StepPurpose.ofKeyword : KeywordType → StepPurpose
  | .context => .context
  | .action => .action
  | .outcome => .outcome
  | .conjunction | .unknown => .unknown

inductive PickleArgument where
  | docString (content : String) (mediaType : Option String)
  | dataTable (rows : List (List String))
deriving DecidableEq, Repr

structure PickleTag where
  name : String
  tagId : String
deriving DecidableEq, Repr

/-- A step of a pickle before it has an identifier. `sources` are the identifiers of the nodes of
the document that it comes from. -/
structure StepPlan where
  text : String
  purpose : StepPurpose
  argument : Option PickleArgument
  sources : List String
deriving DecidableEq, Repr

structure Plan where
  location : Location
  name : String
  tags : List PickleTag
  steps : List StepPlan
  sources : List String
deriving DecidableEq, Repr

structure PickleStep extends StepPlan where
  id : String
deriving DecidableEq, Repr

structure Pickle where
  id : String
  uri : String
  location : Location
  name : String
  language : String
  tags : List PickleTag
  steps : List PickleStep
  sources : List String
deriving DecidableEq, Repr

def numberSteps (ids : IdSource) : List StepPlan → List PickleStep × IdSource
  | [] => ([], ids)
  | s :: rest =>
    let (id, ids) := ids.draw
    let (steps, ids) := numberSteps ids rest
    ({ s with id } :: steps, ids)

def Plan.number (uri language : String) (p : Plan) (ids : IdSource) : Pickle × IdSource :=
  let (steps, ids) := numberSteps ids p.steps
  let (id, ids) := ids.draw
  ({ id, uri, location := p.location, name := p.name, language, tags := p.tags, steps,
     sources := p.sources }, ids)

def pickleIds : IdSource where
  stem := "pickle-"

end Brine
