import Brine.Definition.Basic
import Brine.Snippet

namespace Brine

structure CompileFailure where
  pattern : PatternSource
  location : SourceLocation
  error : PatternError

structure CatalogEntry (α : Type) where
  definition : Definition α
  pattern : Except PatternError CompiledPattern

structure Catalog (α : Type) where
  registry : Registry
  entries : List (CatalogEntry α)

/-- Why a text has no definition that can be used. -/
inductive StepError where
  | undefined (text : String) (snippet : Snippet)
  | ambiguous (text : String) (candidates : List String)
  | transform (text : String) (pattern : PatternSource) (location : SourceLocation)
      (source : ParameterError)
deriving DecidableEq, Repr

def StepError.message : StepError → String
  | undefined text snippet =>
    "undefined step '" ++ text ++ "'; a definition could use the expression '" ++
      snippet.source ++ "'"
  | ambiguous text candidates =>
    "ambiguous step '" ++ text ++ "' matches: " ++ ", ".intercalate candidates
  | transform text pattern location source =>
    "step '" ++ text ++ "' matched " ++ pattern.label ++ " (" ++ location.text ++ ") but " ++
      source.message

structure Candidate (α : Type) where
  definition : Definition α
  arguments : List Argument

structure StepMatch (α : Type) where
  definition : Definition α
  arguments : List Argument
  values : List Value

/-- What a pass over the definitions has found so far: the most particular tier of those that match,
and the candidates of that tier. -/
structure Best (α : Type) where
  tier : Option Tier := none
  candidates : List (Candidate α) := []

/-- Takes one more definition. A less particular one is not even matched; a more particular one that
matches replaces what has been found. -/
def Best.add {α : Type} (text : String) (b : Best α) (e : CatalogEntry α) : Best α :=
  match e.pattern with
  | .error _ => b
  | .ok p =>
    if b.tier.any fun current => current.rank < p.tier.rank then b
    else
      match p.match? text with
      | none => b
      | some arguments =>
        let found : Candidate α := ⟨e.definition, arguments⟩
        if b.tier.all fun current => p.tier.rank < current.rank then ⟨some p.tier, [found]⟩
        else { b with candidates := b.candidates ++ [found] }

namespace Catalog

variable {α : Type}

def ofDefinitions [Regex.Engine] (registry : Registry) (definitions : List (Definition α)) :
    Catalog α where
  registry := registry
  entries := definitions.map fun d => ⟨d, CompiledPattern.compile registry d.pattern⟩

def definitions (c : Catalog α) : List (Definition α) :=
  c.entries.map (·.definition)

def failures (c : Catalog α) : List CompileFailure :=
  c.entries.filterMap fun e =>
    match e.pattern with
    | .ok _ => none
    | .error error => some ⟨e.definition.pattern, e.definition.location, error⟩

def best (c : Catalog α) (text : String) : Best α :=
  c.entries.foldl (Best.add text) {}

def matchText [Regex.Engine] (c : Catalog α) (text : String) : Except StepError (StepMatch α) :=
  match (c.best text).candidates with
  | [] => .error (.undefined text (Snippet.generate c.registry text))
  | [found] =>
    let d := found.definition
    match found.arguments.mapM Argument.value with
    | .ok values => .ok ⟨d, found.arguments, values⟩
    | .error e => .error (.transform text d.pattern d.location e)
  | several => .error (.ambiguous text (several.map (·.definition.label)))

end Catalog

end Brine
