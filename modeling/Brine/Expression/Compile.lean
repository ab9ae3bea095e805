import Brine.Expression.Node
import Brine.Parameter.Registry
import Brine.Pattern.Argument

namespace Brine

namespace Expression

structure Slot where
  type : ParameterType
  group : Nat

structure Source where
  pattern : List Char
  slots : List Slot

def Part.pattern : Part → List Char
  | .text t => Regex.quote t.toList
  | .optional t => "(?:".toList ++ Regex.quote t.toList ++ ")?".toList

def choicePattern (alternatives : List (List Part)) : List Char :=
  "(?:".toList ++ List.intercalate ['|'] (alternatives.map (·.flatMap Part.pattern)) ++ [')']

/-- The pattern of nodes and their parameters, where the next group has the number `group`. The
groups inside a type's own pattern are passed over. -/
def sourceFrom [Regex.Engine] (registry : Registry) (group : Nat) : List Node → Except Error Source
  | [] => .ok ⟨[], []⟩
  | .part p :: rest => do
    let s ← sourceFrom registry group rest
    return { s with pattern := p.pattern ++ s.pattern }
  | .choice alternatives :: rest => do
    let s ← sourceFrom registry group rest
    return { s with pattern := choicePattern alternatives ++ s.pattern }
  | .parameter name start :: rest =>
    match registry.get? name with
    | none => .error (.undefinedParameterType name start)
    | some type =>
      match type.regex with
      | .error e => .error (.regex e)
      | .ok regex => do
        let s ← sourceFrom registry (group + 1 + regex.groupCount) rest
        return { pattern := '(' :: type.regexSource.toList ++ ')' :: s.pattern,
                 slots := ⟨type, group⟩ :: s.slots }

def Source.ofText [Regex.Engine] (registry : Registry) (text : String) : Except Error Source := do
  let s ← sourceFrom registry 1 (← nodes text.toList)
  return { s with pattern := '^' :: s.pattern ++ ['$'] }

end Expression

structure Expression where
  source : String
  regex : Regex
  slots : List Expression.Slot

namespace Expression

def compile [Regex.Engine] (registry : Registry) (text : String) : Except Error Expression := do
  let s ← Source.ofText registry text
  match Regex.compile s.pattern with
  | .ok regex => return { source := text, regex, slots := s.slots }
  | .error e => .error (.regex e)

/-- The arguments of the expression's parameters, if it matches the text. -/
def match? (e : Expression) (text : String) : Option (List Argument) :=
  arguments? e.regex (e.slots.map fun s => (s.group, some s.type)) text

end Expression

end Brine
