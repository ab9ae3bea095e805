import Brine.Parameter.Registry
import Brine.Pattern.Argument
import Brine.Pattern.Groups

namespace Brine

structure RegularPattern where
  source : String
  regex : Regex
  groups : List (Nat × Option ParameterType)

namespace RegularPattern

def compile [Regex.Engine] (registry : Registry) (source : String) :
    Except Regex.Error RegularPattern := do
  let regex ← Regex.compile source.toList
  let outermost := (Pattern.groups source.toList).filter (·.depth = 0)
  let groups := outermost.map fun g => (g.index, registry.lookupByRegexp g.source)
  return { source, regex, groups }

def match? (p : RegularPattern) (text : String) : Option (List Argument) :=
  arguments? p.regex p.groups text

end RegularPattern

end Brine
