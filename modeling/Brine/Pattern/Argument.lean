import Brine.Parameter.Basic
import Brine.Regex.Match
import Brine.Text.Bytes

namespace Brine

/-- The text of a group, its byte offset if the group took part in the match, and the type that
converts it. -/
structure Argument where
  raw : String
  start : Option Nat
  type : Option ParameterType

/-- The value of an argument; without a type it is its text. -/
def Argument.value (a : Argument) : Except ParameterError Value :=
  match a.type with
  | some t => t.transform a.raw
  | none => .ok (.text a.raw)

/-- The argument of a group. A group that took no part is empty. -/
def Argument.ofGroup (text : List Char) (m : Regex.Match) (index : Nat)
    (type : Option ParameterType) : Argument :=
  match m.group? index with
  | some (start, stop) =>
    { raw := String.ofList ((text.drop start).take (stop - start)),
      start := some (Text.byteOffset text start), type }
  | none => { raw := "", start := none, type }

/-- The arguments of groups, if the expression matches somewhere in the text. -/
def arguments? (regex : Regex) (groups : List (Nat × Option ParameterType)) (text : String) :
    Option (List Argument) :=
  (regex.find text.toList).map fun m =>
    groups.map fun (index, type) => .ofGroup text.toList m index type

end Brine
