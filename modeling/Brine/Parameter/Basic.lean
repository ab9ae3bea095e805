import Brine.Number.Binary64
import Brine.Regex.Compile

namespace Brine

inductive Value where
  | int (value : Int)
  | float (value : Number.Binary64)
  | text (value : String)
deriving DecidableEq, Repr

inductive ParameterError where
  | duplicate (name : String)
  | unknown (name : String)
  | invalidName (name : String) (character : Char)
  | invalidRegex (name regexp reason : String)
  | transform (name value reason : String)
deriving DecidableEq, Repr

def ParameterError.message : ParameterError → String
  | .duplicate name => "parameter type '" ++ name ++ "' is already defined"
  | .unknown name => "parameter type '" ++ name ++ "' is not defined"
  | .invalidName name character =>
    "illegal character '" ++ character.toString ++ "' in parameter type name '" ++ name ++ "'"
  | .invalidRegex name regexp reason =>
    "parameter type '" ++ name ++ "' has an invalid regex '" ++ regexp ++ "': " ++ reason
  | .transform name value reason =>
    "cannot convert '" ++ value ++ "' with parameter type '" ++ name ++ "': " ++ reason

/-- A parameter type. Its text matches one of its patterns; the value is converted from the cleaned
text. -/
structure ParameterType where
  name : String
  regexps : List String
  clean : String → String := id
  convert : String → Except ParameterError Value := fun text => .ok (.text text)
  /-- Whether suggested expressions use the type. -/
  forSnippets : Bool := false
  /-- Whether a group of a regular expression prefers the type over others with the same pattern. -/
  preferred : Bool := false

namespace ParameterType

def isAnonymous (t : ParameterType) : Bool :=
  t.name.isEmpty

def regexSource (t : ParameterType) : String :=
  "|".intercalate t.regexps

def hasRegexp (t : ParameterType) (source : String) : Bool :=
  t.regexps.contains source || t.regexSource = source

def transform (t : ParameterType) (raw : String) : Except ParameterError Value :=
  t.convert (t.clean raw)

def regex [Regex.Engine] (t : ParameterType) : Except Regex.Error Regex :=
  Regex.compile t.regexSource.toList

end ParameterType

end Brine
