import Brine.Regex.Error

namespace Brine.Expression

/-- Why a text is no expression. -/
inductive Error where
  | unterminatedParameter (position : Nat)
  | unterminatedOptional (position : Nat)
  | emptyOptional (position : Nat)
  | nestedOptional (position : Nat)
  | parameterInOptional (position : Nat)
  | parameterInAlternation (position : Nat)
  | emptyAlternative (position : Nat)
  | unexpectedCharacter (character : Char) (position : Nat)
  | undefinedParameterType (name : String) (position : Nat)
  /-- The patterns of its parameter types do not go together. -/
  | regex (cause : Regex.Error)
deriving DecidableEq

namespace Error

def position? : Error → Option Nat
  | unterminatedParameter p | unterminatedOptional p | emptyOptional p | nestedOptional p
  | parameterInOptional p | parameterInAlternation p | emptyAlternative p
  | unexpectedCharacter _ p | undefinedParameterType _ p => some p
  | regex _ => none

def message : Error → String
  | unterminatedParameter p => "missing closing '\x7d' for parameter opened at byte " ++ p.repr
  | unterminatedOptional p => "missing closing ')' for optional text opened at byte " ++ p.repr
  | emptyOptional p => "optional text at byte " ++ p.repr ++ " may not be empty"
  | nestedOptional p => "optional text at byte " ++ p.repr ++ " may not contain another optional"
  | parameterInOptional p => "optional text at byte " ++ p.repr ++ " may not contain a parameter"
  | parameterInAlternation p => "alternation at byte " ++ p.repr ++ " may not contain a parameter"
  | emptyAlternative p =>
    "alternative at byte " ++ p.repr ++ " may not be empty or consist only of optional text"
  | unexpectedCharacter c p => "unexpected '" ++ c.toString ++ "' at byte " ++ p.repr
  | undefinedParameterType name p =>
    "undefined parameter type '" ++ name ++ "' at byte " ++ p.repr
  | regex cause => cause.message

end Error

end Brine.Expression
