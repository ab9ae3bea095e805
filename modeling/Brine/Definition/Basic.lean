import Brine.Expression.Compile
import Brine.Pattern.Regular

namespace Brine

inductive PatternSource where
  | exact (text : String)
  | expression (text : String)
  | regex (text : String)
deriving DecidableEq, Repr

/-- How particular a pattern is; a more particular one comes before the others. -/
inductive Tier where
  | exact
  | expression
  | regex
deriving DecidableEq, Repr

def Tier.rank : Tier → Nat
  | exact => 0
  | expression => 1
  | regex => 2

namespace PatternSource

def text : PatternSource → String
  | exact t | expression t | regex t => t

def tier : PatternSource → Tier
  | exact _ => .exact
  | expression _ => .expression
  | regex _ => .regex

def label : PatternSource → String
  | exact t => "\"" ++ t ++ "\""
  | expression t => t
  | regex t => "/" ++ t ++ "/"

end PatternSource

structure SourceLocation where
  file : String
  line : Nat
deriving DecidableEq, Repr

def SourceLocation.text (l : SourceLocation) : String :=
  l.file ++ ":" ++ l.line.repr

structure Definition (α : Type) where
  pattern : PatternSource
  handler : α
  location : SourceLocation

def Definition.label {α : Type} (d : Definition α) : String :=
  d.pattern.label ++ " (" ++ d.location.text ++ ")"

inductive CompiledPattern where
  | exact (text : String)
  | expression (e : Expression)
  | regex (p : RegularPattern)

inductive PatternError where
  | expression (cause : Expression.Error)
  | regex (cause : Regex.Error)
deriving DecidableEq

namespace CompiledPattern

def compile [Regex.Engine] (registry : Registry) :
    PatternSource → Except PatternError CompiledPattern
  | .exact text => .ok (.exact text)
  | .expression text =>
    match Expression.compile registry text with
    | .ok e => .ok (.expression e)
    | .error e => .error (.expression e)
  | .regex text =>
    match RegularPattern.compile registry text with
    | .ok p => .ok (.regex p)
    | .error e => .error (.regex e)

def tier : CompiledPattern → Tier
  | exact _ => .exact
  | expression _ => .expression
  | regex _ => .regex

/-- The arguments that the pattern takes from a text, if it matches. -/
def match? (p : CompiledPattern) (text : String) : Option (List Argument) :=
  match p with
  | exact expected => if expected = text then some [] else none
  | expression e => e.match? text
  | regex p => p.match? text

end CompiledPattern

end Brine
