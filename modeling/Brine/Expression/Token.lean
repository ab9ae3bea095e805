import Brine.Expression.Error
import Brine.Text.Blank

namespace Brine.Expression
open Text

inductive Token where
  | text (text : String)
  | space (text : String)
  | parameter (name : String) (start : Nat)
  | optional (text : String)
  | slash (position : Nat)
deriving DecidableEq, Repr

/-- What the characters that are being collected belong to; a parameter and an optional text know
where they start. -/
inductive Mode where
  | text
  | space
  | parameter (start : Nat)
  | optional (start : Nat)
deriving DecidableEq

def flush (mode : Mode) (run : List Char) (tokens : List Token) : List Token :=
  if run.isEmpty then tokens
  else if mode = .space then .space (String.ofList run.reverse) :: tokens
  else .text (String.ofList run.reverse) :: tokens

/-- The tokens of what is left of an expression at the byte offset `pos`, where `run` holds the
characters collected so far, last first. -/
def scan : Mode → Nat → List Char → List Char → Except Error (List Token)
  | mode, _, run, [] =>
    match mode with
    | .text | .space => .ok (flush mode run [])
    | .parameter start => .error (.unterminatedParameter start)
    | .optional start => .error (.unterminatedOptional start)
  | .parameter start, pos, run, c :: rest =>
    if c = '\x7d' then
      return .parameter (String.ofList run.reverse) start :: (← scan .text (pos + 1) [] rest)
    else if c = '\x7b' then .error (.unexpectedCharacter c pos)
    else scan (.parameter start) (pos + c.utf8Size) (c :: run) rest
  | .optional start, pos, run, c :: rest =>
    if c = '\\' then
      match rest with
      | [] => scan (.optional start) (pos + 1) (c :: run) []
      | e :: rest => scan (.optional start) (pos + 1 + e.utf8Size) (e :: run) rest
    else if c = ')' then
      if run.isEmpty then .error (.emptyOptional start)
      else return .optional (String.ofList run.reverse) :: (← scan .text (pos + 1) [] rest)
    else if c = '\x7b' then .error (.parameterInOptional pos)
    else if c = '(' then .error (.nestedOptional pos)
    else scan (.optional start) (pos + c.utf8Size) (c :: run) rest
  | mode, pos, run, c :: rest =>
    let started := if mode = .text then run else []
    let before (tokens : List Token) := if mode = .text then tokens else flush mode run tokens
    if c = '\\' then
      match rest with
      | [] => before <$> scan .text (pos + 1) (c :: started) []
      | e :: rest => before <$> scan .text (pos + 1 + e.utf8Size) (e :: started) rest
    else if isBlank c then
      if mode = .space then scan .space (pos + c.utf8Size) (c :: run) rest
      else flush mode run <$> scan .space (pos + c.utf8Size) [c] rest
    else if c = '\x7b' then flush mode run <$> scan (.parameter pos) (pos + 1) [] rest
    else if c = '(' then flush mode run <$> scan (.optional pos) (pos + 1) [] rest
    else if c = '/' then
      (fun tokens => flush mode run (.slash pos :: tokens)) <$> scan .text (pos + 1) [] rest
    else if c = '\x7d' ∨ c = ')' then .error (.unexpectedCharacter c pos)
    else before <$> scan .text (pos + c.utf8Size) (c :: started) rest

def tokens (source : List Char) : Except Error (List Token) :=
  scan .text 0 [] source

end Brine.Expression
