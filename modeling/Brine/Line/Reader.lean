import Brine.Language.Table
import Brine.Line.Items
import Brine.Text.Lines
import Brine.Text.Replace

namespace Brine.Line
open Text

inductive Delimiter where
  | quotes
  | backticks
deriving DecidableEq, Repr

def Delimiter.chars : Delimiter → List Char
  | .quotes => ['"', '"', '"']
  | .backticks => ['\x60', '\x60', '\x60']

def Delimiter.escaped (d : Delimiter) : List Char :=
  d.chars.flatMap fun c => ['\\', c]

structure OpenDocString where
  delimiter : Delimiter
  indent : Nat
deriving DecidableEq

structure Reader where
  language : String
  dialect : Dialect
  docString : Option OpenDocString := none
  hasContent : Bool := false

/-- Removes an indent; a line that is indented less stays as it is. -/
def stripIndent (n : Nat) (line : List Char) : List Char :=
  if indent line < n then line else line.drop n

def docContent (d : OpenDocString) (line : List Char) : List Char :=
  replace d.delimiter.escaped d.delimiter.chars (stripIndent d.indent line)

def directive? (line : List Char) : Option (List Char) := do
  let rest ← after? ['#'] (trimStart line)
  let word := trimStart rest
  guard ((word.take 8).map Char.toLower = "language".toList)
  let rest ← after? [':'] (trimStart (word.drop 8))
  let code := trim rest
  guard (!code.isEmpty && !code.any isBlank)
  return code

def opening? (line : List Char) : Option (Delimiter × List Char) :=
  [Delimiter.quotes, .backticks].findSome? fun d => (after? d.chars line).map fun rest => (d, rest)

def headingLists (d : Dialect) : List (Kind × List String) :=
  [(.feature, d.feature), (.rule, d.rule), (.background, d.background),
    (.scenarioOutline, d.scenarioOutline), (.scenario, d.scenario), (.examples, d.examples)]

def heading? (d : Dialect) (line : List Char) : Option (Kind × String × List Char) :=
  (headingLists d).findSome? fun (kind, keywords) => keywords.findSome? fun keyword => do
    let rest ← after? keyword.toList line
    let title ← after? [':'] rest
    return (kind, keyword, trim title)

def step? (d : Dialect) (line : List Char) : Option (String × KeywordType × List Char) :=
  d.stepKeywords.findSome? fun (keyword, type) =>
    (after? keyword.toList line).map fun rest => (keyword, type, trimEnd rest)

def keywordLine (d : Dialect) (location : Location) (line : List Char) (trimmed : List Char) :
    Token :=
  match heading? d trimmed with
  | some (kind, keyword, title) =>
    { kind, location, keyword := some keyword, text := String.ofList title }
  | none =>
    match step? d trimmed with
    | some (keyword, type, text) =>
      { kind := .step, location, keyword := some keyword, keywordType := some type,
        text := String.ofList text }
    | none => { kind := .other, location, text := String.ofList (trimEnd line) }

namespace Reader

def start (table : Table) (settings : Settings) (code : String) : Reader :=
  let (language, dialect) := table.resolve settings.defaultLanguage code
  { language, dialect }

def readDocLine (r : Reader) (d : OpenDocString) (number : Nat) (line : List Char) :
    Token × Reader :=
  match after? d.delimiter.chars (trimStart line) with
  | some _ =>
    ({ kind := .docStringSeparator, location := ⟨number, indent line + 1⟩,
       keyword := some (String.ofList d.delimiter.chars) },
      { r with docString := none })
  | none =>
    ({ kind := .docStringContent, location := ⟨number, 1⟩,
       text := String.ofList (docContent d line) }, r)

def readComment (table : Table) (settings : Settings) (r : Reader) (number : Nat)
    (line : List Char) : Token × Reader :=
  match if r.hasContent then none else directive? line with
  | some code =>
    let code := String.ofList code
    let (language, dialect) := table.resolve settings.defaultLanguage code
    ({ kind := .language, location := ⟨number, indent line + 1⟩, text := code },
      { r with language, dialect })
  | none => ({ kind := .comment, location := ⟨number, 1⟩, text := String.ofList line }, r)

def readPlain (table : Table) (settings : Settings) (r : Reader) (number : Nat)
    (line : List Char) : Token × Reader :=
  let location : Location := ⟨number, indent line + 1⟩
  let trimmed := trimStart line
  let text := String.ofList (trimEnd trimmed)
  match trimmed.head? with
  | none => ({ kind := .empty, location }, r)
  | some '#' => readComment table settings r number line
  | some '@' => ({ kind := .tags, location, text, items := tagItems line }, r)
  | some first =>
    match opening? trimmed with
    | some (delimiter, rest) =>
      let mediaType := trim rest
      ({ kind := .docStringSeparator, location,
         keyword := some (String.ofList delimiter.chars),
         mediaType := if mediaType.isEmpty then none else some (String.ofList mediaType) },
        { r with docString := some ⟨delimiter, indent line⟩ })
    | none =>
      if first = '|' then ({ kind := .tableRow, location, text, items := cellItems line }, r)
      else (keywordLine r.dialect location line trimmed, r)

def read (table : Table) (settings : Settings) (r : Reader) (number : Nat) (line : List Char) :
    Token × Reader :=
  let (token, r) :=
    match r.docString with
    | some d => r.readDocLine d number line
    | none => r.readPlain table settings number line
  let isTrivia := token.kind = .empty ∨ token.kind = .comment ∨ token.kind = .language
  (token, if isTrivia then r else { r with hasContent := true })

def readAll (table : Table) (settings : Settings) (r : Reader) (number : Nat) :
    List (List Char) → List Token × Reader
  | [] => ([{ kind := .eof, location := ⟨number, 0⟩ }], r)
  | line :: rest =>
    let (token, r) := r.read table settings number line
    let (tokens, r) := r.readAll table settings (number + 1) rest
    (token :: tokens, r)

end Reader

structure Tokens where
  language : String
  tokens : List Token

/-- Classifies the lines of a text that starts in the language `code`. The last token marks the end
of the text. -/
def tokenize (table : Table) (settings : Settings) (code : String) (source : String) : Tokens :=
  let (tokens, r) :=
    (Reader.start table settings code).readAll table settings 1 (lines source.toList)
  { language := r.language, tokens }

end Brine.Line
