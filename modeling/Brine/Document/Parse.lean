import Brine.Document.Draft.Push
import Brine.Line.Reader

namespace Brine.Document
open Line

namespace Draft

def closeFeature (f : OpenFeature) (ids : IdSource) (language : String) : Feature :=
  let (f, _) := f.closeRule ids
  let h := f.heading
  { location := h.location, tags := h.tags, language, keyword := h.keyword, name := h.name,
    description := h.description, children := f.children.reverse }

/-- The finished document, if it may end here. -/
def finish (d : Draft) (language uri : String) (eof : Token) : Except Error Document :=
  let comments := d.comments.reverse
  match d.stage with
  | .start none => .ok { uri, feature := none, comments }
  | .start (some _) => .error (d.stage.unexpected eof)
  | .feature f =>
    if f.docString.isSome || f.waiting.isSome then .error (d.stage.unexpected eof)
    else .ok { uri, feature := some (closeFeature f d.ids language), comments }

/-- Takes lines up to the end of the text; `eof` is the end of a text that is not marked. -/
def build (language uri : String) (eof : Token) (d : Draft) : List Token → Except Error Document
  | [] => d.finish language uri eof
  | t :: rest =>
    if t.kind = .eof then d.finish language uri t
    else do (← d.push t).build language uri eof rest

end Draft

/-- The end of a text that has no mark of it: the line after the last one. -/
def impliedEnd (tokens : List Token) : Token :=
  { kind := .eof, location := ⟨(tokens.getLast?.map (·.location.line + 1)).getD 1, 0⟩ }

def ofTokens (source : Tokens) (uri : String) : Except Error Document :=
  Draft.build source.language uri (impliedEnd source.tokens) {} source.tokens

/-- Reads a document whose language is `requested`, unless it says so itself. -/
def parse (table : Table) (settings : Settings) (requested : Option String) (uri source : String) :
    Except Error Document :=
  ofTokens (tokenize table settings (settings.initialLanguage requested) source) uri

end Brine.Document
