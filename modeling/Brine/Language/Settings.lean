import Brine.Text.Blank

namespace Brine

def fallbackLanguage : String := "en"

/-- The configured default language: one that the program has set, or else one that its environment
names. -/
structure Settings where
  chosen : Option String := none
  environment : Option String := none

namespace Settings

def environmentLanguage (s : Settings) : Option String :=
  (s.environment.map fun code => String.ofList (Text.trim code.toList)).filter (· ≠ "")

def defaultLanguage (s : Settings) : String :=
  (s.chosen <|> s.environmentLanguage).getD fallbackLanguage

def initialLanguage (s : Settings) (requested : Option String) : String :=
  requested.getD s.defaultLanguage

end Settings

end Brine
