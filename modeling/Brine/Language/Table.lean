import Brine.Json.Reader
import Brine.Language.Dialect
import Brine.Language.Settings

namespace Brine

/-- The dialects of some languages by their codes; there is at least one. -/
structure Table where
  dialects : List (String × Dialect)
  nonempty : dialects ≠ []

inductive TableError where
  | malformed
  | empty
  | unknownLanguage (code : String)
deriving DecidableEq

def TableError.message : TableError → String
  | .malformed => "invalid keyword table"
  | .empty => "keyword table defines no languages"
  | .unknownLanguage code => "unknown language '" ++ code ++ "'"

namespace Table

def get? (t : Table) (code : String) : Option Dialect :=
  t.dialects.lookup code

def dialect (t : Table) (code : String) : Except TableError Dialect :=
  match t.get? code with
  | some d => .ok d
  | none => .error (.unknownLanguage code)

def least (t : Table) : String × Dialect :=
  match t.dialects, t.nonempty with
  | entry :: rest, _ => rest.foldl (fun a b => if b.1 < a.1 then b else a) entry

/-- The dialect to use for a code: that of the code itself, or else of the default language, of the
fallback language, or of the least code. -/
def resolve (t : Table) (default code : String) : String × Dialect :=
  let entry (code : String) := (t.get? code).map fun d => (code, d)
  (entry code <|> entry default <|> entry fallbackLanguage).getD t.least

def languages (t : Table) : List String :=
  (t.dialects.map (·.1)).mergeSort

def fieldNames : List String :=
  ["name", "native", "feature", "rule", "background", "scenario", "scenarioOutline", "examples",
    "given", "when", "then", "and", "but"]

/-- The dialect with these fields. A field of a dialect stands exactly once; others are ignored. -/
def dialectOfFields (fields : List (String × Json)) : Option Dialect := do
  guard (fieldNames.all fun name => (fields.filter (·.1 = name)).length = 1)
  let text (name : String) := fields.lookup name >>= Json.text?
  let texts (name : String) := fields.lookup name >>= Json.texts?
  return {
    name := ← text "name"
    native := ← text "native"
    feature := ← texts "feature"
    rule := ← texts "rule"
    background := ← texts "background"
    scenario := ← texts "scenario"
    scenarioOutline := ← texts "scenarioOutline"
    examples := ← texts "examples"
    context := ← texts "given"
    action := ← texts "when"
    outcome := ← texts "then"
    conjunction := ← texts "and"
    contrast := ← texts "but" }

/-- The fields of an object, if all of them have a text as their name. -/
def namedFields (fields : List (Option String × Json)) : Option (List (String × Json)) :=
  fields.mapM fun (name, value) => name.map fun name => (name, value)

def dialectOfJson : Json → Option Dialect
  | .object fields => namedFields fields >>= dialectOfFields
  | .array items =>
    if items.length = fieldNames.length then dialectOfFields (fieldNames.zip items) else none
  | _ => none

/-- Adds an entry; the last one of a code is kept. -/
def put (entries : List (String × Dialect)) (entry : String × Dialect) : List (String × Dialect) :=
  entries.filter (·.1 ≠ entry.1) ++ [entry]

def entriesOfJson : Json → Option (List (String × Dialect))
  | .object fields => do
    let entries ← (← namedFields fields).mapM fun (code, value) =>
      (dialectOfJson value).map fun d => (code, d)
    return entries.foldl put []
  | _ => none

def ofJson (text : String) : Except TableError Table :=
  match Json.read text.toList >>= entriesOfJson with
  | none => .error .malformed
  | some [] => .error .empty
  | some (entry :: rest) => .ok ⟨entry :: rest, by simp⟩

end Table

end Brine
