import Brine.Language.Table

namespace Brine.Dialect

def german : Dialect where
  name := "German"
  native := "Deutsch"
  feature := ["Funktionalität", "Funktion"]
  rule := ["Rule", "Regel"]
  background := ["Grundlage", "Hintergrund", "Voraussetzungen", "Vorbedingungen"]
  scenario := ["Beispiel", "Szenario"]
  scenarioOutline := ["Szenariogrundriss", "Szenarien"]
  examples := ["Beispiele"]
  context := ["* ", "Angenommen ", "Gegeben sei ", "Gegeben seien "]
  action := ["* ", "Wenn "]
  outcome := ["* ", "Dann "]
  conjunction := ["* ", "Und "]
  contrast := ["* ", "Aber "]

def english : Dialect where
  name := "English"
  native := "English"
  feature := ["Feature", "Business Need", "Ability"]
  rule := ["Rule"]
  background := ["Background"]
  scenario := ["Example", "Scenario"]
  scenarioOutline := ["Scenario Outline", "Scenario Template"]
  examples := ["Examples", "Scenarios"]
  context := ["* ", "Given "]
  action := ["* ", "When "]
  outcome := ["* ", "Then "]
  conjunction := ["* ", "And "]
  contrast := ["* ", "But "]

def spanish : Dialect where
  name := "Spanish"
  native := "español"
  feature := ["Característica", "Necesidad del negocio", "Requisito"]
  rule := ["Regla", "Regla de negocio"]
  background := ["Antecedentes"]
  scenario := ["Ejemplo", "Escenario"]
  scenarioOutline := ["Esquema del escenario"]
  examples := ["Ejemplos"]
  context := ["* ", "Dado ", "Dada ", "Dados ", "Dadas "]
  action := ["* ", "Cuando "]
  outcome := ["* ", "Entonces "]
  conjunction := ["* ", "Y ", "E "]
  contrast := ["* ", "Pero "]

def french : Dialect where
  name := "French"
  native := "français"
  feature := ["Fonctionnalité"]
  rule := ["Règle"]
  background := ["Contexte"]
  scenario := ["Exemple", "Scénario"]
  scenarioOutline := ["Plan du scénario", "Plan du Scénario"]
  examples := ["Exemples"]
  context := ["* ", "Soit ", "Sachant que ", "Sachant qu'", "Sachant ", "Etant donné que ",
    "Etant donné qu'", "Etant donné ", "Etant donnée ", "Etant donnés ", "Etant données ",
    "Étant donné que ", "Étant donné qu'", "Étant donné ", "Étant donnée ", "Étant donnés ",
    "Étant données "]
  action := ["* ", "Quand ", "Lorsque ", "Lorsqu'"]
  outcome := ["* ", "Alors ", "Donc "]
  conjunction := ["* ", "Et que ", "Et qu'", "Et "]
  contrast := ["* ", "Mais que ", "Mais qu'", "Mais "]

def italian : Dialect where
  name := "Italian"
  native := "italiano"
  feature := ["Funzionalità", "Esigenza di Business", "Abilità"]
  rule := ["Regola"]
  background := ["Contesto"]
  scenario := ["Esempio", "Scenario"]
  scenarioOutline := ["Schema dello scenario"]
  examples := ["Esempi"]
  context := ["* ", "Dato ", "Data ", "Dati ", "Date "]
  action := ["* ", "Quando "]
  outcome := ["* ", "Allora "]
  conjunction := ["* ", "E "]
  contrast := ["* ", "Ma "]

def japanese : Dialect where
  name := "Japanese"
  native := "日本語"
  feature := ["フィーチャ", "機能"]
  rule := ["ルール"]
  background := ["背景"]
  scenario := ["シナリオ"]
  scenarioOutline := ["シナリオアウトライン", "シナリオテンプレート", "テンプレ", "シナリオテンプレ"]
  examples := ["例", "サンプル"]
  context := ["* ", "前提"]
  action := ["* ", "もし"]
  outcome := ["* ", "ならば"]
  conjunction := ["* ", "且つ", "かつ"]
  contrast := ["* ", "然し", "しかし", "但し", "ただし"]

def dutch : Dialect where
  name := "Dutch"
  native := "Nederlands"
  feature := ["Functionaliteit"]
  rule := ["Rule", "Regel"]
  background := ["Achtergrond"]
  scenario := ["Voorbeeld", "Scenario"]
  scenarioOutline := ["Abstract Scenario"]
  examples := ["Voorbeelden"]
  context := ["* ", "Gegeven ", "Stel "]
  action := ["* ", "Als ", "Wanneer "]
  outcome := ["* ", "Dan "]
  conjunction := ["* ", "En "]
  contrast := ["* ", "Maar "]

def portuguese : Dialect where
  name := "Portuguese"
  native := "português"
  feature := ["Funcionalidade", "Característica", "Caracteristica"]
  rule := ["Regra"]
  background := ["Contexto", "Cenário de Fundo", "Cenario de Fundo", "Fundo"]
  scenario := ["Exemplo", "Cenário", "Cenario"]
  scenarioOutline := ["Esquema do Cenário", "Esquema do Cenario", "Delineação do Cenário",
    "Delineacao do Cenario"]
  examples := ["Exemplos", "Cenários", "Cenarios"]
  context := ["* ", "Dado ", "Dada ", "Dados ", "Dadas "]
  action := ["* ", "Quando "]
  outcome := ["* ", "Então ", "Entao "]
  conjunction := ["* ", "E "]
  contrast := ["* ", "Mas "]

end Brine.Dialect

namespace Brine
open Dialect

def Table.builtin : Table where
  dialects :=
    [("de", german),
      ("en", english),
      ("es", spanish),
      ("fr", french),
      ("it", italian),
      ("ja", japanese),
      ("nl", dutch),
      ("pt", portuguese)]
  nonempty := by simp

end Brine
