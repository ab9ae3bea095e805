namespace Brine

/-- What a step keyword says about its step. A conjunction takes the type of the step before it; a
keyword that is listed under several types says nothing. -/
inductive KeywordType where
  | context
  | action
  | outcome
  | conjunction
  | unknown
deriving DecidableEq, Repr

structure Dialect where
  name : String
  native : String
  feature : List String
  rule : List String
  background : List String
  scenario : List String
  scenarioOutline : List String
  examples : List String
  context : List String
  action : List String
  outcome : List String
  conjunction : List String
  contrast : List String
deriving DecidableEq

namespace Dialect

def addKeyword (type : KeywordType) (keyword : String) :
    List (String × KeywordType) → List (String × KeywordType)
  | [] => [(keyword, type)]
  | (known, t) :: rest =>
    if known = keyword then (known, if t = type then t else .unknown) :: rest
    else (known, t) :: addKeyword type keyword rest

def stepLists (d : Dialect) : List (KeywordType × List String) :=
  [(.context, d.context), (.action, d.action), (.outcome, d.outcome),
    (.conjunction, d.conjunction), (.conjunction, d.contrast)]

def mergedKeywords (d : Dialect) : List (String × KeywordType) :=
  d.stepLists.foldl (fun known (type, keywords) =>
    keywords.foldl (fun known keyword => addKeyword type keyword known) known) []

/-- The step keywords, those with more bytes first, so that the first one a line starts with is the
longest. -/
def stepKeywords (d : Dialect) : List (String × KeywordType) :=
  d.mergedKeywords.mergeSort fun a b => b.1.utf8ByteSize ≤ a.1.utf8ByteSize

end Dialect

end Brine
