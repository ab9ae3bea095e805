namespace Brine

/-- A JSON value. Fields stay in order and may repeat. A string whose escapes leave half of a
surrogate pair is still a JSON string, but it has no text. Numbers are not looked at. -/
inductive Json where
  | null
  | bool (value : Bool)
  | number
  | string (text : Option String)
  | array (items : List Json)
  | object (fields : List (Option String × Json))

namespace Json

def text? : Json → Option String
  | string text => text
  | _ => none

def texts? : Json → Option (List String)
  | array items => items.mapM text?
  | _ => none

end Json

end Brine
