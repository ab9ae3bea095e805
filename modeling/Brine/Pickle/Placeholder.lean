import Brine.Document.Basic

namespace Brine

abbrev ExampleValues := List (String × String)

namespace ExampleValues

def ofRows (header row : Row) : ExampleValues :=
  (header.cells.map (·.value)).zip (row.cells.map (·.value))

/-- What stands in the place of `<name>`: the value of the first column of that name, or else the
placeholder itself. -/
def fill (values : ExampleValues) (name : List Char) : List Char :=
  match values.lookup (String.ofList name) with
  | some value => value.toList
  | none => '<' :: name ++ ['>']

/-- Fills the placeholders of a text. After an opening bracket `pending` holds the characters since,
last first; they are a name if a closing bracket follows. -/
def substituteFrom (values : ExampleValues) : Option (List Char) → List Char → List Char
  | none, [] => []
  | some pending, [] => '<' :: pending.reverse
  | none, c :: rest =>
    if c = '<' then substituteFrom values (some []) rest else c :: substituteFrom values none rest
  | some pending, c :: rest =>
    if c = '<' then '<' :: pending.reverse ++ substituteFrom values (some []) rest
    else if c = '>' then
      (if pending.isEmpty then ['<', '>'] else values.fill pending.reverse) ++
        substituteFrom values none rest
    else substituteFrom values (some (c :: pending)) rest

/-- The text with its placeholders filled, all at once: values are not looked through again. -/
def substitute (values : ExampleValues) (text : String) : String :=
  String.ofList (values.substituteFrom none text.toList)

end ExampleValues

end Brine
