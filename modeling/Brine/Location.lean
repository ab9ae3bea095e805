namespace Brine

/-- A line and a column, both counted from 1; the end of a text has column 0. -/
structure Location where
  line : Nat
  column : Nat
deriving DecidableEq, Repr

def Location.text (l : Location) : String :=
  l.line.repr ++ ":" ++ l.column.repr

end Brine
