namespace Brine

structure IdSource where
  stem : String := ""
  next : Nat := 0
deriving DecidableEq, Repr

/-- The greatest number of an identifier; from there on it repeats. -/
def IdSource.greatest : Nat := 0xffffffffffffffff

def IdSource.draw (s : IdSource) : String × IdSource :=
  (s.stem ++ s.next.repr, { s with next := min (s.next + 1) IdSource.greatest })

end Brine
