import Brine.Document.Basic
import Brine.Document.Error

namespace Brine

def checkRectangular : List Row → Except Document.Error Unit
  | [] => .ok ()
  | first :: rest =>
    match rest.find? (·.cells.length ≠ first.cells.length) with
    | some row => .error (.raggedTable row.location)
    | none => .ok ()

def DataTable.checkRectangular (t : DataTable) : Except Document.Error Unit :=
  Brine.checkRectangular t.rows

def Examples.checkRectangular (e : Examples) : Except Document.Error Unit :=
  Brine.checkRectangular (e.header.toList ++ e.body)

end Brine
