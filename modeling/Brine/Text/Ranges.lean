namespace Brine.Text

/-- Ranges of code points, both ends included, disjoint and in ascending order. -/
abbrev Ranges := List (Nat × Nat)

def Ranges.holds : Ranges → Nat → Bool
  | [], _ => false
  | (low, high) :: rest, n => if n < low then false else n ≤ high || Ranges.holds rest n

end Brine.Text
