namespace Brine.Text

/-- The lines of a text. A line ends at a newline, together with one carriage return before it; text
after the last newline is a line of its own, kept as it is. -/
def lines : List Char → List (List Char)
  | [] => []
  | '\n' :: rest => [] :: lines rest
  | '\r' :: '\n' :: rest => [] :: lines rest
  | c :: rest =>
    match lines rest with
    | [] => [[c]]
    | line :: more => (c :: line) :: more

end Brine.Text
