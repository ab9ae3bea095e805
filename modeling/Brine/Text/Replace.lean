namespace Brine.Text

/-- Worker of `replace`: the next `skip` characters belong to an occurrence that has been
replaced. -/
def replaceAfter (old new : List Char) : Nat → List Char → List Char
  | _, [] => []
  | skip + 1, _ :: rest => replaceAfter old new skip rest
  | 0, c :: rest =>
    if old.isPrefixOf (c :: rest) then new ++ replaceAfter old new (old.length - 1) rest
    else c :: replaceAfter old new 0 rest

/-- The text with every occurrence of `old` replaced by `new`. Occurrences are found from left to
right and do not overlap; `old` is not empty. -/
def replace (old new text : List Char) : List Char :=
  replaceAfter old new 0 text

end Brine.Text
