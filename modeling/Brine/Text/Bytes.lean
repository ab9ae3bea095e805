namespace Brine.Text

def byteSize : List Char → Nat
  | [] => 0
  | c :: rest => c.utf8Size + byteSize rest

def byteOffset (text : List Char) (i : Nat) : Nat :=
  byteSize (text.take i)

end Brine.Text
