import Brine.Text.Ranges

namespace Brine.Text

def blanks : Ranges :=
  [(0x9, 0xd), (0x20, 0x20), (0x85, 0x85), (0xa0, 0xa0), (0x1680, 0x1680), (0x2000, 0x200a),
    (0x2028, 0x2029), (0x202f, 0x202f), (0x205f, 0x205f), (0x3000, 0x3000)]

def isBlank (c : Char) : Bool :=
  blanks.holds c.toNat

def indent (line : List Char) : Nat :=
  (line.takeWhile isBlank).length

def trimStart (line : List Char) : List Char :=
  line.dropWhile isBlank

def trimEnd (line : List Char) : List Char :=
  (line.reverse.dropWhile isBlank).reverse

def trim (line : List Char) : List Char :=
  trimEnd (trimStart line)

/-- What is left of `line` after `start`, if it starts so. -/
def after? : List Char → List Char → Option (List Char)
  | [], line => some line
  | _ :: _, [] => none
  | c :: start, d :: line => if c = d then after? start line else none

end Brine.Text
