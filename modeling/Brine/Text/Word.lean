import Brine.Text.Alphabetic
import Brine.Text.Mark
import Brine.Text.Numeral

namespace Brine.Text

def connectors : Ranges :=
  [(0x5f, 0x5f), (0x203f, 0x2040), (0x2054, 0x2054), (0xfe33, 0xfe34), (0xfe4d, 0xfe4f),
    (0xff3f, 0xff3f)]

def joiners : Ranges :=
  [(0x200c, 0x200d)]

def isDecimalDigit (n : Nat) : Bool :=
  decimalDigits.holds n

def isAlphabetic (n : Nat) : Bool :=
  alphabetic.holds n

def isAlphanumeric (n : Nat) : Bool :=
  isAlphabetic n || decimalDigits.holds n || letterNumerals.holds n || otherNumerals.holds n

def isWord (n : Nat) : Bool :=
  isAlphabetic n || marks.holds n || decimalDigits.holds n || connectors.holds n || joiners.holds n

end Brine.Text
