namespace Brine.Number

/-- The value of a decimal digit `0` to `9`. -/
def digit? (c : Char) : Option Nat :=
  if '0' ≤ c && c ≤ '9' then some (c.toNat - '0'.toNat) else none

def ofDigits (before : Nat) (digits : List Nat) : Nat :=
  digits.foldl (fun n d => 10 * n + d) before

def leastInteger : Int := -0x8000000000000000

def greatestInteger : Int := 0x7fffffffffffffff

/-- Why a text is no 64-bit integer. -/
inductive IntegerError where
  | empty
  | invalidDigit
  | tooLarge
  | tooSmall
deriving DecidableEq, Repr

def IntegerError.message : IntegerError → String
  | .empty => "cannot parse integer from empty string"
  | .invalidDigit => "invalid digit found in string"
  | .tooLarge => "number too large to fit in target type"
  | .tooSmall => "number too small to fit in target type"

/-- Reads digits after `sofar`, moving away from zero in the direction of the sign. The first
character that is no digit, or that leaves the range, ends the reading. -/
def readDigits (negative : Bool) : Int → List Char → Except IntegerError Int
  | sofar, [] => .ok sofar
  | sofar, c :: rest =>
    match digit? c with
    | none => .error .invalidDigit
    | some d =>
      let next := if negative then 10 * sofar - d else 10 * sofar + d
      if next < leastInteger then .error .tooSmall
      else if greatestInteger < next then .error .tooLarge
      else readDigits negative next rest

def readInteger : List Char → Except IntegerError Int
  | [] => .error .empty
  | ['+'] => .error .invalidDigit
  | ['-'] => .error .invalidDigit
  | '+' :: digits => readDigits false 0 digits
  | '-' :: digits => readDigits true 0 digits
  | digits => readDigits false 0 digits

end Brine.Number
