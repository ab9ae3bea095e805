import Brine.Number.Integer

namespace Brine.Number

/-- A double-precision number. A finite one is `mantissa * 2 ^ exponent` with its sign, where the
mantissa has at most 53 bits, and fewer only at the least exponent `-1074`. -/
inductive Binary64 where
  | nan
  | infinite (negative : Bool)
  | finite (negative : Bool) (mantissa : Nat) (exponent : Int)
deriving DecidableEq, Repr

namespace Binary64

def leastExponent : Int := -1074

def greatestExponent : Int := 971

/-- The least mantissa of 53 bits. -/
def leastNormal : Nat := 0x10000000000000

def signBit : Nat := 0x8000000000000000

def twoTo (n : Nat) : Nat :=
  Nat.pow 2 n

def tenTo (n : Nat) : Nat :=
  Nat.pow 10 n

/-- The 64 bits of the interchange format: sign, eleven bits of exponent, 52 bits of fraction. -/
def toBits : Binary64 → Nat
  | .nan => 0x7ff8000000000000
  | .infinite negative => (if negative then signBit else 0) + 0x7ff0000000000000
  | .finite negative mantissa exponent =>
    (if negative then signBit else 0) +
      if mantissa < leastNormal then mantissa
      else (exponent - leastExponent + 1).toNat * leastNormal + (mantissa - leastNormal)

/-- `num / den` rounded to the nearest whole number, a half to the even neighbour. -/
def roundToEven (num den : Nat) : Nat :=
  let whole := num / den
  let twice := 2 * (num % den)
  if twice < den then whole
  else if den < twice then whole + 1
  else if whole % 2 = 0 then whole else whole + 1

/-- The exponent at which `num / den` has 53 bits before the point. -/
def exponentOf (num den : Nat) : Int :=
  let guess : Int := (num.log2 : Int) - den.log2 - 53
  let bound := guess + 53
  let below := if 0 ≤ bound then num < den * twoTo bound.toNat else num * twoTo (-bound).toNat < den
  if below then guess else guess + 1

/-- The double nearest to the positive number `num / den`, a tie going to the even mantissa. -/
def ofFraction (negative : Bool) (num den : Nat) : Binary64 :=
  let exponent := exponentOf num den
  let exponent := if exponent < leastExponent then leastExponent else exponent
  let rounded :=
    if 0 ≤ exponent then roundToEven num (den * twoTo exponent.toNat)
    else roundToEven (num * twoTo (-exponent).toNat) den
  let (mantissa, exponent) :=
    if rounded = 2 * leastNormal then (leastNormal, exponent + 1) else (rounded, exponent)
  if greatestExponent < exponent then .infinite negative else .finite negative mantissa exponent

/-- The double nearest to `digits * 10 ^ power`. Numbers of more than 310 digits before the point
are infinite and those below `10 ^ -330` are zero, so no larger power is ever computed. -/
def ofDecimal (negative : Bool) (digits : Nat) (power : Int) : Binary64 :=
  let magnitude : Int := (Nat.toDigits 10 digits).length + power
  if digits = 0 ∨ magnitude < -330 then .finite negative 0 leastExponent
  else if 310 < magnitude then .infinite negative
  else if 0 ≤ power then ofFraction negative (digits * tenTo power.toNat) 1
  else ofFraction negative digits (tenTo (-power).toNat)

/-- Why a text is no double. -/
inductive ReadError where
  | empty
  | invalid
deriving DecidableEq, Repr

def ReadError.message : ReadError → String
  | .empty => "cannot parse float from empty string"
  | .invalid => "invalid float literal"

def leadingDigits (text : List Char) : List Nat × List Char :=
  ((text.takeWhile (digit? · |>.isSome)).filterMap digit?, text.dropWhile (digit? · |>.isSome))

def readExponent : List Char → Option Int
  | [] => some 0
  | e :: rest =>
    if e = 'e' ∨ e = 'E' then
      let (negative, rest) :=
        match rest with
        | '+' :: rest => (false, rest)
        | '-' :: rest => (true, rest)
        | rest => (false, rest)
      match leadingDigits rest with
      | (d :: ds, []) =>
        let n : Int := ofDigits 0 (d :: ds)
        some (if negative then -n else n)
      | _ => none
    else none

/-- Digits with an optional point and exponent; there is a digit before or after the point. -/
def readUnsigned (negative : Bool) (text : List Char) : Option Binary64 :=
  let (whole, rest) := leadingDigits text
  let (fraction, rest) :=
    match rest with
    | '.' :: rest => leadingDigits rest
    | rest => ([], rest)
  if whole.isEmpty && fraction.isEmpty then none
  else (readExponent rest).map fun power =>
    ofDecimal negative (ofDigits 0 (whole ++ fraction)) (power - fraction.length)

/-- The names of the numbers that no digits write. -/
def readNamed (negative : Bool) (text : List Char) : Option Binary64 :=
  match String.ofList (text.map Char.toLower) with
  | "inf" | "infinity" => some (.infinite negative)
  | "nan" => some .nan
  | _ => none

def read (text : List Char) : Except ReadError Binary64 :=
  match text with
  | [] => .error .empty
  | first :: rest =>
    let negative := first = '-'
    let body := if first = '-' ∨ first = '+' then rest else text
    match readUnsigned negative body <|> readNamed negative body with
    | some number => .ok number
    | none => .error .invalid

end Binary64

end Brine.Number
