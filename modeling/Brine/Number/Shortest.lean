import Brine.Number.Binary64

namespace Brine.Number.Binary64

/-- A positive double as a fraction, with the ends of the interval of numbers that round to it, all
three over one denominator. Below a power of two the interval is half as wide, except at the least
exponent. -/
structure Interval where
  low : Nat
  value : Nat
  high : Nat
  den : Nat
  /-- Whether the ends themselves round to the number, as they do for an even mantissa. -/
  closed : Bool

def interval (mantissa : Nat) (exponent : Int) : Interval :=
  let scale := twoTo exponent.toNat
  let below := if mantissa = leastNormal ∧ leastExponent < exponent then 1 else 2
  { low := (4 * mantissa - below) * scale
    value := 4 * mantissa * scale
    high := (4 * mantissa + 2) * scale
    den := 4 * twoTo (-exponent).toNat
    closed := mantissa % 2 = 0 }

/-- A decimal number `digits * 10 ^ power`. -/
structure Decimal where
  digits : Nat
  power : Int

def Decimal.fraction (d : Decimal) : Nat × Nat :=
  (d.digits * tenTo d.power.toNat, tenTo (-d.power).toNat)

def Interval.contains (i : Interval) (d : Decimal) : Bool :=
  let (num, den) := d.fraction
  if i.closed then i.low * den ≤ num * i.den && num * i.den ≤ i.high * den
  else i.low * den < num * i.den && num * i.den < i.high * den

def Interval.leadingPower (i : Interval) : Int :=
  if i.den ≤ i.value then (Nat.toDigits 10 (i.value / i.den)).length - 1
  else -((Nat.toDigits 10 ((i.den + i.value - 1) / i.value - 1)).length : Int)

/-- The decimal of `count` digits in the interval that is nearest to the value, if there is one: one
of the two neighbours of the value on the grid of such decimals, the upper one when the value stands
halfway between them. -/
def Interval.withDigits (i : Interval) (count : Nat) : Option Decimal :=
  let power := i.leadingPower + 1 - count
  let down := i.value * tenTo (-power).toNat / (i.den * tenTo power.toNat)
  let lower : Decimal := ⟨down, power⟩
  let upper : Decimal := ⟨down + 1, power⟩
  match i.contains lower, i.contains upper with
  | true, true =>
    let remainder := i.value * tenTo (-power).toNat % (i.den * tenTo power.toNat)
    some (if 2 * remainder < i.den * tenTo power.toNat then lower else upper)
  | true, false => some lower
  | false, true => some upper
  | false, false => none

/-- The shortest decimal that reads back; seventeen digits always do. -/
def Interval.shortest (i : Interval) : Decimal :=
  ((List.range 17).findSome? fun n => i.withDigits (n + 1)).getD ⟨0, 0⟩

/-- Positional text without an exponent: a point only in front of a fraction, and no zero at the end
of a fraction. -/
def Decimal.render (d : Decimal) : String :=
  let digits := Nat.toDigits 10 d.digits
  let places := (-d.power).toNat
  if places = 0 then String.ofList (digits ++ List.replicate d.power.toNat '0')
  else
    let padded := List.replicate (places + 1 - digits.length) '0' ++ digits
    let fraction := (padded.drop (padded.length - places)).reverse.dropWhile (· = '0') |>.reverse
    let whole := padded.take (padded.length - places)
    String.ofList (if fraction.isEmpty then whole else whole ++ '.' :: fraction)

def render : Binary64 → String
  | .nan => "NaN"
  | .infinite negative => if negative then "-inf" else "inf"
  | .finite negative mantissa exponent =>
    let digits := if mantissa = 0 then "0" else (interval mantissa exponent).shortest.render
    if negative then "-" ++ digits else digits

end Brine.Number.Binary64
