/-!
# Decimals of binary floating-point words

A word of a binary interchange format is a sign bit, an exponent field and a
fraction field.  `Binary.ofBits` reads such a word for any field widths.  A
finite value other than zero is `mantissa * 2 ^ exponent` with a whole mantissa.

**Shortest decimals.**  The shortest decimal of a binary value is the decimal with the
fewest digits among those that round to this value and to no other; of several with equally
few digits it is the nearest to the value.  Every binary value has a finite decimal
expansion, so the value and the two ends of the interval that rounds to it are whole numbers
in units of one power of ten.  From the coarsest decimal grid to the finest, the two
neighbours of the value on the grid are tried; the first grid with a neighbour inside the
interval gives the digits.  The finest grid holds the value itself.

**Layouts.**  A layout says how shortest digits are written: how ties between two decimals
are broken, where positional writing gives way to an exponent, and whether a whole number
keeps a fraction part.  Operands use the three layouts given here.
-/

namespace ShapeQuery

namespace Decimal

/-- The field widths of a binary format. -/
structure Format where
  fractionBits : Nat
  exponentBits : Nat

namespace Format

/-- Eight bytes: eleven bits of exponent and 52 of fraction. -/
def double : Format := ⟨52, 11⟩

/-- Four bytes: eight bits of exponent and 23 of fraction. -/
def single : Format := ⟨23, 8⟩

/-- How many values the fraction field has. -/
def fractions (f : Format) : Nat :=
  Nat.pow 2 f.fractionBits

/-- How many values the exponent field has. -/
def exponents (f : Format) : Nat :=
  Nat.pow 2 f.exponentBits

/-- The exponent field that infinities and invalid values carry. -/
def topExponent (f : Format) : Nat :=
  f.exponents - 1

/-- The weight of the lowest fraction bit of the smallest values. -/
def leastExponent (f : Format) : Int :=
  2 - Int.ofNat (f.exponents / 2) - Int.ofNat f.fractionBits

end Format

/-- What a word stands for. -/
inductive Binary
  | invalid
  | infinite (negative : Bool)
  | zero (negative : Bool)
  /-- The value of `mantissa * 2 ^ exponent`; `narrowBelow` says that the gap to
  the next smaller value is half the gap to the next greater one. -/
  | finite (negative : Bool) (mantissa : Nat) (exponent : Int) (narrowBelow : Bool)

/-- Reads a word, given as a number, in a format. -/
def Binary.ofBits (f : Format) (bits : Nat) : Binary :=
  let fraction := bits % f.fractions
  let field := bits / f.fractions % f.exponents
  let negative := bits / f.fractions / f.exponents % 2 == 1
  if field = f.topExponent then
    if fraction = 0 then infinite negative else invalid
  else if field = 0 then
    if fraction = 0 then zero negative
    else finite negative fraction f.leastExponent false
  else
    finite negative (f.fractions + fraction) (f.leastExponent + field - 1)
      (fraction == 0 && field != 1)

/-- Which of two equally near decimals is taken. -/
inductive Tie
  | toEven
  | up
  deriving DecidableEq

/-- A value and the interval that rounds to it, in units of `10 ^ (-places)`. -/
structure Rounding where
  low : Nat
  value : Nat
  high : Nat
  /-- The ends of the interval round to the value too. -/
  closed : Bool
  places : Nat

namespace Rounding

/-- The decimals that round to the value of `mantissa * 2 ^ exponent`. -/
def ofBinary (mantissa : Nat) (exponent : Int) (narrowBelow : Bool) : Rounding :=
  let quarter := exponent - 2
  let scale := if quarter < 0 then Nat.pow 5 (-quarter).toNat else Nat.pow 2 quarter.toNat
  { low := (4 * mantissa - if narrowBelow then 1 else 2) * scale
    value := 4 * mantissa * scale
    high := (4 * mantissa + 2) * scale
    closed := mantissa % 2 == 0
    places := (-quarter).toNat }

/-- A number of units rounds to the value. -/
def holds (r : Rounding) (n : Nat) : Bool :=
  if r.closed then r.low ≤ n && n ≤ r.high else r.low < n && n < r.high

/-- The nearer of the neighbours `n * step` and `(n + 1) * step` of the value. -/
def nearer (r : Rounding) (tie : Tie) (step n : Nat) : Nat :=
  let below := r.value - n * step
  let above := (n + 1) * step - r.value
  if below < above then n
  else if above < below then n + 1
  else match tie with
    | .up => n + 1
    | .toEven => if n % 2 = 0 then n else n + 1

/-- A neighbour of the value on the grid of multiples of `step` that rounds to it. -/
def neighbour? (r : Rounding) (tie : Tie) (step : Nat) : Option Nat :=
  let n := r.value / step
  match r.holds (n * step), r.holds ((n + 1) * step) with
  | true, true => some (r.nearer tie step n)
  | true, false => some n
  | false, true => some (n + 1)
  | false, false => none

/-- The first hit on the grids of `10 ^ e` units, for `e` from the given one down. -/
def shortestFrom (r : Rounding) (tie : Tie) : Nat → Nat × Nat
  | 0 => (r.value, 0)
  | e + 1 =>
    match r.neighbour? tie (Nat.pow 10 (e + 1)) with
    | some n => (n, e + 1)
    | none => r.shortestFrom tie e

end Rounding

/-- Decimal digits `d₁ … dₙ` and the place of the point: `0.d₁…dₙ * 10 ^ point`. -/
structure Digits where
  digits : List Char
  point : Int

/-- The digits without the zeros at their end. -/
def withoutTrailingZeros (digits : List Char) : List Char :=
  (digits.reverse.dropWhile (· == '0')).reverse

/-- The shortest digits of `mantissa * 2 ^ exponent`, for a mantissa above zero. -/
def Digits.shortest (tie : Tie) (mantissa : Nat) (exponent : Int) (narrowBelow : Bool) :
    Digits :=
  let r := Rounding.ofBinary mantissa exponent narrowBelow
  let found := r.shortestFrom tie (Nat.toDigits 10 r.value).length
  let written := Nat.toDigits 10 found.1
  { digits := withoutTrailingZeros written
    point := written.length + found.2 - r.places }

/-- How digits are written. -/
structure Layout where
  tie : Tie
  /-- Positional writing is used for points above the first bound and up to the
  second; without bounds it is always used. -/
  positional : Option (Int × Int)
  /-- What follows the digits of a whole number. -/
  wholeEnd : String

namespace Layout

/-- Eight-byte values held by the caller's own operand. -/
def double : Layout := ⟨.toEven, some (-5, 16), ".0"⟩

/-- Four-byte values held by the caller's own operand. -/
def single : Layout := ⟨.toEven, some (-6, 13), ".0"⟩

/-- Values without an exponent and without an empty fraction part. -/
def plain : Layout := ⟨.up, none, ""⟩

/-- The positional text of digits with the point after the first `point` of them. -/
def writePositional (l : Layout) (d : Digits) : String :=
  if (d.digits.length : Int) ≤ d.point then
    String.ofList (d.digits ++ List.replicate (d.point.toNat - d.digits.length) '0')
      ++ l.wholeEnd
  else if 0 < d.point then
    String.ofList (d.digits.take d.point.toNat) ++ "."
      ++ String.ofList (d.digits.drop d.point.toNat)
  else
    "0." ++ String.ofList (List.replicate (-d.point).toNat '0' ++ d.digits)

/-- One digit before the point, and the power of ten after an `e`. -/
def writeScientific (d : Digits) : String :=
  let mantissa :=
    match d.digits with
    | [] => ""
    | [first] => String.ofList [first]
    | first :: rest => String.ofList (first :: '.' :: rest)
  mantissa ++ "e" ++ (d.point - 1).repr

/-- The text of digits. -/
def write (l : Layout) (d : Digits) : String :=
  match l.positional with
  | none => l.writePositional d
  | some (low, high) =>
    if low < d.point ∧ d.point ≤ high then l.writePositional d else writeScientific d

/-- The sign of a negative value, nothing for any other. -/
def sign (negative : Bool) : String :=
  if negative then "-" else ""

/-- The text of a binary value.  An invalid value has no sign, and zero keeps its own. -/
def render (l : Layout) : Binary → String
  | .invalid => "NaN"
  | .infinite negative => sign negative ++ "inf"
  | .zero negative => sign negative ++ "0" ++ l.wholeEnd
  | .finite negative mantissa exponent narrowBelow =>
      sign negative ++ l.write (Digits.shortest l.tie mantissa exponent narrowBelow)

end Layout

end Decimal

end ShapeQuery
