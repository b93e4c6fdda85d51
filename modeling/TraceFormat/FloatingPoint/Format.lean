/-! # Binary floating point

A binary interchange format (`Format`) fixes how many bits of a word hold the exponent and how many
digits a significand has.  A nonnegative finite number is an exact `Dyadic`, and `Format.round`
gives the magnitude in a format that is nearest to it: a tie goes to the even neighbour, and a
number past the largest finite one becomes the infinity. -/

namespace TraceFormat.FloatingPoint

/-- The exact number `mantissa * 2 ^ exponent`. -/
structure Dyadic where
  mantissa : Nat
  exponent : Int
deriving DecidableEq, Repr

namespace Dyadic

def ofNat (n : Nat) : Dyadic := ⟨n, 0⟩

/-- The number times `2 ^ k`. -/
def scale (x : Dyadic) (k : Int) : Dyadic := ⟨x.mantissa, x.exponent + k⟩

def add (x y : Dyadic) : Dyadic :=
  let low := min x.exponent y.exponent
  ⟨x.mantissa <<< (x.exponent - low).toNat + y.mantissa <<< (y.exponent - low).toNat, low⟩

end Dyadic

/-- `n / 2 ^ d` to the nearest integer, a half to the even one. -/
def shiftRoundEven (n d : Nat) : Nat :=
  let quotient := n >>> d
  let twice := 2 * (n % 1 <<< d)
  if 1 <<< d < twice ∨ (twice = 1 <<< d ∧ quotient % 2 = 1) then quotient + 1 else quotient

/-- A binary interchange format. -/
structure Format where
  /-- The width of the exponent field. -/
  exponentBits : Nat
  /-- The digits of a normal significand, the leading one included. -/
  precision : Nat
deriving DecidableEq, Repr

def binary32 : Format := ⟨8, 24⟩

def binary64 : Format := ⟨11, 53⟩

namespace Format

/-- The width of the fraction field. -/
def fractionBits (f : Format) : Nat := f.precision - 1

/-- The exponent field of infinities and of what is no number. -/
def exponentMax (f : Format) : Nat := 1 <<< f.exponentBits - 1

/-- The exponent of the last place of the smallest numbers. -/
def minExponent (f : Format) : Int :=
  3 - (1 <<< (f.exponentBits - 1) : Nat) - f.precision

/-- The magnitude of the infinity. -/
def infinity (f : Format) : Nat := f.exponentMax <<< f.fractionBits

/-- The exponent field of a word. -/
def exponentField (f : Format) (word : Nat) : Nat :=
  word >>> f.fractionBits % 1 <<< f.exponentBits

/-- The fraction field of a word. -/
def fractionField (f : Format) (word : Nat) : Nat := word % 1 <<< f.fractionBits

/-- The sign bit of a word. -/
def isNegative (f : Format) (word : Nat) : Bool :=
  word >>> (f.fractionBits + f.exponentBits) % 2 == 1

/-- The word with a sign and the other fields together. -/
def withSign (f : Format) (negative : Bool) (magnitude : Nat) : Nat :=
  if negative then 1 <<< (f.fractionBits + f.exponentBits) + magnitude else magnitude

def isNaN (f : Format) (word : Nat) : Bool :=
  f.exponentField word == f.exponentMax && f.fractionField word != 0

def isInfinite (f : Format) (word : Nat) : Bool :=
  f.exponentField word == f.exponentMax && f.fractionField word == 0

/-- The size of the finite number that a word stands for. -/
def magnitude (f : Format) (word : Nat) : Dyadic :=
  let fraction := f.fractionField word
  match f.exponentField word with
  | 0 => ⟨fraction, f.minExponent⟩
  | e + 1 => ⟨1 <<< f.fractionBits + fraction, f.minExponent + e⟩

/-- The magnitude nearest to a number, without a sign. -/
def round (f : Format) (x : Dyadic) : Nat :=
  if x.mantissa = 0 then 0
  else
    let place := max f.minExponent (x.exponent + (x.mantissa.log2 + 1) - f.precision)
    let significand :=
      if place ≤ x.exponent then x.mantissa <<< (x.exponent - place).toNat
      else shiftRoundEven x.mantissa (place - x.exponent).toNat
    min f.infinity ((place - f.minExponent).toNat <<< f.fractionBits + significand)

/-- Carries a word from one format to another.  Numbers are rounded; a word that is no number keeps
its sign and the leading bits of its fraction, of which the first is set. -/
def convert (source target : Format) (word : Nat) : Nat :=
  target.withSign (source.isNegative word) <|
    if source.exponentField word = source.exponentMax then
      let fraction := source.fractionField word
      if fraction = 0 then target.infinity
      else
        let kept := fraction <<< target.fractionBits >>> source.fractionBits
        target.infinity + (kept ||| 1 <<< (target.fractionBits - 1))
    else target.round (source.magnitude word)

end Format

end TraceFormat.FloatingPoint
