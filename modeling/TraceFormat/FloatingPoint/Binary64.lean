import TraceFormat.FloatingPoint.Format

/-! # 64-bit floating-point values

A value is its bit pattern, so that two values which are no number can still be told apart.
Comparison with `Binary64.eq` is numerical: the two zeros are equal, and what is no number differs
from everything, itself included.

`ofFields` evaluates a word of any layout as a chain of operations in this format, each rounded on
its own.  Powers of two reach it through `PowerOfTwo`, in which a power that is too large is
infinite and one that is too small is zero. -/

namespace TraceFormat.FloatingPoint

/-- A value of the 64-bit format. -/
structure Binary64 where
  bits : BitVec 64
deriving DecidableEq, Repr, Inhabited

namespace Binary64

/-- The value with a given pattern, of which the low 64 bits count. -/
def ofNat (word : Nat) : Binary64 := ⟨BitVec.ofNat 64 word⟩

/-- The pattern as a number. -/
def toNat (x : Binary64) : Nat := x.bits.toNat

def isNaN (x : Binary64) : Bool := binary64.isNaN x.toNat

def isInfinite (x : Binary64) : Bool := binary64.isInfinite x.toNat

def isNegative (x : Binary64) : Bool := binary64.isNegative x.toNat

/-- The size of a finite value. -/
def magnitude (x : Binary64) : Dyadic := binary64.magnitude x.toNat

/-- Whether the value is one of the two zeros. -/
def isZero (x : Binary64) : Bool := x.toNat % 1 <<< 63 == 0

/-- Numerical equality. -/
def eq (x y : Binary64) : Bool :=
  !x.isNaN && !y.isNaN && (x == y || (x.isZero && y.isZero))

/-- The value of a 32-bit word. -/
def ofBinary32 (word : Nat) : Binary64 := ofNat (binary32.convert binary64 word)

/-- The nearest 32-bit word. -/
def toBinary32 (x : Binary64) : Nat := binary64.convert binary32 x.toNat

end Binary64

/-- A power of two as this arithmetic has it. -/
inductive PowerOfTwo where
  | zero
  | finite (exponent : Int)
  | infinite
deriving DecidableEq, Repr

/-- The power of two with a given exponent, of which the low 32 bits count as a signed number. -/
def powerOfTwo (exponent : Int) : PowerOfTwo :=
  let k := exponent.bmod (1 <<< 32)
  if k < -1023 then .zero else if 1023 < k then .infinite else .finite k

/-- The magnitude of a product with a power of two.  The product of zero and infinity is no
number. -/
def scaleMagnitude (x : Dyadic) : PowerOfTwo → Nat
  | .zero => 0
  | .finite k => binary64.round (x.scale k)
  | .infinite => if x.mantissa = 0 then binary64.infinity + 1 <<< 51 else binary64.infinity

/-- The value of a word that has one sign bit, then `exponentBits` bits of a biased exponent and
then `fractionBits` bits of a fraction. -/
def Binary64.ofFields (exponentBits fractionBits word : Nat) : Binary64 :=
  let layout : Format := ⟨exponentBits, fractionBits + 1⟩
  let biased := layout.exponentField word
  let bias : Int := (1 <<< (exponentBits - 1) : Nat) - 1
  let fraction :=
    (binary64.magnitude (binary64.round (.ofNat (layout.fractionField word)))).scale (-fractionBits)
  .ofNat <| binary64.withSign (layout.isNegative word) <|
    if biased = layout.exponentMax then
      if layout.fractionField word = 0 then binary64.infinity else binary64.infinity + 1 <<< 51
    else if biased = 0 then scaleMagnitude fraction (powerOfTwo (1 - bias))
    else
      let significand := binary64.magnitude (binary64.round (fraction.add (.ofNat 1)))
      scaleMagnitude significand (powerOfTwo (biased - bias))

end TraceFormat.FloatingPoint
