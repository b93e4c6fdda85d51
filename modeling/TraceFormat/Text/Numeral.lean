/-! # Numerals

The text of a number in any base from 2 to 36, with lower-case letters after the nine.  `render`
shows 64 bits of storage, read with or without a sign, and `decimal` a number as it is. -/

namespace TraceFormat.Text.Numeral

/-- The digits of `n` in `base`, the highest first.  A base below two has one digit. -/
def digits (base n : Nat) : List Nat :=
  if n < base ∨ base < 2 then [n] else digits base (n / base) ++ [n % base]
termination_by n
decreasing_by exact Nat.div_lt_self (by omega) (by omega)

/-- The character of a digit below 36. -/
def digitChar (d : Nat) : Char := Char.ofNat (if d < 10 then 48 + d else 87 + d)

/-- The text of `n` in `base`. -/
def natText (base n : Nat) : String := String.ofList ((digits base n).map digitChar)

/-- The nearest base that has digits. -/
def clampBase (base : Nat) : Nat := min 36 (max 2 base)

/-- The text of stored bits.  With `signed` they are a two's complement number and a negative one
begins with a minus; without it they are a number below `2 ^ 64`. -/
def render (value : BitVec 64) (base : Nat) (signed : Bool) : String :=
  if signed ∧ value.toInt < 0 then "-" ++ natText (clampBase base) value.toInt.natAbs
  else natText (clampBase base) value.toNat

/-- The decimal text of a number. -/
def decimal (n : Int) : String :=
  if n < 0 then "-" ++ natText 10 n.natAbs else natText 10 n.natAbs

end TraceFormat.Text.Numeral
