import TraceFormat.Cursor.Bits
import TraceFormat.FloatingPoint.Shortest

/-! # Floating-point types

A floating-point type is described by the width of its exponent and the number of digits of its
mantissa, the leading one included; the sign takes the bit that the leading digit leaves free.
Every layout can be read, but only the two standard ones can be written. -/

namespace TraceFormat

open TraceFormat.FloatingPoint (Binary64)

/-- The layout of a floating-point number. -/
structure FloatType where
  exponent : Nat
  mantissa : Nat
  byteOrder : ByteOrder
  alignment : Nat
  two_le_exponent : 2 ≤ exponent
  one_le_mantissa : 1 ≤ mantissa
  length_le : exponent + mantissa ≤ 64
deriving DecidableEq, Repr

namespace FloatType

/-- The type with the given widths, if they fit in 64 bits. -/
def build (exponent mantissa : Nat) (byteOrder : ByteOrder) (alignment : Nat) :
    Except BuildError FloatType :=
  if h : 2 ≤ exponent ∧ 1 ≤ mantissa ∧ exponent + mantissa ≤ 64 then
    .ok ⟨exponent, mantissa, byteOrder, alignment, h.1, h.2.1, h.2.2⟩
  else .error .invalidFloatLayout

/-- The standard type of 32 bits. -/
def binary32 (order : ByteOrder) : FloatType :=
  ⟨8, 24, order, 8, by decide, by decide, by decide⟩

/-- The standard type of 64 bits. -/
def binary64 (order : ByteOrder) : FloatType :=
  ⟨11, 53, order, 8, by decide, by decide, by decide⟩

/-- The number of bits of a value. -/
def length (t : FloatType) : Nat := t.exponent + t.mantissa

def text (t : FloatType) : String :=
  "[declaration] float[exponent=" ++ Text.Numeral.decimal t.exponent
    ++ ", mantissa=" ++ Text.Numeral.decimal t.mantissa ++ ", byte_order=" ++ t.byteOrder.text
    ++ ", alignment=" ++ Text.Numeral.decimal t.alignment ++ "]"

/-- The layouts that are converted as a whole. -/
inductive Standard where
  | binary32
  | binary64
deriving DecidableEq, Repr

/-- The standard layout of a type, if it has one. -/
def standard? (t : FloatType) : Option Standard :=
  if t.exponent = 8 ∧ t.mantissa = 24 then some .binary32
  else if t.exponent = 11 ∧ t.mantissa = 53 then some .binary64
  else none

/-- The value of a word of the type. -/
def decode (t : FloatType) (word : Nat) : Binary64 :=
  match t.standard? with
  | some .binary32 => .ofBinary32 word
  | some .binary64 => .ofNat word
  | none => .ofFields t.exponent (t.mantissa - 1) word

/-- Reads a value at the next position that the type allows. -/
def read (t : FloatType) : ReadM Binary64 := do
  alignTo t.alignment
  t.decode <$> readBits t.length t.byteOrder

/-- Writes a value at the next position that the type allows, if the layout is standard. -/
def write (t : FloatType) (value : Binary64) : WriteM Unit :=
  match t.standard? with
  | some .binary32 => do
    alignTo t.alignment
    writeBits value.toBinary32 32 t.byteOrder
  | some .binary64 => do
    alignTo t.alignment
    writeBits value.toNat 64 t.byteOrder
  | none => throw .invalidValue

end FloatType

end TraceFormat
