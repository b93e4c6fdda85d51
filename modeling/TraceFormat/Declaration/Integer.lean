import TraceFormat.Cursor.Bits

/-! # Integer types

An integer type has 1 to 64 bits.  Its values are kept in 64 bits of storage, which an unsigned
type reads as a number below `2 ^ 64` and a signed one as a two's complement number.  An 8-bit
integer with a text encoding is a character and shows as one. -/

namespace TraceFormat

/-- The layout of an integer and the way in which it is shown. -/
structure IntegerType where
  length : Nat
  signed : Bool
  byteOrder : ByteOrder
  /-- The base in which values are shown. -/
  base : Nat
  encoding : Encoding
  /-- The clock that the values count. -/
  clock : Option String
  /-- The bits of which the position of a value is a multiple. -/
  alignment : Nat
  length_pos : 0 < length
  length_le : length ≤ 64
deriving DecidableEq, Repr

namespace IntegerType

/-- Whole bytes begin at a byte, other integers anywhere. -/
def defaultAlignment (length : Nat) : Nat := if length % 8 = 0 then 8 else 1

/-- A decimal integer without a clock that is no character. -/
def plain (length : Nat) (signed : Bool) (byteOrder : ByteOrder) (h : 0 < length ∧ length ≤ 64) :
    IntegerType :=
  ⟨length, signed, byteOrder, 10, .raw, none, defaultAlignment length, h.1, h.2⟩

/-- The plain integer of a length, if it has from 1 to 64 bits. -/
def build (length : Nat) (signed : Bool) (byteOrder : ByteOrder) : Except BuildError IntegerType :=
  if h : 0 < length ∧ length ≤ 64 then .ok (plain length signed byteOrder h)
  else .error (.invalidIntegerLength length)

def int8 : IntegerType := plain 8 true .big (by decide)

def uint8 : IntegerType := plain 8 false .big (by decide)

def int32 (order : ByteOrder) : IntegerType := plain 32 true order (by decide)

def uint32 (order : ByteOrder) : IntegerType := plain 32 false order (by decide)

def int64 (order : ByteOrder) : IntegerType := plain 64 true order (by decide)

def uint64 (order : ByteOrder) : IntegerType := plain 64 false order (by decide)

/-- Whether values are character codes. -/
def isCharacter (t : IntegerType) : Bool := t.length == 8 && t.encoding != .raw

def minValue (t : IntegerType) : Int :=
  if t.signed then -(1 <<< (t.length - 1) : Nat) else 0

def maxValue (t : IntegerType) : Int :=
  if t.signed then (1 <<< (t.length - 1) : Nat) - 1 else (1 <<< t.length : Nat) - 1

/-- The number that storage holds under the signedness of the type. -/
def value (t : IntegerType) (storage : BitVec 64) : Int :=
  if t.signed then storage.toInt else storage.toNat

/-- The number as a count, unless it is negative. -/
def count? (t : IntegerType) (storage : BitVec 64) : Option Nat :=
  if t.signed ∧ storage.toInt < 0 then none else some storage.toNat

/-- Whether two types lay their bits out alike. -/
def sameLayout (s t : IntegerType) : Bool :=
  s.length == t.length && s.signed == t.signed && s.byteOrder == t.byteOrder
    && s.alignment == t.alignment

def text (t : IntegerType) : String :=
  "[declaration] integer[length=" ++ Text.Numeral.decimal t.length
    ++ ", signed=" ++ (if t.signed then "true" else "false")
    ++ ", base=" ++ Text.Numeral.decimal t.base ++ ", byte_order=" ++ t.byteOrder.text
    ++ ", encoding=" ++ t.encoding.text
    ++ ", alignment=" ++ Text.Numeral.decimal t.alignment ++ "]"

/-- The character that the low byte of storage is the code point of. -/
def character (storage : BitVec 64) : Char := Char.ofNat (storage.toNat % 256)

def valueText (t : IntegerType) (storage : BitVec 64) : String :=
  if t.isCharacter then String.singleton (character storage)
  else Text.Numeral.render storage t.base t.signed

/-- Reads a value at the next position that the type allows. -/
def read (t : IntegerType) : ReadM (BitVec 64) := do
  alignTo t.alignment
  readInt t.length t.signed t.byteOrder

/-- Writes the low bits of storage at the next position that the type allows. -/
def write (t : IntegerType) (storage : BitVec 64) : WriteM Unit := do
  alignTo t.alignment
  writeInt storage t.length t.byteOrder

end IntegerType

end TraceFormat
