import TraceFormat.Text.Utf8

/-! # Layout options

The two choices that every kind of field shares: the byte order in which its bits are taken from
the bytes, and the encoding that turns its bytes into text. -/

namespace TraceFormat

/-- The order in which a field takes the bits of the bytes that it covers. -/
inductive ByteOrder where
  /-- The most significant bit of each byte comes first, and the first bits are the highest. -/
  | big
  /-- The least significant bit of each byte comes first, and the first bits are the lowest. -/
  | little
deriving DecidableEq, Repr, Inhabited

/-- The short name of a byte order. -/
def ByteOrder.text : ByteOrder → String
  | .big => "be"
  | .little => "le"

/-- How bytes are read as text. -/
inductive Encoding where
  | utf8
  /-- A byte above 0x7F is no character. -/
  | ascii
  /-- The bytes are not meant as text. -/
  | raw
deriving DecidableEq, Repr, Inhabited

namespace Encoding

/-- The short name of an encoding. -/
def text : Encoding → String
  | .utf8 => "UTF8"
  | .ascii => "ASCII"
  | .raw => "NONE"

/-- The character of one byte in ASCII. -/
def asciiChar (b : UInt8) : Char :=
  if b.toNat < 0x80 then Char.ofNat b.toNat else Text.Utf8.replacement

/-- Reads bytes as text.  What is no text in the encoding becomes U+FFFD. -/
def decode : Encoding → List UInt8 → String
  | .ascii, bytes => String.ofList (bytes.map asciiChar)
  | .utf8, bytes | .raw, bytes => Text.Utf8.decode bytes

end Encoding

end TraceFormat
