import TraceFormat.Cursor.Basic
import TraceFormat.Layout

/-! # Runs of bits

A run of up to 64 bits is read and written byte by byte: `pieces` cuts it where a byte ends.  In a
big-endian run the first piece is the most significant and lies as high in its byte as its offset
allows; in a little-endian run the first piece is the least significant and lies as low. -/

namespace TraceFormat

/-- The part of one byte that belongs to a run of bits. -/
structure Piece where
  /-- Which byte. -/
  index : Nat
  /-- The bits of the byte before the piece. -/
  offset : Nat
  /-- The bits of the piece. -/
  size : Nat
deriving DecidableEq, Repr

namespace Piece

/-- The number of bits in a run of pieces. -/
def total : List Piece → Nat
  | [] => 0
  | p :: ps => p.size + total ps

/-- How far above the lowest bit of its byte a piece lies. -/
def shift (p : Piece) : ByteOrder → Nat
  | .big => 8 - p.offset - p.size
  | .little => p.offset

/-- The bits of a piece, as a number. -/
def read (order : ByteOrder) (data : Array UInt8) (p : Piece) : Nat :=
  (data.getD p.index 0).toNat >>> p.shift order % 1 <<< p.size

/-- The byte with the `size` bits above `shift` replaced by the low bits of `part`. -/
def patch (byte : Nat) (shift size part : Nat) : Nat :=
  (byte >>> (shift + size)) <<< (shift + size) ||| (part % 1 <<< size) <<< shift
    ||| byte % 1 <<< shift

/-- Replaces the bits of a piece by the low bits of `part`. -/
def write (order : ByteOrder) (data : Array UInt8) (p : Piece) (part : Nat) : Array UInt8 :=
  data.setIfInBounds p.index
    (UInt8.ofNat (patch (data.getD p.index 0).toNat (p.shift order) p.size part))

end Piece

/-- The pieces of the `n` bits from a position on, in order. -/
def pieces (position n : Nat) : List Piece :=
  if n = 0 then []
  else
    let size := min (8 - position % 8) n
    ⟨position / 8, position % 8, size⟩ :: pieces (position + size) (n - size)
termination_by n

/-- The number that a run of pieces holds. -/
def joinPieces (order : ByteOrder) (data : Array UInt8) : List Piece → Nat
  | [] => 0
  | p :: ps =>
    match order with
    | .big => p.read order data <<< Piece.total ps ||| joinPieces order data ps
    | .little => p.read order data ||| joinPieces order data ps <<< p.size

/-- Puts the low bits of a number into a run of pieces. -/
def splitPieces (order : ByteOrder) (value : Nat) (data : Array UInt8) : List Piece → Array UInt8
  | [] => data
  | p :: ps =>
    match order with
    | .big =>
      splitPieces order value (p.write order data (value >>> Piece.total ps)) ps
    | .little => splitPieces order (value >>> p.size) (p.write order data value) ps

/-- Refuses a run of bits that has no width, is wider than 64 bits or leaves the region. -/
def Cursor.checkSpan (c : Cursor) (n : Nat) : Except ReadError Unit :=
  if n = 0 ∨ 64 < n then .error .badWidth
  else if c.capacity < c.position + n then .error .outOfBounds
  else .ok ()

/-- Reads `n` bits as an unsigned number. -/
def readBits (n : Nat) (order : ByteOrder) : ReadM Nat := fun c =>
  match c.checkSpan n with
  | .error e => .error e c
  | .ok () =>
    .ok (joinPieces order c.data (pieces c.position n)) { c with position := c.position + n }

/-- The `n` low bits of a number in 64 bits of storage, filled up with the highest of them when
`signed`. -/
def toStorage (n : Nat) (signed : Bool) (value : Nat) : BitVec 64 :=
  if signed then (BitVec.ofNat n value).signExtend 64 else BitVec.ofNat 64 value

/-- Reads an `n`-bit number into 64 bits of storage. -/
def readInt (n : Nat) (signed : Bool) (order : ByteOrder) : ReadM (BitVec 64) :=
  toStorage n signed <$> readBits n order

/-- Writes the `n` low bits of a number. -/
def writeBits (value n : Nat) (order : ByteOrder) : WriteM Unit := fun c =>
  match c.checkSpan n with
  | .error .badWidth => .error .badWidth c
  | .error _ => .error .outOfBounds c
  | .ok () =>
    .ok () ⟨splitPieces order value c.data (pieces c.position n), c.position + n⟩

/-- Writes the `n` low bits of storage. -/
def writeInt (value : BitVec 64) (n : Nat) (order : ByteOrder) : WriteM Unit :=
  writeBits value.toNat n order

end TraceFormat
