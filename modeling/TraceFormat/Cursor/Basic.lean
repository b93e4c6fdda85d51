import TraceFormat.Error

/-! # Cursors

A cursor is a region of bytes and a position in it, counted in bits.  Reading and writing are
actions on a cursor (`ReadM`, `WriteM`) that keep it also when they fail, so that an action says
what has happened to the cursor in either case.

`Cursor.alignTo` may carry the position past the end of the region; every read and write there
fails.

Positions are natural numbers and have no upper limit.  A machine holds them in words of 64 bits,
and while it checks the sum before it reads or writes, it aligns without a check.  The position is
the same there as long as it fits into a word (`Cursor.alignTo_eq_words_iff`); the overflow of a
greater one has no counterpart here. -/

namespace TraceFormat

/-- A position in a region of bytes. -/
structure Cursor where
  data : Array UInt8
  /-- The number of bits before the cursor. -/
  position : Nat
deriving DecidableEq, Repr, Inhabited

/-- An action that reads at a cursor. -/
abbrev ReadM := EStateM ReadError Cursor

/-- An action that writes at a cursor. -/
abbrev WriteM := EStateM WriteError Cursor

/-- The least multiple of `unit` that is not below `position`; where `unit` is zero, `position`
itself. -/
def alignUp (position unit : Nat) : Nat := position + (unit - position % unit) % unit

namespace Cursor

/-- A cursor at the first bit of a region. -/
def ofData (data : Array UInt8) : Cursor := ⟨data, 0⟩

/-- The number of bits in the region. -/
def capacity (c : Cursor) : Nat := c.data.size * 8

/-- The number of bits after the cursor. -/
def remaining (c : Cursor) : Nat := c.capacity - c.position

/-- Moves to the next multiple of `unit` bits. -/
def alignTo (unit : Nat) (c : Cursor) : Cursor := { c with position := alignUp c.position unit }

end Cursor

/-- Moves to a position, which may be the end of the region but not beyond it. -/
def setPosition (position : Nat) : ReadM Unit := fun c =>
  if c.capacity < position then .error .outOfBounds c else .ok () { c with position }

/-- Moves over `n` bits of the region. -/
def skipBits (n : Nat) : ReadM Unit := fun c =>
  if c.remaining < n then .error .outOfBounds c else .ok () { c with position := c.position + n }

/-- Moves to the next multiple of `unit` bits. -/
def alignTo {ε : Type} (unit : Nat) : EStateM ε Cursor Unit := fun c => .ok () (c.alignTo unit)

end TraceFormat
