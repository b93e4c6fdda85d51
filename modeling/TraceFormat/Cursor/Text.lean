import TraceFormat.Cursor.Basic
import TraceFormat.Layout

/-! # Text at a cursor

A text is a run of bytes up to a NUL, which belongs to it, or up to the end of the region.  A limit
counts the bytes before the NUL: a text of just so many bytes and a NUL is still whole. -/

namespace TraceFormat

/-- What a text ends with. -/
inductive TextEnd where
  /-- A NUL, which the cursor has passed. -/
  | terminator
  /-- The limit, with more text behind it. -/
  | limit
  /-- The end of the region. -/
  | endOfRegion
deriving DecidableEq, Repr

/-- The bytes of a text, how many bytes it takes and what it ends with. -/
structure TextSpan where
  bytes : List UInt8
  length : Nat
  stop : TextEnd
deriving DecidableEq, Repr

/-- A text of which nothing is cut off: `body` is all that stands before the first NUL of `rest`. -/
def TextSpan.whole (body rest : List UInt8) : TextSpan :=
  if body.length < rest.length then ⟨body, body.length + 1, .terminator⟩
  else ⟨body, body.length, .endOfRegion⟩

/-- The text that `rest` begins with. -/
def TextSpan.ofBytes (limit : Option Nat) (rest : List UInt8) : TextSpan :=
  let body := rest.takeWhile (· != 0)
  match limit with
  | none => whole body rest
  | some max => if max < body.length then ⟨rest.take max, max, .limit⟩ else whole body rest

/-- Reads a text and what it ends with. -/
def readTextUntil (limit : Option Nat) (encoding : Encoding) : ReadM (String × TextEnd) := fun c =>
  if c.position % 8 ≠ 0 then .error .unaligned c
  else if c.data.size ≤ c.position / 8 then .error .outOfBounds c
  else
    let span := TextSpan.ofBytes limit (c.data.toList.drop (c.position / 8))
    .ok (encoding.decode span.bytes, span.stop)
      { c with position := c.position + span.length * 8 }

/-- Reads a text. -/
def readText (limit : Option Nat) (encoding : Encoding) : ReadM String :=
  Prod.fst <$> readTextUntil limit encoding

/-- The bytes with those from `start` on replaced by `bytes`. -/
def overwrite (data : Array UInt8) (start : Nat) (bytes : List UInt8) : Array UInt8 :=
  (data.toList.take start ++ bytes ++ data.toList.drop (start + bytes.length)).toArray

/-- Writes a text and a NUL. -/
def writeText (text : String) : WriteM Unit := fun c =>
  let bytes := Text.Utf8.encode text
  let start := c.position / 8
  let stop := start + bytes.length + 1
  if c.position % 8 ≠ 0 then .error .unaligned c
  else if bytes.contains 0 then .error .invalidValue c
  else if c.data.size < stop then .error .outOfBounds c
  else .ok () ⟨overwrite c.data start (bytes ++ [0]), stop * 8⟩

end TraceFormat
