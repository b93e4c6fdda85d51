/-! # UTF-8 text

`encode` writes a text as bytes and `decode` reads any bytes as text.  Reading never fails: every
maximal run of bytes that begins a character without finishing it, and every byte that can begin
none, is read as U+FFFD.

The reader takes one byte at a time.  Between two bytes it holds at most one unfinished character
(`Pending`), which knows the range that the next byte has to lie in. -/

namespace TraceFormat.Text.Utf8

/-- The character that stands for bytes that are no text. -/
def replacement : Char := '\uFFFD'

/-- A character of which some bytes are still due. -/
structure Pending where
  /-- The bits gathered so far. -/
  value : Nat
  /-- How many bytes are due after the next one. -/
  after : Nat
  /-- The least value of the next byte. -/
  low : Nat
  /-- The greatest value of the next byte. -/
  high : Nat
deriving DecidableEq, Repr

/-- What a byte means where a character begins. -/
inductive Lead where
  /-- The byte is a character of its own. -/
  | whole (c : Char)
  /-- The byte begins a longer character. -/
  | opening (rest : Pending)
  /-- The byte begins no character. -/
  | stray
deriving DecidableEq, Repr

/-- Classifies the byte that stands first in a character. -/
def lead (b : Nat) : Lead :=
  if b < 0x80 then .whole (Char.ofNat b)
  else if b < 0xC2 then .stray
  else if b < 0xE0 then .opening ⟨b - 0xC0, 0, 0x80, 0xBF⟩
  else if b < 0xF0 then
    .opening ⟨b - 0xE0, 1, if b = 0xE0 then 0xA0 else 0x80, if b = 0xED then 0x9F else 0xBF⟩
  else if b < 0xF5 then
    .opening ⟨b - 0xF0, 2, if b = 0xF0 then 0x90 else 0x80, if b = 0xF4 then 0x8F else 0xBF⟩
  else .stray

/-- Takes a byte where a character begins: the text it completes and what is then unfinished. -/
def start (b : Nat) : List Char × Option Pending :=
  match lead b with
  | .whole c => ([c], none)
  | .opening p => ([], some p)
  | .stray => ([replacement], none)

/-- Takes the next byte of an unfinished character.  A byte out of its range gives the character up
and begins another. -/
def Pending.next (p : Pending) (b : Nat) : List Char × Option Pending :=
  if p.low ≤ b ∧ b ≤ p.high then
    let value := p.value * 64 + b % 64
    match p.after with
    | 0 => ([Char.ofNat value], none)
    | n + 1 => ([], some ⟨value, n, 0x80, 0xBF⟩)
  else
    let (text, rest) := start b
    (replacement :: text, rest)

/-- Reads bytes after an unfinished character, if there is one. -/
def decodeFrom (pending : Option Pending) : List UInt8 → List Char
  | [] => if pending.isSome then [replacement] else []
  | b :: bytes =>
    let (text, rest) :=
      match pending with
      | none => start b.toNat
      | some p => p.next b.toNat
    text ++ decodeFrom rest bytes

/-- The text of some bytes, with U+FFFD where they are no text. -/
def decode (bytes : List UInt8) : String := String.ofList (decodeFrom none bytes)

/-- The bytes of a text. -/
def encode (text : String) : List UInt8 := text.toList.flatMap String.utf8EncodeChar

end TraceFormat.Text.Utf8
