/-! # Decoding limits

Bounds on what a value may ask for while it is decoded from data that nobody vouches for. -/

namespace TraceFormat

/-- Bounds on the sizes of decoded values. -/
structure Limits where
  /-- The greatest number of elements of a sequence. -/
  maxSequenceLength : Nat
  /-- The greatest number of bytes of a string, its NUL apart; without it a string may go on to the
  end of the region. -/
  maxStringLength : Option Nat
deriving DecidableEq, Repr

namespace Limits

/-- The limits where none are given. -/
def standard : Limits := ⟨1 <<< 20, none⟩

instance : Inhabited Limits := ⟨standard⟩

/-- Whether a sequence may have so many elements. -/
def allowsSequence (limits : Limits) (length : Nat) : Bool := length ≤ limits.maxSequenceLength

end Limits

end TraceFormat
