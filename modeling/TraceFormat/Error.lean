import TraceFormat.Text.Quoted

/-! # Errors

The causes for which an operation of this library gives up, each with the text that describes it:
reading bits (`ReadError`), writing them (`WriteError`), building a declaration (`BuildError`) and
decoding a value (`DecodeError`). -/

namespace TraceFormat

open Text.Numeral (decimal)

/-- Why bits could not be read. -/
inductive ReadError where
  /-- The region ends before the last bit asked for. -/
  | outOfBounds
  /-- No bit at all or more than 64 were asked for at once. -/
  | badWidth
  /-- Text was asked for inside a byte. -/
  | unaligned
deriving DecidableEq, Repr

def ReadError.message : ReadError → String
  | .outOfBounds => "read past the end of the buffer"
  | .badWidth => "a single read must cover 1 to 64 bits"
  | .unaligned => "cursor is not byte aligned"

/-- Why a value could not be written. -/
inductive WriteError where
  /-- The region ends before the last bit of the value. -/
  | outOfBounds
  /-- No bit at all or more than 64 were given at once. -/
  | badWidth
  /-- Text was given inside a byte. -/
  | unaligned
  /-- The value has no encoding under its declaration. -/
  | invalidValue
deriving DecidableEq, Repr

def WriteError.message : WriteError → String
  | .outOfBounds => "write past the end of the buffer"
  | .badWidth => "a single write must cover 1 to 64 bits"
  | .unaligned => "cursor is not byte aligned"
  | .invalidValue => "value cannot be encoded by its declaration"

/-- Why a declaration could not be built. -/
inductive BuildError where
  /-- Two members have one name. -/
  | duplicateField (name : String)
  /-- A member has no name. -/
  | invalidFieldName
  /-- An integer has no bits or more than 64. -/
  | invalidIntegerLength (length : Nat)
  /-- The parts of a float are too narrow, or together wider than 64 bits. -/
  | invalidFloatLayout
  /-- A range is empty or meets another one. -/
  | overlappingRange (low high : Int) (label : String)
  /-- A name stands for no declaration. -/
  | unknownDeclaration (name : String)
deriving DecidableEq, Repr

def BuildError.message : BuildError → String
  | .duplicateField name => "duplicate field: " ++ name
  | .invalidFieldName => "field names must not be empty"
  | .invalidIntegerLength length => "invalid integer length: " ++ decimal length
  | .invalidFloatLayout => "invalid float layout"
  | .overlappingRange low high label =>
    "range [" ++ decimal low ++ ", " ++ decimal high ++ "] -> " ++ label
      ++ " overlaps an existing range"
  | .unknownDeclaration name => "unknown declaration: " ++ name

/-- What a reference has to be bound to. -/
inductive Expected where
  /-- The number of elements of a sequence. -/
  | integer
  /-- The tag of a variant. -/
  | enum
deriving DecidableEq, Repr

/-- The phrase for what a reference has to be. -/
def Expected.phrase : Expected → String
  | .integer => "an integer"
  | .enum => "an enum"

/-- Why a value could not be decoded. -/
inductive DecodeError where
  /-- Its bits could not be read. -/
  | read (error : ReadError)
  /-- A length or tag is bound in no scope around the value at `scope`. -/
  | unresolvedReference (name scope : String)
  /-- A length or tag is bound to a value of another kind. -/
  | wrongKind (name : String) (expected : Expected)
  /-- A variant names no tag. -/
  | missingTag (variant : String)
  /-- The label of the tag, if it has one, names no member. -/
  | unmatchedTag (variant : String) (label : Option String)
  /-- A length is negative or above the limit. -/
  | invalidLength (name : String) (length : Int)
  /-- A string does not end within the limit. -/
  | stringTooLong (name : String) (max : Nat)
deriving DecidableEq, Repr

/-- A label as it stands in a description. -/
def quoteLabel : Option String → String
  | none => "None"
  | some label => "Some(" ++ Text.quote label ++ ")"

def DecodeError.message : DecodeError → String
  | .read error => error.message
  | .unresolvedReference name scope =>
    "cannot resolve `" ++ name ++ "` from scope `" ++ scope ++ "`"
  | .wrongKind name expected => "`" ++ name ++ "` is not " ++ expected.phrase
  | .missingTag variant => "variant `" ++ variant ++ "` has no tag"
  | .unmatchedTag variant label =>
    "variant `" ++ variant ++ "` has no member for tag label " ++ quoteLabel label
  | .invalidLength name length => "invalid length " ++ decimal length ++ " for `" ++ name ++ "`"
  | .stringTooLong name max => "string `" ++ name ++ "` is longer than " ++ decimal max ++ " bytes"

end TraceFormat
