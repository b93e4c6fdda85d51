import TraceFormat.Descriptor.Basic
import TraceFormat.Declaration.Basic
import Std.Data.TreeMap

/-! # Building declarations

A descriptor is built into the declaration that it describes, or refused for its first part that
describes none: a field's declaration counts before its name.  Names of declarations are looked up
in a table (`Aliases`). -/

namespace TraceFormat

/-- Declarations by name. -/
abbrev Aliases := Std.TreeMap String Declaration

def IntegerDescriptor.build (d : IntegerDescriptor) : Except BuildError IntegerType := do
  let t ← IntegerType.build d.length.toNat d.signed d.byteOrder
  return { t with
    base := (d.base.map UInt32.toNat).getD t.base
    encoding := d.encoding.getD t.encoding
    clock := d.clock
    alignment := (d.alignment.map UInt64.toNat).getD t.alignment }

/-- Adds the ranges of an enumeration in order. -/
def buildRanges (t : EnumType) : List RangeDescriptor → Except BuildError EnumType
  | [] => .ok t
  | r :: ranges => do
    let t ← t.insert r.low.toInt r.high.toInt r.label
    buildRanges t ranges

namespace Descriptor

mutual

def build (aliases : Aliases) : Descriptor → Except BuildError Declaration
  | .integer d => return .integer (← d.build)
  | .float exponent mantissa byteOrder alignment => do
    let t ← FloatType.build exponent.toNat mantissa.toNat byteOrder
      ((alignment.map UInt64.toNat).getD 8)
    return .float t
  | .string encoding => return .string encoding
  | .enum container ranges => do
    let t ← container.build
    return .enum (← buildRanges (.empty t) ranges)
  | .array length element => return .array length.toNat (← build aliases element)
  | .sequence lengthName element => return .sequence lengthName (← build aliases element)
  | .struct minAlignment fields =>
    return .struct minAlignment.toNat (← buildMembers aliases [] fields)
  | .variant tag fields => return .variant tag (← buildMembers aliases [] fields)
  | .reference name =>
    match aliases[name]? with
    | some d => .ok d
    | none => .error (.unknownDeclaration name)

/-- Builds fields in order and adds them to the members that there are. -/
def buildMembers (aliases : Aliases) (members : Members) :
    List (String × Descriptor) → Except BuildError Members
  | [] => .ok members
  | (name, field) :: fields => do
    let d ← build aliases field
    let members ← members.insert name d
    buildMembers aliases members fields

end

end Descriptor

def StructDescriptor.build (aliases : Aliases) (d : StructDescriptor) :
    Except BuildError StructType := do
  return ⟨d.minAlignment.toNat, ← Descriptor.buildMembers aliases [] d.fields⟩

end TraceFormat
