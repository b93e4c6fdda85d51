import TraceFormat.Layout

/-! # Descriptors

A descriptor is the description of a declaration as data: every number has a fixed width, what is
optional may be left out, and a declaration may be named instead of described
(`Descriptor.reference`).  Nothing is checked yet; `Descriptor.build` does that. -/

namespace TraceFormat

/-- The description of an integer type. -/
structure IntegerDescriptor where
  length : UInt64
  signed : Bool
  byteOrder : ByteOrder
  base : Option UInt32
  encoding : Option Encoding
  clock : Option String
  alignment : Option UInt64
deriving DecidableEq, Repr

/-- The description of a range of an enumeration. -/
structure RangeDescriptor where
  low : Int64
  high : Int64
  label : String
deriving DecidableEq, Repr

/-- The description of a declaration. -/
inductive Descriptor where
  | integer (integer : IntegerDescriptor)
  | float (exponent mantissa : UInt64) (byteOrder : ByteOrder) (alignment : Option UInt64)
  | string (encoding : Encoding)
  | enum (container : IntegerDescriptor) (ranges : List RangeDescriptor)
  | array (length : UInt64) (element : Descriptor)
  | sequence (lengthName : String) (element : Descriptor)
  | struct (minAlignment : UInt64) (fields : List (String × Descriptor))
  | variant (tag : Option String) (fields : List (String × Descriptor))
  /-- The declaration that a name stands for. -/
  | reference (name : String)
deriving Repr, Inhabited

/-- Induction over descriptors, with a hypothesis for the descriptor of every field. -/
theorem Descriptor.induction {motive : Descriptor → Prop}
    (integer : ∀ i, motive (.integer i)) (float : ∀ e m o a, motive (.float e m o a))
    (string : ∀ e, motive (.string e)) (enum : ∀ c rs, motive (.enum c rs))
    (array : ∀ n d, motive d → motive (.array n d))
    (sequence : ∀ s d, motive d → motive (.sequence s d))
    (struct : ∀ a fs, (∀ f ∈ fs, motive f.2) → motive (.struct a fs))
    (variant : ∀ t fs, (∀ f ∈ fs, motive f.2) → motive (.variant t fs))
    (reference : ∀ s, motive (.reference s)) (d : Descriptor) : motive d :=
  Descriptor.rec (motive_1 := motive) (motive_2 := fun fs => ∀ f ∈ fs, motive f.2)
    (motive_3 := fun f => motive f.2)
    integer float string enum array sequence struct variant reference
    (by simp) (fun _ _ head tail => by simpa using ⟨head, by simpa using tail⟩)
    (fun _ _ h => h) d

/-- The description of a structure. -/
structure StructDescriptor where
  minAlignment : UInt64
  fields : List (String × Descriptor)
deriving Repr, Inhabited

/-- The description of an event. -/
structure EventDescriptor where
  name : Option String
  id : Option UInt64
  header : Option StructDescriptor
  streamContext : Option StructDescriptor
  context : Option StructDescriptor
  fields : Option StructDescriptor
deriving Repr, Inhabited

/-- The description of a stream: named declarations, the context of its packets and its events. -/
structure MetadataDescriptor where
  aliases : List (String × Descriptor)
  packetContext : Option StructDescriptor
  events : List EventDescriptor
deriving Repr, Inhabited

end TraceFormat
