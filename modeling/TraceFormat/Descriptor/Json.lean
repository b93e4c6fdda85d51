import TraceFormat.Descriptor.Basic
import TraceFormat.Json

/-! # Descriptors as JSON

A descriptor is read from a tagged record whose `type` says what it describes, and written as one
with all of its slots.  Members that belong to no slot are passed over.

`Descriptor.read` takes the depth down to which it may look; `Descriptor.ofJson?` gives it that of
the whole value. -/

namespace TraceFormat

/-! ### Layout options -/

/-- The constant for a byte order. -/
def ByteOrder.constant : ByteOrder → String
  | .big => "BigEndian"
  | .little => "LittleEndian"

/-- The byte order that a constant stands for. -/
def ByteOrder.ofConstant? (name : String) : Option ByteOrder :=
  [ByteOrder.big, .little].find? (·.constant = name)

def ByteOrder.ofJson? (inside : Bool) (j : Json) : Option ByteOrder :=
  (j.constant? inside).bind ofConstant?

def ByteOrder.toJson (order : ByteOrder) : Json := .string order.constant

/-- The constant for an encoding. -/
def Encoding.constant : Encoding → String
  | .utf8 => "Utf8"
  | .ascii => "Ascii"
  | .raw => "None"

/-- The encoding that a constant stands for. -/
def Encoding.ofConstant? (name : String) : Option Encoding :=
  [Encoding.utf8, .ascii, .raw].find? (·.constant = name)

def Encoding.ofJson? (inside : Bool) (j : Json) : Option Encoding :=
  (j.constant? inside).bind ofConstant?

def Encoding.toJson (encoding : Encoding) : Json := .string encoding.constant

/-! ### Integers and ranges -/

/-- Reads the slots of an integer type. -/
def IntegerDescriptor.ofRecord? (inside : Bool) (r : Record) : Option IntegerDescriptor := do
  let length ← r.required? 0 "length" Json.uint64?
  let signed ← r.default? 1 "signed" false Json.bool?
  let byteOrder ← r.default? 2 "byte_order" .big (ByteOrder.ofJson? inside)
  let base ← r.optional? 3 "base" Json.uint32?
  let encoding ← r.optional? 4 "encoding" (Encoding.ofJson? inside)
  let clock ← r.optional? 5 "clock" Json.string?
  let alignment ← r.optional? 6 "alignment" Json.uint64?
  return ⟨length, signed, byteOrder, base, encoding, clock, alignment⟩

def IntegerDescriptor.ofJson? (inside : Bool) (j : Json) : Option IntegerDescriptor :=
  (j.record? 7).bind (ofRecord? inside)

/-- The slots of an integer type. -/
def IntegerDescriptor.members (d : IntegerDescriptor) : List (String × Json) :=
  [("length", .ofNat d.length.toNat), ("signed", .bool d.signed),
    ("byte_order", d.byteOrder.toJson), ("base", .ofOption (fun n => .ofNat n.toNat) d.base),
    ("encoding", .ofOption Encoding.toJson d.encoding), ("clock", .ofOption .string d.clock),
    ("alignment", .ofOption (fun n => .ofNat n.toNat) d.alignment)]

def IntegerDescriptor.toJson (d : IntegerDescriptor) : Json := .object d.members

def RangeDescriptor.ofJson? (j : Json) : Option RangeDescriptor := do
  let r ← j.record? 3
  return ⟨← r.required? 0 "low" Json.int64?, ← r.required? 1 "high" Json.int64?,
    ← r.required? 2 "label" Json.string?⟩

def RangeDescriptor.toJson (d : RangeDescriptor) : Json :=
  .object [("low", .integer d.low.toInt), ("high", .integer d.high.toInt),
    ("label", .string d.label)]

/-! ### Declarations -/

/-- The tags of declarations. -/
def Descriptor.tags : List String :=
  ["integer", "float", "string", "enum", "array", "sequence", "struct", "variant", "alias"]

/-- Reads a name and what it names. -/
def namedOfJson? {α : Type} (read : Json → Option α) (j : Json) : Option (String × α) := do
  let r ← j.record? 2
  return (← r.required? 0 "name" Json.string?, ← r.required? 1 "declaration" read)

/-- Writes a name and what it names. -/
def namedToJson (name : String) (j : Json) : Json :=
  .object [("name", .string name), ("declaration", j)]

namespace Descriptor

/-- Reads a declaration that is nested at most `n` deep, by itself or `inside` another one. -/
def read : (n : Nat) → (inside : Bool) → Json → Option Descriptor
  | 0, _, _ => none
  | n + 1, inside, j => do
    let (tag, content) ← j.tagged? inside tags
    match tag with
    | "integer" => return .integer (← IntegerDescriptor.ofJson? true content)
    | "float" =>
      let r ← content.record? 4
      return .float (← r.required? 0 "exponent" Json.uint64?)
        (← r.required? 1 "mantissa" Json.uint64?)
        (← r.default? 2 "byte_order" .big (ByteOrder.ofJson? true))
        (← r.default? 3 "alignment" none (Json.nullable? Json.uint64?))
    | "string" =>
      let r ← content.record? 1
      return .string (← r.default? 0 "encoding" .utf8 (Encoding.ofJson? true))
    | "enum" =>
      let r ← content.record? 2
      return .enum (← r.required? 0 "container" (IntegerDescriptor.ofJson? true))
        (← r.required? 1 "ranges" (Json.list? RangeDescriptor.ofJson?))
    | "array" =>
      let r ← content.record? 2
      return .array (← r.required? 0 "length" Json.uint64?)
        (← r.required? 1 "element" (read n true))
    | "sequence" =>
      let r ← content.record? 2
      return .sequence (← r.required? 0 "length_name" Json.string?)
        (← r.required? 1 "element" (read n true))
    | "struct" =>
      let r ← content.record? 2
      return .struct (← r.default? 0 "min_alignment" 0 Json.uint64?)
        (← r.required? 1 "fields" (Json.list? (namedOfJson? (read n true))))
    | "variant" =>
      let r ← content.record? 2
      return .variant (← r.optional? 0 "tag" Json.string?)
        (← r.required? 1 "fields" (Json.list? (namedOfJson? (read n true))))
    | "alias" =>
      let r ← content.record? 1
      return .reference (← r.required? 0 "name" Json.string?)
    | _ => none

def ofJson? (j : Json) : Option Descriptor := read j.depth false j

mutual

def toJson : Descriptor → Json
  | .integer d => .object (("type", .string "integer") :: d.members)
  | .float exponent mantissa byteOrder alignment =>
    .object [("type", .string "float"), ("exponent", .ofNat exponent.toNat),
      ("mantissa", .ofNat mantissa.toNat), ("byte_order", byteOrder.toJson),
      ("alignment", .ofOption (fun n => .ofNat n.toNat) alignment)]
  | .string encoding => .object [("type", .string "string"), ("encoding", encoding.toJson)]
  | .enum container ranges =>
    .object [("type", .string "enum"), ("container", container.toJson),
      ("ranges", .array (ranges.map RangeDescriptor.toJson))]
  | .array length element =>
    .object [("type", .string "array"), ("length", .ofNat length.toNat),
      ("element", element.toJson)]
  | .sequence lengthName element =>
    .object [("type", .string "sequence"), ("length_name", .string lengthName),
      ("element", element.toJson)]
  | .struct minAlignment fields =>
    .object [("type", .string "struct"), ("min_alignment", .ofNat minAlignment.toNat),
      ("fields", .array (fieldsToJson fields))]
  | .variant tag fields =>
    .object [("type", .string "variant"), ("tag", .ofOption .string tag),
      ("fields", .array (fieldsToJson fields))]
  | .reference name => .object [("type", .string "alias"), ("name", .string name)]

/-- Writes fields, one by one. -/
def fieldsToJson : List (String × Descriptor) → List Json
  | [] => []
  | (name, d) :: fields => namedToJson name d.toJson :: fieldsToJson fields

end

end Descriptor

/-! ### Structures, events and streams -/

def StructDescriptor.ofJson? (j : Json) : Option StructDescriptor := do
  let r ← j.record? 2
  return ⟨← r.default? 0 "min_alignment" 0 Json.uint64?,
    ← r.required? 1 "fields" (Json.list? (namedOfJson? Descriptor.ofJson?))⟩

def StructDescriptor.toJson (d : StructDescriptor) : Json :=
  .object [("min_alignment", .ofNat d.minAlignment.toNat),
    ("fields", .array (Descriptor.fieldsToJson d.fields))]

def EventDescriptor.ofJson? (j : Json) : Option EventDescriptor := do
  let r ← j.record? 6
  return ⟨← r.optional? 0 "name" Json.string?, ← r.optional? 1 "id" Json.uint64?,
    ← r.optional? 2 "header" StructDescriptor.ofJson?,
    ← r.optional? 3 "stream_context" StructDescriptor.ofJson?,
    ← r.optional? 4 "context" StructDescriptor.ofJson?,
    ← r.optional? 5 "fields" StructDescriptor.ofJson?⟩

def EventDescriptor.toJson (d : EventDescriptor) : Json :=
  .object [("name", .ofOption .string d.name), ("id", .ofOption (fun n => .ofNat n.toNat) d.id),
    ("header", .ofOption StructDescriptor.toJson d.header),
    ("stream_context", .ofOption StructDescriptor.toJson d.streamContext),
    ("context", .ofOption StructDescriptor.toJson d.context),
    ("fields", .ofOption StructDescriptor.toJson d.fields)]

def MetadataDescriptor.ofJson? (j : Json) : Option MetadataDescriptor := do
  let r ← j.record? 3
  return ⟨← r.default? 0 "aliases" [] (Json.list? (namedOfJson? Descriptor.ofJson?)),
    ← r.optional? 1 "packet_context" StructDescriptor.ofJson?,
    ← r.default? 2 "events" [] (Json.list? EventDescriptor.ofJson?)⟩

def MetadataDescriptor.toJson (d : MetadataDescriptor) : Json :=
  .object [("aliases", .array (Descriptor.fieldsToJson d.aliases)),
    ("packet_context", .ofOption StructDescriptor.toJson d.packetContext),
    ("events", .array (d.events.map EventDescriptor.toJson))]

end TraceFormat
