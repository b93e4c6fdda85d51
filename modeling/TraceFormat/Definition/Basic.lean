import TraceFormat.Declaration.Text
import TraceFormat.Path

/-! # Definitions

A definition is a decoded value with its place in the record and the declaration that it was decoded
from.  Arrays and sequences are decoded into the same shape of definition, which keeps the whole
declaration.

A variant keeps the fields that were decoded before it (`siblings`), so that they can be looked up
through it. -/

namespace TraceFormat

open TraceFormat.FloatingPoint (Binary64)

/-- A decoded value. -/
inductive Definition where
  /-- An integer in 64 bits of storage. -/
  | integer (type : IntegerType) (path : Path) (storage : BitVec 64)
  | float (type : FloatType) (path : Path) (value : Binary64)
  | string (encoding : Encoding) (path : Path) (value : String)
  | enum (type : EnumType) (path : Path) (storage : BitVec 64)
  | array (declaration : Declaration) (path : Path) (elements : List Definition)
  | struct (type : StructType) (path : Path) (fields : List Definition)
  | variant (type : VariantType) (path : Path) (label : String) (current : Definition)
      (siblings : List Definition)
deriving Repr, Inhabited

namespace Definition

/-- Induction over definitions, with a hypothesis for every definition inside. -/
theorem induction {motive : Definition → Prop}
    (integer : ∀ t p v, motive (.integer t p v)) (float : ∀ t p v, motive (.float t p v))
    (string : ∀ e p v, motive (.string e p v)) (enum : ∀ t p v, motive (.enum t p v))
    (array : ∀ d p es, (∀ e ∈ es, motive e) → motive (.array d p es))
    (struct : ∀ t p fs, (∀ f ∈ fs, motive f) → motive (.struct t p fs))
    (variant : ∀ t p l c ss, motive c → (∀ s ∈ ss, motive s) → motive (.variant t p l c ss))
    (d : Definition) : motive d :=
  Definition.rec (motive_1 := motive) (motive_2 := fun ds => ∀ d ∈ ds, motive d)
    integer float string enum array struct variant
    (by simp) (fun _ _ head tail => by simpa using ⟨head, tail⟩) d

/-- The declaration that a value was decoded from. -/
def declaration : Definition → Declaration
  | .integer t _ _ => .integer t
  | .float t _ _ => .float t
  | .string encoding _ _ => .string encoding
  | .enum t _ _ => .enum t
  | .array d _ _ => d
  | .struct t _ _ => t.declaration
  | .variant t _ _ _ _ => t.declaration

def path : Definition → Path
  | .integer _ p _ => p
  | .float _ p _ => p
  | .string _ p _ => p
  | .enum _ p _ => p
  | .array _ p _ => p
  | .struct _ p _ => p
  | .variant _ p _ _ _ => p

/-- The name of a value, the last one of its path. -/
def name (d : Definition) : String := d.path.name

/-- The kind of a value.  Only its declaration tells an array from a sequence. -/
def kind : Definition → Kind
  | .integer _ _ _ => .integer
  | .float _ _ _ => .float
  | .string _ _ _ => .string
  | .enum _ _ _ => .enum
  | .array d _ _ => d.kind
  | .struct _ _ _ => .struct
  | .variant _ _ _ _ _ => .variant

end Definition

/-- A decoded structure. -/
structure StructDefinition where
  type : StructType
  path : Path
  fields : List Definition
deriving Repr, Inhabited

namespace StructDefinition

/-- The structure as a definition. -/
def definition (s : StructDefinition) : Definition := .struct s.type s.path s.fields

def names (s : StructDefinition) : List String := s.fields.map Definition.name

end StructDefinition

/-- The structure that a definition is, if it is one. -/
def Definition.struct? : Definition → Option StructDefinition
  | .struct type path fields => some ⟨type, path, fields⟩
  | _ => none

end TraceFormat
