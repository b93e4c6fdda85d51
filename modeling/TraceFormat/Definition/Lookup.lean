import TraceFormat.Definition.Basic
import TraceFormat.Name

/-! # Looking fields up

A name finds a field called exactly so, dots and all; else its first part names a structure or a
variant among the fields, in which the other parts are looked up (`resolve`).  A lookup of one shape
tells a missing field from one of another shape (`Lookup`). -/

namespace TraceFormat

namespace Definition

/-- The first of some values with a name. -/
def named? (fields : List Definition) (name : String) : Option Definition :=
  fields.find? (·.name = name)

/-- The values that a dotted name may go on with: the fields of a structure or the selected member
of a variant. -/
def inside : Definition → List Definition
  | .struct _ _ fields => fields
  | .variant _ _ _ current _ => [current]
  | _ => []

/-- Finds a name of the given parts among some values. -/
def resolveParts (fields : List Definition) (head : String) : List String → Option Definition
  | [] => named? fields head
  | part :: parts =>
    match named? fields (DottedName.join head (part :: parts)) with
    | some d => some d
    | none =>
      match named? fields head with
      | some d => resolveParts d.inside part parts
      | none => none

/-- Finds a name, plain or dotted, among some values. -/
def resolve (fields : List Definition) (name : String) : Option Definition :=
  let parts := DottedName.ofText name
  resolveParts fields parts.head parts.rest

/-- Looks a name up in a structure or variant.  A variant has its selected member under the name of
its own and, under any other name, what was decoded before it. -/
def lookup? : Definition → String → Option Definition
  | .struct _ _ fields, name => resolve fields name
  | .variant _ path _ current siblings, name =>
    if name = path.name then some current else resolve siblings name
  | _, _ => none

/-- Whether values have names under which others can be looked up. -/
def isComposite : Definition → Bool
  | .struct _ _ _ | .variant _ _ _ _ _ => true
  | _ => false

end Definition

def StructDefinition.lookup? (s : StructDefinition) (name : String) : Option Definition :=
  Definition.resolve s.fields name

/-- The shapes of definitions. -/
inductive Shape where
  | integer
  | float
  | string
  | enum
  | array
  | struct
  | variant
deriving DecidableEq, Repr

def Definition.shape : Definition → Shape
  | .integer _ _ _ => .integer
  | .float _ _ _ => .float
  | .string _ _ _ => .string
  | .enum _ _ _ => .enum
  | .array _ _ _ => .array
  | .struct _ _ _ => .struct
  | .variant _ _ _ _ _ => .variant

/-- What a lookup of one shape finds. -/
inductive Lookup where
  | found (d : Definition)
  /-- There is nothing under the name. -/
  | absent
  /-- There is a definition of another shape, whose kind is given. -/
  | wrongKind (kind : Kind)

/-- Sorts the result of a lookup by the shape that was asked for; without one every definition will
do. -/
def Lookup.ofResolved (shape : Option Shape) : Option Definition → Lookup
  | none => .absent
  | some d => if shape.all (· == d.shape) then .found d else .wrongKind d.kind

end TraceFormat
