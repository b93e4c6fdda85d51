import Mathlib.Data.List.Basic
import Mathlib.Tactic.Common
import TraceFormat.Decode

/-! # Decoding in surroundings

What a reference of a record can mean, said without frames: it is looked up in the structures
around the value, the innermost first, each with the fields that it has by then (`Level`).  There a
name without a dot is the name of a field and nothing else (`Level.lookup?_of_not_mem`).

`Declaration.decodeWithin` decodes in such surroundings.  It has no state but the cursor: whatever
is decoded as a field of a structure has the fields before it as its innermost level, and all around
it what is around the structure. -/

namespace TraceFormat

/-- A structure as it is seen from inside: where it stands and the fields that it has so far. -/
structure Level where
  path : Path
  fields : List Definition

/-- Finds a name among the fields of a structure.  A name that begins with the path of the structure
is read from there. -/
def Level.lookup? (l : Level) (name : String) : Option Definition :=
  Definition.resolve l.fields ((l.path.relative? name).getD name)

/-- The structures around a value, the innermost first. -/
abbrev Surroundings := List Level

namespace Surroundings

/-- Finds a name in the innermost structure that has it. -/
def lookup? (around : Surroundings) (name : String) : Option Definition :=
  around.findSome? (·.lookup? name)

/-- The fields of the innermost structure. -/
def innermost (around : Surroundings) : List Definition := (around.head?.map Level.fields).getD []

end Surroundings

/-- A decoded structure, with all its fields. -/
def StructDefinition.level (s : StructDefinition) : Level := ⟨s.path, s.fields⟩

/-! ### Names without a dot -/

theorem DottedName.split_of_not_mem {text : List Char} (h : '.' ∉ text) :
    split text = (text, []) := by
  induction text with
  | nil => rfl
  | cons c text ih =>
      rw [List.mem_cons, not_or] at h
      have hc : c ≠ '.' := fun e => h.1 e.symm
      simp [split, ih h.2, hc]

theorem Definition.resolve_of_not_mem (fields : List Definition) {name : String}
    (h : '.' ∉ name.toList) : resolve fields name = named? fields name := by
  have hsplit := DottedName.split_of_not_mem h
  simp [resolve, DottedName.ofText, hsplit, resolveParts]

/-- What follows a path in a name follows a dot. -/
theorem Path.relative?_of_not_mem (p : Path) {name : String} (h : '.' ∉ name.toList) :
    p.relative? name = none := by
  unfold relative?
  split_ifs
  · rfl
  · rw [Option.map_eq_none_iff]
    cases hrest : (p.text ++ ".").toList.isPrefixOf? name.toList with
    | none => rfl
    | some rest =>
        have happend := List.isPrefixOf?_eq_some_iff_append_eq.mp hrest
        refine absurd ?_ h
        rw [← happend]
        simp

theorem Level.lookup?_of_not_mem (l : Level) {name : String} (h : '.' ∉ name.toList) :
    l.lookup? name = Definition.named? l.fields name := by
  have hrelative := l.path.relative?_of_not_mem h
  simp [lookup?, hrelative, Definition.resolve_of_not_mem l.fields h]

/-! ### Decoding -/

namespace Declaration

/-- The number of elements of a sequence, from what its length was found to be bound to. -/
def lengthOf (limits : Limits) (name : String) (path : Path) :
    Option Definition → Except DecodeError Nat
  | none => .error (.unresolvedReference name path.text)
  | some (.integer t _ storage) =>
    match t.count? storage with
    | none => .error (.invalidLength name storage.toInt)
    | some length =>
      if limits.allowsSequence length then .ok length
      else .error (.invalidLength name storage.toInt)
  | some _ => .error (.wrongKind name .integer)

/-- The label that selects the member of a variant, from what its tag was found to be bound to. -/
def labelOf (name : String) (path : Path) : Option Definition → Except DecodeError String
  | none => .error (.unresolvedReference name path.text)
  | some (.enum t _ storage) =>
    match t.storageLabel? storage with
    | none => .error (.unmatchedTag path.text none)
    | some label => .ok label
  | some _ => .error (.wrongKind name .enum)

/-- The label that selects the member of a variant in its surroundings. -/
def labelWithin (tag : Option String) (path : Path) (around : Surroundings) :
    Except DecodeError String :=
  match tag with
  | none => .error (.missingTag path.text)
  | some name => labelOf name path (around.lookup? name)

mutual

/-- Decodes a value whose path is known, in its surroundings. -/
def decodeWithin (limits : Limits) :
    Declaration → Surroundings → Path → EStateM DecodeError Cursor Definition
  | .integer t, _, path => do
    return .integer t path (← (DecodeM.ofRead t.read).onCursor)
  | .float t, _, path => do
    return .float t path (← (DecodeM.ofRead t.read).onCursor)
  | .string encoding, _, path => do
    return .string encoding path (← (decodeText limits encoding path).onCursor)
  | .enum t, _, path => do
    return .enum t path (← (DecodeM.ofRead t.container.read).onCursor)
  | .array length element, around, path => do
    alignTo element.alignment
    let elements ← (List.range length).mapM fun i =>
      decodeWithin limits element around (path.element i)
    return .array (.array length element) path elements
  | .sequence lengthName element, around, path => do
    let length ← MonadExcept.ofExcept
      (lengthOf limits lengthName path (around.lookup? lengthName))
    alignTo element.alignment
    let elements ← (List.range length).mapM fun i =>
      decodeWithin limits element around (path.element i)
    return .array (.sequence lengthName element) path elements
  | .struct minAlignment members, around, path => do
    alignTo (Declaration.struct minAlignment members).alignment
    let fields ← decodeFieldsWithin limits members around path []
    return .struct ⟨minAlignment, members⟩ path fields
  | .variant tag members, around, path => do
    let label ← MonadExcept.ofExcept (labelWithin tag path around)
    let current ← decodeMemberWithin limits members label around path
    return .variant ⟨tag, members⟩ path label current around.innermost

/-- Decodes members of the structure at `path` one after the other, each within the structure as far
as it has been decoded by then. -/
def decodeFieldsWithin (limits : Limits) :
    Members → Surroundings → Path → List Definition → EStateM DecodeError Cursor (List Definition)
  | [], _, _, done => pure done
  | (name, d) :: members, around, path, done => do
    let value ← decodeWithin limits d (⟨path, done⟩ :: around) (path.child name)
    decodeFieldsWithin limits members around path (done ++ [value])

/-- Decodes the member with a label, of the variant at `path`. -/
def decodeMemberWithin (limits : Limits) :
    Members → String → Surroundings → Path → EStateM DecodeError Cursor Definition
  | [], label, _, path => throw (.unmatchedTag path.text (some label))
  | (name, d) :: members, label, around, path =>
    if name = label then decodeWithin limits d around (path.child label)
    else decodeMemberWithin limits members label around path

end

end Declaration

/-- Decodes a structure whose path is known, in its surroundings. -/
def StructType.decodeWithin (limits : Limits) (t : StructType) (around : Surroundings)
    (path : Path) : EStateM DecodeError Cursor StructDefinition := do
  alignTo t.alignment
  let fields ← Declaration.decodeFieldsWithin limits t.members around path []
  return ⟨t, path, fields⟩

end TraceFormat
