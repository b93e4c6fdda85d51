import TraceFormat.Cursor.Text
import TraceFormat.Limits
import TraceFormat.Scope

/-! # Decoding

A declaration is decoded at a cursor in a frame of an arena (`Declaration.decodeAt`).  A structure
enters a frame of its own, in which each field is bound as soon as it is decoded, so that the fields
after it can refer to it; the frame is closed again whether or not the structure could be decoded.

Lengths and tags are settled before anything is read (`Declaration.sequenceLength`,
`Declaration.selectedLabel`). -/

namespace TraceFormat

/-- Where decoding stands. -/
structure DecodeState where
  cursor : Cursor
  arena : Arena
deriving Repr

/-- An action that decodes. -/
abbrev DecodeM := EStateM DecodeError DecodeState

namespace DecodeM

variable {α : Type}

/-- Reads at the cursor. -/
def ofRead (action : ReadM α) : DecodeM α := fun s =>
  match action s.cursor with
  | .ok a cursor => .ok a { s with cursor }
  | .error e cursor => .error (.read e) { s with cursor }

/-- Moves the cursor to the next multiple of `unit` bits. -/
def align (unit : Nat) : DecodeM Unit := ofRead (alignTo unit)

/-- Takes a value from the arena, without a change. -/
def ofArena (f : Arena → Except DecodeError α) : DecodeM α := fun s =>
  match f s.arena with
  | .ok a => .ok a s
  | .error e => .error e s

/-- Binds a value in a frame. -/
def bindIn (id : FrameId) (d : Definition) : DecodeM Unit := fun s =>
  .ok () { s with arena := s.arena.bind id d }

/-- Puts a structure into a frame under `parent` and gives the frame. -/
def attachUnder (parent : FrameId) (t : StructDefinition) : DecodeM FrameId := fun s =>
  .ok s.arena.next { s with arena := s.arena.attach parent t }

/-- Runs an action in a frame of its own, which is closed in any case, and gives the values bound in
it. -/
def collectIn (parent : FrameId) (path : Path) (body : FrameId → DecodeM Unit) :
    DecodeM (List Definition) := fun s =>
  let id := s.arena.next
  match body id { s with arena := s.arena.enter parent path } with
  | .ok _ t => .ok (t.arena.collected id) { t with arena := t.arena.close id }
  | .error e t => .error e { t with arena := t.arena.close id }

/-- Runs an action for the `n` indices from `index` on and puts the results after those in `done`,
of which the last comes first. -/
def forIndices (action : Nat → DecodeM α) : (n index : Nat) → (done : List α) → DecodeM (List α)
  | 0, _, done => pure done.reverse
  | n + 1, index, done => do
    let a ← action index
    forIndices action n (index + 1) (a :: done)

end DecodeM

namespace Declaration

/-- Reads a string, which has to end within the limit. -/
def decodeText (limits : Limits) (encoding : Encoding) (path : Path) : DecodeM String := do
  DecodeM.align (Declaration.string encoding).alignment
  let (text, stop) ← DecodeM.ofRead (readTextUntil limits.maxStringLength encoding)
  match stop, limits.maxStringLength with
  | .limit, some max => throw (.stringTooLong path.text max)
  | _, _ => return text

/-- The number of elements of a sequence: the integer that its length is bound to. -/
def sequenceLength (limits : Limits) (name : String) (scope : FrameId) (path : Path)
    (arena : Arena) : Except DecodeError Nat :=
  match arena.lookup? scope name with
  | none => .error (.unresolvedReference name path.text)
  | some (.integer t _ storage) =>
    match t.count? storage with
    | none => .error (.invalidLength name storage.toInt)
    | some length =>
      if limits.allowsSequence length then .ok length
      else .error (.invalidLength name storage.toInt)
  | some _ => .error (.wrongKind name .integer)

/-- The label that selects the member of a variant: that of the enumeration value that its tag is
bound to. -/
def selectedLabel (tag : Option String) (scope : FrameId) (path : Path) (arena : Arena) :
    Except DecodeError String :=
  match tag with
  | none => .error (.missingTag path.text)
  | some name =>
    match arena.lookup? scope name with
    | none => .error (.unresolvedReference name path.text)
    | some (.enum t _ storage) =>
      match t.storageLabel? storage with
      | none => .error (.unmatchedTag path.text none)
      | some label => .ok label
    | some _ => .error (.wrongKind name .enum)

mutual

/-- Decodes a value whose path is known, in a frame. -/
def decodeAt (limits : Limits) : Declaration → FrameId → Path → DecodeM Definition
  | .integer t, _, path => do
    return .integer t path (← DecodeM.ofRead t.read)
  | .float t, _, path => do
    return .float t path (← DecodeM.ofRead t.read)
  | .string encoding, _, path => do
    return .string encoding path (← decodeText limits encoding path)
  | .enum t, _, path => do
    return .enum t path (← DecodeM.ofRead t.container.read)
  | .array length element, scope, path => do
    DecodeM.align element.alignment
    let elements ← DecodeM.forIndices
      (fun i => decodeAt limits element scope (path.element i)) length 0 []
    return .array (.array length element) path elements
  | .sequence lengthName element, scope, path => do
    let length ← DecodeM.ofArena (sequenceLength limits lengthName scope path)
    DecodeM.align element.alignment
    let elements ← DecodeM.forIndices
      (fun i => decodeAt limits element scope (path.element i)) length 0 []
    return .array (.sequence lengthName element) path elements
  | .struct minAlignment members, scope, path => do
    DecodeM.align (Declaration.struct minAlignment members).alignment
    let fields ← DecodeM.collectIn scope path (fun id => decodeFields limits members id)
    return .struct ⟨minAlignment, members⟩ path fields
  | .variant tag members, scope, path => do
    let label ← DecodeM.ofArena (selectedLabel tag scope path)
    let siblings ← DecodeM.ofArena (fun arena => .ok (arena.bindings scope))
    let current ← decodeMember limits members label scope path
    return .variant ⟨tag, members⟩ path label current siblings

/-- Decodes members one after the other and binds each in a frame. -/
def decodeFields (limits : Limits) : Members → FrameId → DecodeM Unit
  | [], _ => pure ()
  | (name, d) :: members, id => do
    let path ← DecodeM.ofArena (fun arena => .ok (arena.fieldPath id name))
    let value ← decodeAt limits d id path
    DecodeM.bindIn id value
    decodeFields limits members id

/-- Decodes the member with a label, of the variant at `path`. -/
def decodeMember (limits : Limits) : Members → String → FrameId → Path → DecodeM Definition
  | [], label, _, path => throw (.unmatchedTag path.text (some label))
  | (name, d) :: members, label, scope, path =>
    if name = label then decodeAt limits d scope (path.child label)
    else decodeMember limits members label scope path

end

/-- Decodes a field of a frame under a name. -/
def decode (limits : Limits) (d : Declaration) (scope : FrameId) (name : String) :
    DecodeM Definition := do
  let path ← DecodeM.ofArena (fun arena => .ok (arena.fieldPath scope name))
  decodeAt limits d scope path

end Declaration

/-- Decodes a structure whose path is known, in a frame. -/
def StructType.decodeAt (limits : Limits) (t : StructType) (scope : FrameId) (path : Path) :
    DecodeM StructDefinition := do
  DecodeM.align t.alignment
  let fields ← DecodeM.collectIn scope path (fun id => Declaration.decodeFields limits t.members id)
  return ⟨t, path, fields⟩

/-- Runs an action on a cursor, in an arena of its own. -/
def DecodeM.onCursor {α : Type} (action : DecodeM α) : EStateM DecodeError Cursor α := fun cursor =>
  match action ⟨cursor, .empty⟩ with
  | .ok a s => .ok a s.cursor
  | .error e s => .error e s.cursor

/-- Decodes a structure that is a root of the record. -/
def StructType.decodeRoot (limits : Limits) (t : StructType) (root : LexicalRoot) :
    EStateM DecodeError Cursor StructDefinition :=
  DecodeM.onCursor (t.decodeAt limits .root root.path)

end TraceFormat
