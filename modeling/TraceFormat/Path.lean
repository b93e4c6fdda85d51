import TraceFormat.Text.Numeral

/-! # Paths

A path says where a value stands in a record: the names from the root down to it, joined by dots,
with the index of an element in brackets.  The last of these names is the value's own.  A root may
have dots in its name, as `stream.packet.context` has, so a path keeps its own name apart from what
leads to it (`Path.text_eq`). -/

namespace TraceFormat

/-- The place of a value in a record. -/
structure Path where
  /-- The text before the value's own name. -/
  lead : String
  /-- The value's own name. -/
  name : String
deriving DecidableEq, Repr, Inhabited

namespace Path

/-- The whole path as text. -/
def text (p : Path) : String := p.lead ++ p.name

/-- A root, of which the whole text is the name. -/
def root (name : String) : Path := ⟨"", name⟩

/-- The path without any text. -/
def empty : Path := root ""

/-- Whether the path has no text. -/
def isEmpty (p : Path) : Bool := p.text == ""

/-- The path of a member.  A member of the empty path is a root. -/
def child (p : Path) (name : String) : Path :=
  if p.isEmpty then root name else ⟨p.text ++ ".", name⟩

/-- The path of an element, whose name is that of its array with the index. -/
def element (p : Path) (index : Nat) : Path :=
  { p with name := p.name ++ "[" ++ Text.Numeral.natText 10 index ++ "]" }

/-- What follows the path and a dot in a name.  Nothing is relative to the empty path. -/
def relative? (p : Path) (name : String) : Option String :=
  if p.isEmpty then none
  else ((p.text ++ ".").toList.isPrefixOf? name.toList).map String.ofList

@[simp] theorem text_root (name : String) : (root name).text = name := by simp [root, text]

@[simp] theorem text_child (p : Path) (name : String) :
    (p.child name).text = if p.isEmpty then name else p.text ++ "." ++ name := by
  unfold child
  split <;> simp [text, root]

@[simp] theorem name_child (p : Path) (name : String) : (p.child name).name = name := by
  unfold child
  split <;> rfl

end Path

/-- The roots of a record, the outermost first. -/
inductive LexicalRoot where
  | tracePacketHeader
  | streamPacketContext
  | streamEventHeader
  | streamEventContext
  | eventContext
  | fields
deriving DecidableEq, Repr

namespace LexicalRoot

/-- The name under which a root is known. -/
def text : LexicalRoot → String
  | .tracePacketHeader => "trace.packet.header"
  | .streamPacketContext => "stream.packet.context"
  | .streamEventHeader => "stream.event.header"
  | .streamEventContext => "stream.event.context"
  | .eventContext => "event.context"
  | .fields => "fields"

def path (r : LexicalRoot) : Path := Path.root r.text

end LexicalRoot

end TraceFormat
