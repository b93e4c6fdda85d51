import TraceFormat.Decode
import TraceFormat.Definition.Text

/-! # Events

An event is a record of up to four structures: a header, the context of its stream, a context of its
own and its fields.  They are decoded in this order (`EventType.decode`), each in a scope in which
the parts before it can be referred to, and outermost the context of the packet.

The two contexts can be looked at as one (`Event.context?`), in which the event's own wins. -/

namespace TraceFormat

/-- The declaration of an event, of which every part may be missing. -/
structure EventType where
  name : Option String
  id : Option Nat
  header : Option StructType
  streamContext : Option StructType
  context : Option StructType
  fields : Option StructType
deriving DecidableEq, Repr, Inhabited

def EventType.text (t : EventType) : String :=
  "[declaration] event[name=" ++ t.name.getD "null"
    ++ (match t.id with
      | some id => ", id=" ++ Text.Numeral.decimal id
      | none => "")
    ++ "]"

/-- A decoded event. -/
structure Event where
  type : EventType
  cpu : Option Nat
  timestamp : BitVec 64
  header : Option StructDefinition
  streamContext : Option StructDefinition
  eventContext : Option StructDefinition
  packetContext : Option StructDefinition
  fields : Option StructDefinition
deriving Repr

/-- The stream context and the event context as one. -/
structure MergedContext where
  stream : Option StructDefinition
  event : Option StructDefinition
deriving Repr

namespace MergedContext

/-- The names of the stream context and then those of the event context, each once. -/
def names (c : MergedContext) : List String :=
  ((c.stream.toList ++ c.event.toList).flatMap StructDefinition.names).eraseDups

/-- Looks a name up in the event context and, if it is not there, in the stream context. -/
def lookup? (c : MergedContext) (name : String) : Option Definition :=
  (c.event.bind (·.lookup? name)).or (c.stream.bind (·.lookup? name))

end MergedContext

namespace Event

/-- The contexts as one, if there is one at all. -/
def context? (e : Event) : Option MergedContext :=
  if e.streamContext.isSome ∨ e.eventContext.isSome then some ⟨e.streamContext, e.eventContext⟩
  else none

/-- Looks a name up in the fields. -/
def lookup? (e : Event) (name : String) : Option Definition := e.fields.bind (·.lookup? name)

/-- The line of a part, if it is there. -/
def partText (title : String) : Option StructDefinition → String
  | none => ""
  | some part => "\n" ++ title ++ ": " ++ part.text

def text (e : Event) : String :=
  "Event type: " ++ e.type.name.getD "null"
    ++ "\nTimestamp: " ++ Text.Numeral.decimal e.timestamp.toInt
    ++ partText "Header" e.header ++ partText "Packet context" e.packetContext
    ++ partText "Stream context" e.streamContext ++ partText "Event context" e.eventContext
    ++ partText "Fields" e.fields

end Event

namespace EventType

/-- The name of the header field that holds the timestamp. -/
def timestampName : String := "timestamp"

/-- The storage of the integer field for the timestamp of a header; zero without one. -/
def timestampOf (header : Option StructDefinition) : BitVec 64 :=
  match header.bind (·.lookup? timestampName) with
  | some (.integer _ _ storage) => storage
  | _ => 0

/-- Decodes a part, if it is declared, and puts it into a frame under `scope`; gives the part and
the innermost frame. -/
def decodePart (limits : Limits) (type : Option StructType) (root : LexicalRoot)
    (scope : FrameId) : DecodeM (Option StructDefinition × FrameId) :=
  match type with
  | none => pure (none, scope)
  | some t => do
    let part ← t.decodeAt limits scope root.path
    let id ← DecodeM.attachUnder scope part
    return (some part, id)

/-- The frame in which an event begins. -/
def outermost : Option StructDefinition → DecodeM FrameId
  | none => pure .root
  | some packet => DecodeM.attachUnder .root packet

/-- Decodes the parts of an event in order. -/
def decodeParts (limits : Limits) (t : EventType) (packet : Option StructDefinition)
    (cpu : Option Nat) : DecodeM Event := do
  let scope ← outermost packet
  let (header, scope) ← decodePart limits t.header .streamEventHeader scope
  let (streamContext, scope) ← decodePart limits t.streamContext .streamEventContext scope
  let (eventContext, scope) ← decodePart limits t.context .eventContext scope
  let (fields, _) ← decodePart limits t.fields .fields scope
  return ⟨t, cpu, timestampOf header, header, streamContext, eventContext, packet, fields⟩

/-- Decodes an event at a cursor. -/
def decode (limits : Limits) (t : EventType) (packet : Option StructDefinition)
    (cpu : Option Nat) : EStateM DecodeError Cursor Event :=
  DecodeM.onCursor (t.decodeParts limits packet cpu)

end EventType

end TraceFormat
