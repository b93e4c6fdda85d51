import TraceFormat.Descriptor.Build
import TraceFormat.Event

/-! # Metadata

The declarations of a stream.  They are built in order: the named declarations, of which each may
name those before it, then the context of the packets and then the events. -/

namespace TraceFormat

/-- Builds a part that may be missing. -/
def buildPart (aliases : Aliases) : Option StructDescriptor → Except BuildError (Option StructType)
  | none => .ok none
  | some d => some <$> d.build aliases

def EventDescriptor.build (aliases : Aliases) (d : EventDescriptor) :
    Except BuildError EventType := do
  return ⟨d.name, d.id.map UInt64.toNat, ← buildPart aliases d.header,
    ← buildPart aliases d.streamContext, ← buildPart aliases d.context,
    ← buildPart aliases d.fields⟩

/-- The declarations of a stream. -/
structure Metadata where
  aliases : Aliases
  packetContext : Option StructType
  events : List EventType

/-- Adds named declarations to a table in order.  A name that comes again stands for the later
declaration. -/
def buildAliases (aliases : Aliases) : List (String × Descriptor) → Except BuildError Aliases
  | [] => .ok aliases
  | (name, d) :: rest => do
    let d ← d.build aliases
    buildAliases (aliases.insert name d) rest

def MetadataDescriptor.build (d : MetadataDescriptor) : Except BuildError Metadata := do
  let aliases ← buildAliases ∅ d.aliases
  let packetContext ← buildPart aliases d.packetContext
  let events ← d.events.mapM (·.build aliases)
  return ⟨aliases, packetContext, events⟩

end TraceFormat
