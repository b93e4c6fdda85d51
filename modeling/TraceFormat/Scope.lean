import TraceFormat.Definition.Lookup

/-! # Scopes

The lengths of sequences and the tags of variants are found in the structures around them.  Every
such structure is a frame: while it is decoded the frame collects its fields one by one, and a
structure that was decoded before stands in a frame as it is.  Frames form an arena in which each
knows its parent by index, so a lookup goes from a frame outward (`Arena.chain`).

Closing a frame drops it with all that were added after it, so that an index may come to stand for
another frame. -/

namespace TraceFormat

/-- The index of a frame. -/
structure FrameId where
  index : Nat
deriving DecidableEq, Repr

/-- The frame that every arena begins with. -/
def FrameId.root : FrameId := ⟨0⟩

/-- What a frame holds. -/
inductive Contents where
  /-- The fields of a structure that is being decoded. -/
  | collecting (fields : List Definition)
  /-- A structure that was decoded before. -/
  | complete (struct : StructDefinition)
deriving Repr

/-- A structure in which names are looked up. -/
structure Frame where
  path : Path
  parent : Option FrameId
  contents : Contents
deriving Repr

namespace Frame

/-- The values that a frame holds, in order. -/
def fields (f : Frame) : List Definition :=
  match f.contents with
  | .collecting fields => fields
  | .complete s => s.fields

/-- The values that a frame has collected; a structure that was decoded before is not given back. -/
def collected (f : Frame) : List Definition :=
  match f.contents with
  | .collecting fields => fields
  | .complete _ => []

/-- The frame with one value more.  A structure that was decoded before stays as it is. -/
def bind (d : Definition) (f : Frame) : Frame :=
  match f.contents with
  | .collecting fields => { f with contents := .collecting (fields ++ [d]) }
  | .complete _ => f

/-- Finds a name among the values of a frame.  A name that begins with the path of the frame is read
from there. -/
def resolve (f : Frame) (name : String) : Option Definition :=
  Definition.resolve f.fields ((f.path.relative? name).getD name)

end Frame

/-- The frames of a record that is being decoded. -/
structure Arena where
  frames : List Frame
deriving Repr

namespace Arena

/-- The arena with nothing but an empty root frame. -/
def empty : Arena := ⟨[⟨Path.empty, none, .collecting []⟩]⟩

/-- The frame with an index, unless it is closed. -/
def frame? (a : Arena) (id : FrameId) : Option Frame := a.frames[id.index]?

def path? (a : Arena) (id : FrameId) : Option Path := (a.frame? id).map Frame.path

/-- The parent of a frame. -/
def parent? (a : Arena) (id : FrameId) : Option FrameId := (a.frame? id).bind Frame.parent

/-- The values that a frame holds itself, in order. -/
def bindings (a : Arena) (id : FrameId) : List Definition :=
  ((a.frame? id).map Frame.fields).getD []

/-- The path of a field of a frame.  A field of a closed frame is a root. -/
def fieldPath (a : Arena) (id : FrameId) (name : String) : Path :=
  match a.path? id with
  | some path => path.child name
  | none => Path.root name

/-- The index of the next frame. -/
def next (a : Arena) : FrameId := ⟨a.frames.length⟩

/-- Adds a frame. -/
def add (a : Arena) (f : Frame) : Arena := ⟨a.frames ++ [f]⟩

/-- Adds a frame that collects the fields of a structure. -/
def enter (a : Arena) (parent : FrameId) (path : Path) : Arena :=
  a.add ⟨path, some parent, .collecting []⟩

/-- Adds a frame for a structure that was decoded before. -/
def attach (a : Arena) (parent : FrameId) (s : StructDefinition) : Arena :=
  a.add ⟨s.path, some parent, .complete s⟩

/-- Adds a value to a frame that collects. -/
def bind (a : Arena) (id : FrameId) (d : Definition) : Arena :=
  ⟨a.frames.modify id.index (Frame.bind d)⟩

/-- Drops a frame and all that were added after it.  The root stays. -/
def close (a : Arena) (id : FrameId) : Arena :=
  if id = .root then a else ⟨a.frames.take id.index⟩

/-- What closing a frame gives back. -/
def collected (a : Arena) (id : FrameId) : List Definition :=
  if id = .root then [] else ((a.frame? id).map Frame.collected).getD []

/-- At most `n` frames from one outward. -/
def outward (a : Arena) : Nat → Option FrameId → List Frame
  | 0, _ => []
  | n + 1, id =>
    match id.bind a.frame? with
    | none => []
    | some f => f :: a.outward n f.parent

/-- The frames from one outward, as many as the arena has at most.  So many are enough where
parents are older than their frames (`finds_lookup?`); otherwise a search may go on without end, and
is cut off there. -/
def chain (a : Arena) (id : FrameId) : List Frame := a.outward a.frames.length (some id)

/-- Finds a name in the nearest frame from one outward that has it. -/
def lookup? (a : Arena) (id : FrameId) (name : String) : Option Definition :=
  (a.chain id).findSome? (·.resolve name)

end Arena

end TraceFormat
