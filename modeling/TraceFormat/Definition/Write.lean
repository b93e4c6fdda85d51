import TraceFormat.Cursor.Text
import TraceFormat.Definition.Basic

/-! # Writing definitions

A value is written with the alignment and layout of its declaration.  Of a variant only the selected
member is written. -/

namespace TraceFormat.Definition

mutual

/-- Writes a value at the next position that its declaration allows. -/
def write : Definition → WriteM Unit
  | .integer t _ storage => t.write storage
  | .float t _ value => t.write value
  | .string encoding _ value => do
    alignTo (Declaration.string encoding).alignment
    writeText value
  | .enum t _ storage => t.container.write storage
  | .array d _ elements => do
    alignTo d.alignment
    writeAll elements
  | .struct t _ fields => do
    alignTo t.alignment
    writeAll fields
  | .variant _ _ _ current _ => current.write

def writeAll : List Definition → WriteM Unit
  | [] => pure ()
  | d :: ds => do
    d.write
    writeAll ds

end

end TraceFormat.Definition
