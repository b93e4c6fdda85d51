import TraceFormat.Definition.Basic

/-! # The text of a definition

Structures and variants show their fields by name, arrays their elements.  An array of characters
shows as the text that they spell, up to the first NUL. -/

namespace TraceFormat

/-- The encoding of the elements of an array or sequence of characters. -/
def Declaration.characterEncoding? : Declaration → Option Encoding
  | .array _ (.integer t) => if t.isCharacter then some t.encoding else none
  | .sequence _ (.integer t) => if t.isCharacter then some t.encoding else none
  | _ => none

namespace Definition

/-- The low byte of an integer. -/
def byte? : Definition → Option UInt8
  | .integer _ _ storage => some (UInt8.ofNat storage.toNat)
  | _ => none

/-- The text that the elements of an array of characters spell. -/
def spelling? (declaration : Declaration) (elements : List Definition) : Option String :=
  declaration.characterEncoding?.map fun encoding =>
    encoding.decode ((elements.filterMap byte?).takeWhile (· != 0))

/-- The text that an array of characters spells. -/
def asText? : Definition → Option String
  | .array d _ elements => spelling? d elements
  | _ => none

mutual

def text : Definition → String
  | .integer t _ storage => t.valueText storage
  | .float _ _ value => value.text
  | .string _ _ value => "\"" ++ value ++ "\""
  | .enum t _ storage => t.valueText storage
  | .array d _ elements =>
    match spelling? d elements with
    | some spelling => "\"" ++ spelling ++ "\""
    | none => "[" ++ String.intercalate ", " (texts elements) ++ "]"
  | .struct _ _ fields => "\x7b " ++ String.intercalate ", " (fieldTexts fields) ++ " \x7d"
  | .variant _ _ label current _ => "\x7b " ++ label ++ " = " ++ current.text ++ " \x7d"

/-- The texts of values, one by one. -/
def texts : List Definition → List String
  | [] => []
  | d :: ds => d.text :: texts ds

/-- The texts of values with their names, one by one. -/
def fieldTexts : List Definition → List String
  | [] => []
  | d :: ds => (d.name ++ " = " ++ d.text) :: fieldTexts ds

end

end Definition

def StructDefinition.text (s : StructDefinition) : String := s.definition.text

end TraceFormat
