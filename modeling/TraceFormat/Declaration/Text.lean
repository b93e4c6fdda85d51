import TraceFormat.Declaration.Basic

/-! # The kinds and texts of declarations -/

namespace TraceFormat

/-- The kinds of declarations. -/
inductive Kind where
  | integer
  | float
  | string
  | enum
  | array
  | sequence
  | struct
  | variant
deriving DecidableEq, Repr

def Kind.text : Kind → String
  | .integer => "integer"
  | .float => "float"
  | .string => "string"
  | .enum => "enum"
  | .array => "array"
  | .sequence => "sequence"
  | .struct => "struct"
  | .variant => "variant"

namespace Declaration

def kind : Declaration → Kind
  | .integer _ => .integer
  | .float _ => .float
  | .string _ => .string
  | .enum _ => .enum
  | .array _ _ => .array
  | .sequence _ _ => .sequence
  | .struct _ _ => .struct
  | .variant _ _ => .variant

/-- The text of a list of member names. -/
def namesText (members : Members) : String := "[" ++ String.intercalate ", " members.names ++ "]"

/-- The text of a declaration.  Of structures and variants it has the names of the members only. -/
def text : Declaration → String
  | .integer t => t.text
  | .float t => t.text
  | .string encoding => "[declaration] string[encoding=" ++ encoding.text ++ "]"
  | .enum t => t.text
  | .array length element =>
    "[declaration] array[length=" ++ Text.Numeral.decimal length
      ++ ", element=" ++ element.text ++ "]"
  | .sequence lengthName element =>
    "[declaration] sequence[length=" ++ lengthName ++ ", element=" ++ element.text ++ "]"
  | .struct minAlignment members =>
    "[declaration] struct[alignment="
      ++ Text.Numeral.decimal (Declaration.struct minAlignment members).alignment
      ++ ", fields=" ++ namesText members ++ "]"
  | .variant tag members =>
    "[declaration] variant[tag=" ++ tag.getD "null" ++ ", fields=" ++ namesText members ++ "]"

end Declaration

def StructType.text (t : StructType) : String := t.declaration.text

end TraceFormat
