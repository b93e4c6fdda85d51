import TraceFormat.Definition.Basic

/-! # Equality of definitions

Two definitions are equal if their declarations, paths, values and siblings are.  Floating-point
values are compared as numbers, so a definition that holds no number differs from itself. -/

namespace TraceFormat.Definition

mutual

/-- Whether two definitions are equal in every part. -/
def eq : Definition → Definition → Bool
  | .integer s p v, .integer t q w => s == t && p == q && v == w
  | .float s p v, .float t q w => s == t && p == q && v.eq w
  | .string s p v, .string t q w => s == t && p == q && v == w
  | .enum s p v, .enum t q w => s == t && p == q && v == w
  | .array s p ds, .array t q es => s == t && p == q && eqAll ds es
  | .struct s p ds, .struct t q es => s == t && p == q && eqAll ds es
  | .variant s p k d ds, .variant t q l e es =>
    s == t && p == q && k == l && d.eq e && eqAll ds es
  | _, _ => false

/-- Whether two lists of definitions are equal one by one. -/
def eqAll : List Definition → List Definition → Bool
  | [], [] => true
  | d :: ds, e :: es => d.eq e && eqAll ds es
  | _, _ => false

end

end TraceFormat.Definition
