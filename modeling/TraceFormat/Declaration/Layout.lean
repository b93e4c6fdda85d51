import TraceFormat.Declaration.Basic

/-! # Equivalent layouts

Two declarations with the same layout take the same bits for the same values.  What only names or
shows a value does not count: member names, labels, bases, clocks, the field that a sequence takes
its length from and the tag of a variant. -/

namespace TraceFormat.Declaration

mutual

/-- Whether two declarations lay their bits out alike. -/
def sameLayout : Declaration → Declaration → Bool
  | .integer s, .integer t => s.sameLayout t
  | .float s, .float t => s == t
  | .string s, .string t => s == t
  | .enum s, .enum t => s.sameLayout t
  | .array m d, .array n e => m == n && d.sameLayout e
  | .sequence _ d, .sequence _ e => d.sameLayout e
  | .struct m ds, .struct n es =>
    (Declaration.struct m ds).alignment == (Declaration.struct n es).alignment
      && sameLayouts ds es
  | .variant _ ds, .variant _ es => sameLayouts ds es
  | _, _ => false

/-- Whether the members of two lists lay their bits out alike, one by one. -/
def sameLayouts : Members → Members → Bool
  | [], [] => true
  | (_, d) :: ds, (_, e) :: es => d.sameLayout e && sameLayouts ds es
  | _, _ => false

end

end TraceFormat.Declaration
