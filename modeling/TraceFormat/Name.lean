/-! # Dotted names

A reference names a value by the names of the members on the way to it, joined by dots.
`DottedName.ofText` cuts a text at its dots and `DottedName.text` joins the parts again
(`text_ofText`). -/

namespace TraceFormat

/-- A name of one part or more. -/
structure DottedName where
  head : String
  rest : List String
deriving DecidableEq, Repr

namespace DottedName

/-- The parts of a text between its dots: the first one and the others. -/
def split : List Char → List Char × List (List Char)
  | [] => ([], [])
  | c :: text =>
    let (part, parts) := split text
    if c = '.' then ([], part :: parts) else (c :: part, parts)

/-- The name that a text spells. -/
def ofText (text : String) : DottedName :=
  let (part, parts) := split text.toList
  ⟨String.ofList part, parts.map String.ofList⟩

/-- Joins parts by dots. -/
def join (head : String) : List String → String
  | [] => head
  | part :: parts => head ++ "." ++ join part parts

def text (n : DottedName) : String := join n.head n.rest

theorem join_split (text : List Char) :
    join (String.ofList (split text).1) ((split text).2.map String.ofList)
      = String.ofList text := by
  induction text with
  | nil => rfl
  | cons c text ih =>
    unfold split
    split
    next part parts h =>
      rw [h] at ih
      split
      next hc =>
        subst hc
        simp only [List.map_cons, join, ih]
        apply String.toList_injective
        simp
      next => cases parts <;> simp_all [join, String.ofList_cons, String.append_assoc]

theorem split_append_dot (text more : List Char) :
    split (text ++ '.' :: more) =
      ((split text).1, (split text).2 ++ (split more).1 :: (split more).2) := by
  induction text with
  | nil => simp [split]
  | cons c text ih => by_cases hc : c = '.' <;> simp [split, ih, hc]

@[simp] theorem text_ofText (text : String) : (ofText text).text = text := by
  simpa [ofText, DottedName.text] using join_split text.toList

end DottedName

end TraceFormat
