import TraceFormat.Declaration.Integer

/-! # Enumeration types

An enumeration labels ranges of the values of an integer type.  Its table is built range by range
with `EnumType.insert`, which keeps it in order and free of overlaps, so that `EnumType.label?` may
skip the ranges that end before a value and look at the next one alone. -/

namespace TraceFormat

/-- The values from `low` to `high` and their label. -/
structure EnumRange where
  low : Int
  high : Int
  label : String
deriving DecidableEq, Repr

namespace EnumRange

/-- Whether a value lies in the range. -/
def contains (r : EnumRange) (value : Int) : Bool := r.low ≤ value && value ≤ r.high

/-- Whether two ranges share a value. -/
def overlaps (r s : EnumRange) : Bool := r.low ≤ s.high && s.low ≤ r.high

def text (r : EnumRange) : String :=
  "[" ++ Text.Numeral.decimal r.low ++ ", " ++ Text.Numeral.decimal r.high ++ "] -> " ++ r.label

end EnumRange

/-- An integer type with labelled ranges. -/
structure EnumType where
  container : IntegerType
  ranges : List EnumRange
deriving DecidableEq, Repr

namespace EnumType

/-- The enumeration without any label. -/
def empty (container : IntegerType) : EnumType := ⟨container, []⟩

/-- A table with one range more, which is put before the first one that begins no earlier. -/
def insertRange (r : EnumRange) (ranges : List EnumRange) : List EnumRange :=
  ranges.takeWhile (·.low < r.low) ++ r :: ranges.dropWhile (·.low < r.low)

/-- Adds a range.  A range that is there already is accepted and changes nothing; one that is empty
or overlaps another is refused. -/
def insert (t : EnumType) (low high : Int) (label : String) : Except BuildError EnumType :=
  let r : EnumRange := ⟨low, high, label⟩
  if t.ranges.contains r then .ok t
  else if high < low ∨ t.ranges.any (·.overlaps r) then .error (.overlappingRange low high label)
  else .ok { t with ranges := insertRange r t.ranges }

/-- The label of a value. -/
def label? (t : EnumType) (value : Int) : Option String :=
  match t.ranges.dropWhile (·.high < value) with
  | [] => none
  | r :: _ => if r.contains value then some r.label else none

/-- The least value with a label. -/
def valueOf? (t : EnumType) (label : String) : Option Int :=
  (t.ranges.find? (·.label = label)).map (·.low)

/-- The label of the number in storage, read with a sign. -/
def storageLabel? (t : EnumType) (storage : BitVec 64) : Option String := t.label? storage.toInt

/-- Whether two enumerations lay their bits out alike and have the same bounds, whatever their
labels. -/
def sameLayout (s t : EnumType) : Bool :=
  s.container.sameLayout t.container
    && s.ranges.map (fun r => (r.low, r.high)) == t.ranges.map (fun r => (r.low, r.high))

def text (t : EnumType) : String :=
  "[declaration] enum[container=" ++ t.container.text ++ ", ranges=\x7b"
    ++ String.intercalate ", " (t.ranges.map EnumRange.text) ++ "\x7d]"

def valueText (t : EnumType) (storage : BitVec 64) : String :=
  "\x7b value = " ++ (t.storageLabel? storage).getD "null"
    ++ ", container = " ++ t.container.valueText storage ++ " \x7d"

end EnumType

end TraceFormat
