/-! # JSON values

The values of a JSON text, with the readers that the descriptors need: integers of a fixed width,
named constants and records.

A record (`Record`) is an object with a member for each of its slots or an array with the values of
the slots in order.  A slot may be required, may be left out for a default, or may be null.  A
tagged record has one slot more, in front, for its tag (`Json.tagged?`).

What stands inside a tagged record has a little more freedom: an empty object is as good as a null
where nothing is meant, and a tag may be given by its place in the list of tags. -/

namespace TraceFormat

/-- A JSON value. -/
inductive Json where
  | null
  | bool (value : Bool)
  /-- A number written without fraction and exponent. -/
  | integer (value : Int)
  /-- Any other number, as it is written. -/
  | decimal (text : String)
  | string (value : String)
  | array (items : List Json)
  | object (members : List (String × Json))
deriving Repr, Inhabited

namespace Json

mutual

/-- How deep values are nested, the value itself included. -/
def depth : Json → Nat
  | .array items => itemsDepth items + 1
  | .object members => membersDepth members + 1
  | _ => 1

/-- The depth of the deepest of some items. -/
def itemsDepth : List Json → Nat
  | [] => 0
  | j :: items => max j.depth (itemsDepth items)

/-- The depth of the deepest of some members. -/
def membersDepth : List (String × Json) → Nat
  | [] => 0
  | (_, j) :: members => max j.depth (membersDepth members)

end

/-! ### Plain values -/

def bool? : Json → Option Bool
  | .bool b => some b
  | _ => none

def string? : Json → Option String
  | .string s => some s
  | _ => none

def items? : Json → Option (List Json)
  | .array items => some items
  | _ => none

def uint32? : Json → Option UInt32
  | .integer n => if 0 ≤ n ∧ n < UInt32.size then some (UInt32.ofNat n.toNat) else none
  | _ => none

def uint64? : Json → Option UInt64
  | .integer n => if 0 ≤ n ∧ n < UInt64.size then some (UInt64.ofNat n.toNat) else none
  | _ => none

def int64? : Json → Option Int64
  | .integer n =>
    if Int64.minValue.toInt ≤ n ∧ n ≤ Int64.maxValue.toInt then some (Int64.ofInt n) else none
  | _ => none

/-- Whether a value stands for nothing: a null or, `inside` a tagged record, an empty object. -/
def isNothing (inside : Bool) : Json → Bool
  | .null => true
  | .object [] => inside
  | _ => false

/-- The name of a constant, which may also be written as an object with nothing under the name. -/
def constant? (inside : Bool) : Json → Option String
  | .string s => some s
  | .object [(s, j)] => if j.isNothing inside then some s else none
  | _ => none

/-- A value or null. -/
def nullable? {α : Type} (read : Json → Option α) : Json → Option (Option α)
  | .null => some none
  | j => (read j).map some

/-- A list of values. -/
def list? {α : Type} (read : Json → Option α) (j : Json) : Option (List α) :=
  j.items?.bind (·.mapM read)

/-- The value for an optional value. -/
def ofOption {α : Type} (write : α → Json) : Option α → Json
  | none => .null
  | some a => write a

/-- The value for a natural number. -/
def ofNat (n : Nat) : Json := .integer n

end Json

/-! ### Records -/

/-- The values of the slots of a record. -/
inductive Record where
  /-- The slots by name, among other members. -/
  | named (members : List (String × Json))
  /-- The slots in order. -/
  | listed (items : List Json)
deriving Repr

/-- A value as a record of so many slots. -/
def Json.record? (slots : Nat) : Json → Option Record
  | .object members => some (.named members)
  | .array items => if items.length ≤ slots then some (.listed items) else none
  | _ => none

/-- The tag that a value names or, `inside` a tagged record, the one at the place that it gives. -/
def Json.tag? (inside : Bool) (tags : List String) : Json → Option String
  | .string tag => some tag
  | .integer n => if inside ∧ 0 ≤ n then tags[n.toNat]? else none
  | _ => none

/-- The tag of a tagged record, and the record. -/
def Json.tagged? (inside : Bool) (tags : List String) : Json → Option (String × Json)
  | .object members =>
    ((members.lookup "type").bind (tag? inside tags)).map fun tag => (tag, .object members)
  | .array (j :: items) => (j.tag? inside tags).map fun tag => (tag, .array items)
  | _ => none

namespace Record

/-- What stands in a slot, which is given by its place and its name. -/
def get? (r : Record) (slot : Nat) (name : String) : Option Json :=
  match r with
  | .named members => members.lookup name
  | .listed items => items[slot]?

/-- Reads a slot that may not be left out. -/
def required? {α : Type} (r : Record) (slot : Nat) (name : String) (read : Json → Option α) :
    Option α := (r.get? slot name).bind read

/-- Reads a slot that has a default. -/
def default? {α : Type} (r : Record) (slot : Nat) (name : String) (value : α)
    (read : Json → Option α) : Option α :=
  match r.get? slot name with
  | none => some value
  | some j => read j

/-- Reads a slot that may be null or, if it has a name, be left out. -/
def optional? {α : Type} (r : Record) (slot : Nat) (name : String) (read : Json → Option α) :
    Option (Option α) :=
  match r.get? slot name, r with
  | none, .named _ => some none
  | none, .listed _ => none
  | some j, _ => j.nullable? read

end Record

end TraceFormat
