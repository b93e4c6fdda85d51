import TraceFormat.Declaration.Integer
import TraceFormat.Declaration.Float
import TraceFormat.Declaration.Enum

/-! # Declarations

A declaration says how the bits of a value are laid out and what they mean.  Arrays, structures and
variants contain declarations, so `Declaration.induction` gives an induction principle with a
hypothesis for every member, and `Declaration.beq` decides equality.  A declaration carries its
alignment, which `Declaration.alignment_struct` and its siblings describe. -/

namespace TraceFormat

/-- The layout and meaning of a value. -/
inductive Declaration where
  | integer (type : IntegerType)
  | float (type : FloatType)
  /-- Bytes up to a NUL. -/
  | string (encoding : Encoding)
  | enum (type : EnumType)
  /-- A fixed number of elements. -/
  | array (length : Nat) (element : Declaration)
  /-- As many elements as the integer bound to a name says. -/
  | sequence (lengthName : String) (element : Declaration)
  /-- Members one after the other. -/
  | struct (minAlignment : Nat) (members : List (String × Declaration))
  /-- The member that the label of the enumeration value bound to `tag` names. -/
  | variant (tag : Option String) (members : List (String × Declaration))
with
  /-- The bits of which the position of a value is a multiple.  A structure is aligned as its most
  demanding member; the members of a variant align themselves.  The number is kept with the
  declaration: members that share a declaration are not gone through again for each of its uses. -/
  @[computed_field]
  alignment : Declaration → Nat
    | .integer t => t.alignment
    | .float t => t.alignment
    | .string _ => 8
    | .enum t => t.container.alignment
    | .array _ d => d.alignment
    | .sequence _ d => d.alignment
    | .struct minAlignment members =>
      (members.attach.map fun ⟨(_, d), h⟩ =>
        have : sizeOf d < sizeOf members := by
          have := List.sizeOf_lt_of_mem h
          simp only [Prod.mk.sizeOf_spec] at this
          omega
        d.alignment).foldl max (max minAlignment 1)
    | .variant _ _ => 1
deriving Repr, Inhabited

/-- Named declarations in order. -/
abbrev Members := List (String × Declaration)

namespace Declaration

/-- Induction over declarations, with a hypothesis for the declaration of every member. -/
theorem induction {motive : Declaration → Prop}
    (integer : ∀ t, motive (.integer t)) (float : ∀ t, motive (.float t))
    (string : ∀ e, motive (.string e)) (enum : ∀ t, motive (.enum t))
    (array : ∀ n d, motive d → motive (.array n d))
    (sequence : ∀ s d, motive d → motive (.sequence s d))
    (struct : ∀ a ms, (∀ m ∈ ms, motive m.2) → motive (.struct a ms))
    (variant : ∀ t ms, (∀ m ∈ ms, motive m.2) → motive (.variant t ms))
    (d : Declaration) : motive d :=
  Declaration.rec (motive_1 := motive) (motive_2 := fun ms => ∀ m ∈ ms, motive m.2)
    (motive_3 := fun m => motive m.2)
    integer float string enum array sequence struct variant
    (by simp) (fun _ _ head tail => by simpa using ⟨head, by simpa using tail⟩)
    (fun _ _ h => h) d

/-! ### Equality -/

mutual

/-- Whether two declarations are equal in every part. -/
def beq : Declaration → Declaration → Bool
  | .integer s, .integer t => s == t
  | .float s, .float t => s == t
  | .string s, .string t => s == t
  | .enum s, .enum t => s == t
  | .array m d, .array n e => m == n && d.beq e
  | .sequence s d, .sequence t e => s == t && d.beq e
  | .struct m ds, .struct n es => m == n && beqMembers ds es
  | .variant s ds, .variant t es => s == t && beqMembers ds es
  | _, _ => false

/-- Whether two lists of members are equal in every part. -/
def beqMembers : Members → Members → Bool
  | [], [] => true
  | (s, d) :: ds, (t, e) :: es => s == t && d.beq e && beqMembers ds es
  | _, _ => false

end

theorem beqMembers_iff {ms : Members} (h : ∀ m ∈ ms, ∀ e, m.2.beq e = true ↔ m.2 = e)
    (ns : Members) : beqMembers ms ns = true ↔ ms = ns := by
  induction ms generalizing ns with
  | nil => cases ns <;> simp [beqMembers]
  | cons m ms ih =>
    cases ns with
    | nil => simp [beqMembers]
    | cons n ns =>
      obtain ⟨s, d⟩ := m
      obtain ⟨t, e⟩ := n
      simp only [List.forall_mem_cons] at h
      simp [beqMembers, h.1, ih h.2]

@[simp] theorem beq_iff (d e : Declaration) : d.beq e = true ↔ d = e := by
  induction d using Declaration.induction generalizing e with
  | integer | float | string | enum => cases e <;> simp [beq]
  | array _ _ ih | sequence _ _ ih => cases e <;> simp [beq, ih]
  | struct _ _ ih | variant _ _ ih => cases e <;> simp [beq, beqMembers_iff ih]

instance : DecidableEq Declaration := fun d e => decidable_of_iff _ (beq_iff d e)

/-! ### Alignment -/

@[simp] theorem alignment_integer (t : IntegerType) :
    (Declaration.integer t).alignment = t.alignment := by
  rw [alignment]

@[simp] theorem alignment_float (t : FloatType) :
    (Declaration.float t).alignment = t.alignment := by
  rw [alignment]

@[simp] theorem alignment_string (e : Encoding) : (Declaration.string e).alignment = 8 := by
  rw [alignment]

@[simp] theorem alignment_enum (t : EnumType) :
    (Declaration.enum t).alignment = t.container.alignment := by
  rw [alignment]

@[simp] theorem alignment_array (n : Nat) (d : Declaration) :
    (Declaration.array n d).alignment = d.alignment := by
  rw [alignment]

@[simp] theorem alignment_sequence (s : String) (d : Declaration) :
    (Declaration.sequence s d).alignment = d.alignment := by
  rw [alignment]

theorem alignment_struct (minAlignment : Nat) (members : Members) :
    (Declaration.struct minAlignment members).alignment =
      (members.map fun m => m.2.alignment).foldl max (max minAlignment 1) := by
  rw [alignment, List.attach_map_val (f := fun m : String × Declaration => m.2.alignment)]

@[simp] theorem alignment_variant (tag : Option String) (members : Members) :
    (Declaration.variant tag members).alignment = 1 := by
  rw [alignment]

end Declaration

/-! ### Structures and variants -/

/-- The declaration of a structure. -/
structure StructType where
  minAlignment : Nat
  members : Members
deriving DecidableEq, Repr, Inhabited

/-- The declaration of a variant. -/
structure VariantType where
  tag : Option String
  members : Members
deriving DecidableEq, Repr, Inhabited

/-- The first member with a name. -/
def Members.find? (members : Members) (name : String) : Option Declaration :=
  (List.find? (fun m => m.1 = name) members).map Prod.snd

def Members.names (members : Members) : List String := members.map Prod.fst

/-- Members with one more at the end, which needs a name of its own. -/
def Members.insert (members : Members) (name : String) (d : Declaration) :
    Except BuildError Members :=
  if name = "" then .error .invalidFieldName
  else if members.names.contains name then .error (.duplicateField name)
  else .ok (members ++ [(name, d)])

namespace StructType

/-- The structure as a declaration. -/
def declaration (t : StructType) : Declaration := .struct t.minAlignment t.members

/-- The bits of which the position of a value is a multiple. -/
def alignment (t : StructType) : Nat := t.declaration.alignment

/-- Adds a member at the end. -/
def insert (t : StructType) (name : String) (d : Declaration) : Except BuildError StructType := do
  return { t with members := ← t.members.insert name d }

end StructType

namespace VariantType

/-- The variant as a declaration. -/
def declaration (t : VariantType) : Declaration := .variant t.tag t.members

/-- Adds a member at the end. -/
def insert (t : VariantType) (name : String) (d : Declaration) : Except BuildError VariantType := do
  return { t with members := ← t.members.insert name d }

end VariantType

end TraceFormat
