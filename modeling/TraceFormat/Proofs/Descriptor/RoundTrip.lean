import Mathlib.Tactic.Common
import TraceFormat.Descriptor.Json

/-! # Descriptors written and read back

A descriptor is written as an object with a member for each of its slots.  Whatever is written so is
read back as it was: the number, text or constant in a slot, the null for one that is left out, the
fields one by one, and so on down to any depth (`Descriptor.read_toJson`).  The reader is more
liberal than the writer, with its lists of slots, its defaults and its members that are passed over;
so it is only what has been read, not the way in which it was put, that comes back
(`descriptors_lossless`). -/

namespace TraceFormat

/-! ### Plain values -/

namespace Json

theorem depth_pos (j : Json) : 0 < j.depth := by
  cases j <;> simp [depth]

variable {α : Type} {read : Json → Option α} {write : α → Json}

@[simp] theorem uint32?_ofNat (n : UInt32) : uint32? (ofNat n.toNat) = some n := by
  have hlt : (n.toNat : Int) < UInt32.size := by exact_mod_cast n.toNat_lt
  simp only [uint32?, ofNat]
  rw [if_pos ⟨Int.natCast_nonneg _, hlt⟩, Int.toNat_natCast, UInt32.ofNat_toNat]

@[simp] theorem uint64?_ofNat (n : UInt64) : uint64? (ofNat n.toNat) = some n := by
  have hlt : (n.toNat : Int) < UInt64.size := by exact_mod_cast n.toNat_lt
  simp only [uint64?, ofNat]
  rw [if_pos ⟨Int.natCast_nonneg _, hlt⟩, Int.toNat_natCast, UInt64.ofNat_toNat]

@[simp] theorem int64?_integer (n : Int64) : int64? (integer n.toInt) = some n := by
  have hle : n.toInt ≤ Int64.maxValue.toInt := n.toInt_le
  rw [int64?, if_pos ⟨n.le_toInt, hle⟩, Int64.ofInt_toInt]

@[simp] theorem string?_string (s : String) : string? (string s) = some s := rfl

@[simp] theorem bool?_bool (b : Bool) : bool? (bool b) = some b := rfl

/-- What may be left out is read back if it is never written as null itself. -/
theorem nullable?_ofOption (h : ∀ a, read (write a) = some a) (hnull : read .null = none)
    (o : Option α) : nullable? read (ofOption write o) = some o := by
  cases o with
  | none => rfl
  | some a =>
      have hread := h a
      rw [ofOption]
      cases hj : write a with
      | null => simp [hj, hnull] at hread
      | _ => simp [nullable?, ← hj, hread]

@[simp] theorem nullable?_uint32 (o : Option UInt32) :
    nullable? uint32? (ofOption (fun n => ofNat n.toNat) o) = some o :=
  nullable?_ofOption uint32?_ofNat rfl o

@[simp] theorem nullable?_uint64 (o : Option UInt64) :
    nullable? uint64? (ofOption (fun n => ofNat n.toNat) o) = some o :=
  nullable?_ofOption uint64?_ofNat rfl o

@[simp] theorem nullable?_string (o : Option String) :
    nullable? string? (ofOption string o) = some o :=
  nullable?_ofOption string?_string rfl o

theorem list?_map (h : ∀ a, read (write a) = some a) (as : List α) :
    list? read (.array (as.map write)) = some as := by
  have hread : (as.map write).mapM read = some as := by
    induction as with
    | nil => rfl
    | cons a as ih => simp [h, ih]
  exact hread

end Json

@[simp] theorem ByteOrder.ofJson?_toJson (inside : Bool) (order : ByteOrder) :
    ofJson? inside order.toJson = some order := by
  cases order <;> rfl

@[simp] theorem Encoding.ofJson?_toJson (inside : Bool) (encoding : Encoding) :
    ofJson? inside encoding.toJson = some encoding := by
  cases encoding <;> rfl

@[simp] theorem Json.nullable?_encoding (inside : Bool) (o : Option Encoding) :
    nullable? (Encoding.ofJson? inside) (ofOption Encoding.toJson o) = some o :=
  nullable?_ofOption (Encoding.ofJson?_toJson inside) rfl o

/-! ### Slots of an object -/

namespace Record

variable {α : Type} {name other : String} (j : Json) (members : List (String × Json)) (slot : Nat)
  (read : Json → Option α)

theorem get?_cons_self : (named ((name, j) :: members)).get? slot name = some j :=
  List.lookup_cons_self

theorem get?_cons_of_ne (h : name ≠ other) :
    (named ((other, j) :: members)).get? slot name = (named members).get? slot name := by
  rw [get?, List.lookup_cons, beq_false_of_ne h, get?]

@[simp] theorem required?_cons_self :
    (named ((name, j) :: members)).required? slot name read = read j := by
  rw [required?, get?_cons_self, Option.bind_some]

@[simp] theorem required?_cons_of_ne (h : name ≠ other) :
    (named ((other, j) :: members)).required? slot name read =
      (named members).required? slot name read := by
  rw [required?, get?_cons_of_ne _ _ _ h, required?]

@[simp] theorem default?_cons_self (value : α) :
    (named ((name, j) :: members)).default? slot name value read = read j := by
  rw [default?, get?_cons_self]

@[simp] theorem default?_cons_of_ne (value : α) (h : name ≠ other) :
    (named ((other, j) :: members)).default? slot name value read =
      (named members).default? slot name value read := by
  rw [default?, get?_cons_of_ne _ _ _ h, default?]

@[simp] theorem optional?_cons_self :
    (named ((name, j) :: members)).optional? slot name read = j.nullable? read := by
  simp only [optional?, get?_cons_self]

@[simp] theorem optional?_cons_of_ne (h : name ≠ other) :
    (named ((other, j) :: members)).optional? slot name read =
      (named members).optional? slot name read := by
  simp only [optional?, get?_cons_of_ne _ _ _ h]
  cases (named members).get? slot name <;> rfl

end Record

/-! ### Integers and ranges -/

@[simp] theorem IntegerDescriptor.ofJson?_toJson (inside : Bool) (d : IntegerDescriptor) :
    ofJson? inside d.toJson = some d := by
  -- as definitional steps these would have the kernel compute with the bounds of the numbers
  simp -implicitDefEqProofs [ofJson?, ofRecord?, toJson, members, Json.record?]

theorem IntegerDescriptor.ofJson?_cons_members (inside : Bool) (d : IntegerDescriptor)
    (tag : Json) : ofJson? inside (.object (("type", tag) :: d.members)) = some d := by
  simp -implicitDefEqProofs [ofJson?, ofRecord?, members, Json.record?]

@[simp] theorem RangeDescriptor.ofJson?_toJson (d : RangeDescriptor) :
    ofJson? d.toJson = some d := by
  simp -implicitDefEqProofs [ofJson?, toJson, Json.record?]

/-! ### Declarations -/

@[simp] theorem Json.tagged?_object (inside : Bool) (tags : List String) (tag : String)
    (members : List (String × Json)) :
    (object (("type", .string tag) :: members)).tagged? inside tags =
      some (tag, .object (("type", .string tag) :: members)) := by
  simp [tagged?, tag?]

namespace Descriptor

/-- What a field is written as lies deeper than the list of the fields. -/
theorem depth_toJson_lt {name : String} {d : Descriptor} {fields : List (String × Descriptor)}
    (h : (name, d) ∈ fields) : d.toJson.depth < Json.itemsDepth (fieldsToJson fields) := by
  induction fields with
  | nil => cases h
  | cons f fields ih =>
      obtain ⟨name', d'⟩ := f
      simp only [fieldsToJson, Json.itemsDepth, namedToJson, Json.depth, Json.membersDepth]
      rcases List.mem_cons.mp h with heq | h
      · obtain ⟨rfl, rfl⟩ := Prod.mk.inj heq
        omega
      · have := ih h
        omega

theorem list?_fieldsToJson {read : Json → Option Descriptor}
    {fields : List (String × Descriptor)} (h : ∀ f ∈ fields, read f.2.toJson = some f.2) :
    Json.list? (namedOfJson? read) (.array (fieldsToJson fields)) = some fields := by
  have hread : (fieldsToJson fields).mapM (namedOfJson? read) = some fields := by
    induction fields with
    | nil => rfl
    | cons f fields ih =>
        obtain ⟨name, d⟩ := f
        rw [List.forall_mem_cons] at h
        simp [fieldsToJson, namedToJson, namedOfJson?, Json.record?, h.1, ih h.2]
  exact hread

/-- A declaration is read back by a reader that looks as deep as it is written. -/
theorem read_toJson (d : Descriptor) {n : Nat} (inside : Bool) (h : d.toJson.depth ≤ n) :
    read n inside d.toJson = some d := by
  -- on how deep the reader still looks, which is less for each part of the description
  induction n generalizing d inside with
  | zero =>
      have := d.toJson.depth_pos
      omega
  | succ n ih =>
      have hfields : ∀ fields, Json.itemsDepth (fieldsToJson fields) < n →
          Json.list? (namedOfJson? (read n true)) (.array (fieldsToJson fields)) = some fields := by
        intro fields hdepth
        refine list?_fieldsToJson fun f hf => ih f.2 true ?_
        have := depth_toJson_lt hf
        omega
      cases d with
      | integer i =>
          simp -implicitDefEqProofs [toJson, read, i.ofJson?_cons_members]
      | float exponent mantissa byteOrder alignment =>
          simp -implicitDefEqProofs [toJson, read, Json.record?]
      | string encoding =>
          simp -implicitDefEqProofs [toJson, read, Json.record?]
      | enum container ranges =>
          simp -implicitDefEqProofs [toJson, read, Json.record?, Json.list?_map]
      | array length element =>
          simp only [toJson, Json.depth, Json.membersDepth] at h
          simp -implicitDefEqProofs [toJson, read, Json.record?, ih element true (by omega)]
      | sequence lengthName element =>
          simp only [toJson, Json.depth, Json.membersDepth] at h
          simp -implicitDefEqProofs [toJson, read, Json.record?, ih element true (by omega)]
      | struct minAlignment fields =>
          simp only [toJson, Json.depth, Json.membersDepth] at h
          simp -implicitDefEqProofs [toJson, read, Json.record?, hfields fields (by omega)]
      | variant tag fields =>
          simp only [toJson, Json.depth, Json.membersDepth] at h
          simp -implicitDefEqProofs [toJson, read, Json.record?, hfields fields (by omega)]
      | reference name =>
          simp -implicitDefEqProofs [toJson, read, Json.record?]

@[simp] theorem ofJson?_toJson (d : Descriptor) : ofJson? d.toJson = some d :=
  d.read_toJson false (Nat.le_refl _)

@[simp] theorem list?_ofJson?_fieldsToJson (fields : List (String × Descriptor)) :
    Json.list? (namedOfJson? ofJson?) (.array (fieldsToJson fields)) = some fields :=
  list?_fieldsToJson fun f _ => f.2.ofJson?_toJson

end Descriptor

/-! ### Structures, events and streams -/

@[simp] theorem StructDescriptor.ofJson?_toJson (d : StructDescriptor) :
    ofJson? d.toJson = some d := by
  simp -implicitDefEqProofs [ofJson?, toJson, Json.record?]

@[simp] theorem Json.nullable?_struct (o : Option StructDescriptor) :
    nullable? StructDescriptor.ofJson? (ofOption StructDescriptor.toJson o) = some o :=
  nullable?_ofOption StructDescriptor.ofJson?_toJson rfl o

@[simp] theorem EventDescriptor.ofJson?_toJson (d : EventDescriptor) :
    ofJson? d.toJson = some d := by
  simp -implicitDefEqProofs [ofJson?, toJson, Json.record?]

@[simp] theorem MetadataDescriptor.ofJson?_toJson (d : MetadataDescriptor) :
    ofJson? d.toJson = some d := by
  simp -implicitDefEqProofs [ofJson?, toJson, Json.record?, Json.list?_map]

/-- Writing a description of whichever kind loses nothing: reading gives it back, and what has been
read from any JSON value at all is read again from what it is written as. -/
theorem descriptors_lossless :
    (∀ d : Descriptor, Descriptor.ofJson? d.toJson = some d) ∧
    (∀ d : EventDescriptor, EventDescriptor.ofJson? d.toJson = some d) ∧
    (∀ d : MetadataDescriptor, MetadataDescriptor.ofJson? d.toJson = some d) ∧
    ∀ j : Json,
      (Descriptor.ofJson? j).bind (fun d => Descriptor.ofJson? d.toJson) = Descriptor.ofJson? j ∧
      (EventDescriptor.ofJson? j).bind (fun d => EventDescriptor.ofJson? d.toJson) =
        EventDescriptor.ofJson? j ∧
      (MetadataDescriptor.ofJson? j).bind (fun d => MetadataDescriptor.ofJson? d.toJson) =
        MetadataDescriptor.ofJson? j := by
  refine ⟨Descriptor.ofJson?_toJson, EventDescriptor.ofJson?_toJson,
    MetadataDescriptor.ofJson?_toJson, fun j => ⟨?_, ?_, ?_⟩⟩
  · simp only [Descriptor.ofJson?_toJson, Option.bind_fun_some]
  · simp only [EventDescriptor.ofJson?_toJson, Option.bind_fun_some]
  · simp only [MetadataDescriptor.ofJson?_toJson, Option.bind_fun_some]

-- A list of slots is read too, but never written.
example : Descriptor.ofJson? (.array [.string "alias", .string "byte"]) = some (.reference "byte") ∧
    (Descriptor.reference "byte").toJson =
      .object [("type", .string "alias"), ("name", .string "byte")] := by
  constructor <;> cbv

end TraceFormat
