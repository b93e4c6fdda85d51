import TraceFormat.Declaration.Text
import TraceFormat.Proofs.Decode.Layout

/-! # The same layout as a congruence

`Declaration.sameLayout` compares declarations pair by pair, each kind in its own way.  What it
compares can be drawn out of a single declaration: `Declaration.layout` is the declaration with
everything left out that moves no bit, and with the alignment of a structure in place of the least
one that it was declared with.  Two declarations have the same layout just if these are equal
(`Declaration.sameLayout_iff`), so that having the same layout is an equivalence for the reason that
equality is one.

It is a congruence as well.  The alignment of a structure is that of its members, and the layout of
a declaration settles its alignment, so declarations of the same layout can take each other's place
as members and elements, at any depth and under any names (`Declaration.Recast`).
`Declaration.sameLayout_congruence` collects these laws. -/

namespace TraceFormat

/-- What an integer type says about bits. -/
structure IntegerLayout where
  length : Nat
  signed : Bool
  byteOrder : ByteOrder
  alignment : Nat
deriving DecidableEq, Repr

/-- What a declaration says about bits. -/
inductive Layout where
  | integer (layout : IntegerLayout)
  | float (type : FloatType)
  | string (encoding : Encoding)
  | enum (container : IntegerLayout) (bounds : List (Int × Int))
  | array (length : Nat) (element : Layout)
  | sequence (element : Layout)
  | struct (alignment : Nat) (members : List Layout)
  | variant (members : List Layout)
deriving Repr

def IntegerType.layout (t : IntegerType) : IntegerLayout :=
  ⟨t.length, t.signed, t.byteOrder, t.alignment⟩

/-- The bounds of the ranges of an enumeration, in order. -/
def EnumType.bounds (t : EnumType) : List (Int × Int) := t.ranges.map fun r => (r.low, r.high)

theorem IntegerType.sameLayout_iff {s t : IntegerType} :
    s.sameLayout t = true ↔ s.layout = t.layout := by
  simp only [sameLayout, layout, Bool.and_eq_true, beq_iff_eq, IntegerLayout.mk.injEq, and_assoc]

theorem EnumType.sameLayout_iff {s t : EnumType} :
    s.sameLayout t = true ↔ s.container.layout = t.container.layout ∧ s.bounds = t.bounds := by
  rw [sameLayout, Bool.and_eq_true, IntegerType.sameLayout_iff, beq_iff_eq]
  rfl

namespace Declaration

mutual

def layout : Declaration → Layout
  | .integer t => .integer t.layout
  | .float t => .float t
  | .string encoding => .string encoding
  | .enum t => .enum t.container.layout t.bounds
  | .array n d => .array n d.layout
  | .sequence _ d => .sequence d.layout
  | .struct a ms => .struct (Declaration.struct a ms).alignment (layouts ms)
  | .variant _ ms => .variant (layouts ms)

def layouts : Members → List Layout
  | [] => []
  | (_, d) :: ms => d.layout :: layouts ms

end

theorem sameLayouts_iff_layouts {ms : Members}
    (h : ∀ m ∈ ms, ∀ e, m.2.sameLayout e = true ↔ m.2.layout = e.layout) {ns : Members} :
    sameLayouts ms ns = true ↔ layouts ms = layouts ns := by
  induction ms generalizing ns with
  | nil => cases ns <;> simp [sameLayouts, layouts]
  | cons m ms ih =>
      cases ns with
      | nil => simp [sameLayouts, layouts]
      | cons n ns =>
          rw [List.forall_mem_cons] at h
          rw [sameLayouts, Bool.and_eq_true, h.1 n.2, ih h.2, layouts, layouts, List.cons.injEq]

/-- To have the same layout is to have equal layouts. -/
theorem sameLayout_iff {d e : Declaration} : d.sameLayout e = true ↔ d.layout = e.layout := by
  induction d using Declaration.induction generalizing e with
  | integer s => cases e <;> simp [sameLayout, layout, IntegerType.sameLayout_iff]
  | float s => cases e <;> simp [sameLayout, layout]
  | string s => cases e <;> simp [sameLayout, layout]
  | enum s => cases e <;> simp [sameLayout, layout, EnumType.sameLayout_iff]
  | array n d ih => cases e <;> simp [sameLayout, layout, ih]
  | sequence s d ih => cases e <;> simp [sameLayout, layout, ih]
  | struct a ms ih => cases e <;> simp [sameLayout, layout, sameLayouts_iff_layouts ih]
  | variant t ms ih => cases e <;> simp [sameLayout, layout, sameLayouts_iff_layouts ih]

variable {d e : Declaration} {ms ns : Members}

/-! ### Laws -/

theorem equivalence_sameLayout : Equivalence fun d e : Declaration => d.sameLayout e = true where
  refl _ := sameLayout_iff.mpr rfl
  symm h := sameLayout_iff.mpr (sameLayout_iff.mp h).symm
  trans h h' := sameLayout_iff.mpr ((sameLayout_iff.mp h).trans (sameLayout_iff.mp h'))

theorem sameLayout_of_beq (h : d.beq e = true) : d.sameLayout e = true := by
  rw [(beq_iff d e).mp h]
  exact equivalence_sameLayout.refl e

theorem kind_eq_of_sameLayout (h : d.sameLayout e = true) : d.kind = e.kind := by
  cases d <;> cases e <;> first | rfl | simp [sameLayout] at h

theorem sameLayout_array {n : Nat} (h : d.sameLayout e = true) :
    (Declaration.array n d).sameLayout (.array n e) = true := by
  rw [sameLayout, h, beq_self_eq_true, Bool.and_self]

theorem sameLayout_sequence {s t : String} (h : d.sameLayout e = true) :
    (Declaration.sequence s d).sameLayout (.sequence t e) = true := by
  rw [sameLayout, h]

theorem alignment_struct_congr {a : Nat}
    (h : List.Forall₂ (fun m n => m.2.sameLayout n.2 = true) ms ns) :
    (Declaration.struct a ms).alignment = (Declaration.struct a ns).alignment := by
  have hmap : ms.map (fun m => m.2.alignment) = ns.map fun n => n.2.alignment := by
    induction h with
    | nil => rfl
    | cons hm _ ih => rw [List.map_cons, List.map_cons, alignment_eq_of_sameLayout hm, ih]
  rw [alignment_struct, alignment_struct, hmap]

theorem sameLayout_struct {a : Nat}
    (h : List.Forall₂ (fun m n => m.2.sameLayout n.2 = true) ms ns) :
    (Declaration.struct a ms).sameLayout (.struct a ns) = true := by
  rw [sameLayout, Bool.and_eq_true, beq_iff_eq]
  exact ⟨alignment_struct_congr h, sameLayouts_iff.mpr h⟩

theorem sameLayout_variant {s t : Option String}
    (h : List.Forall₂ (fun m n => m.2.sameLayout n.2 = true) ms ns) :
    (Declaration.variant s ms).sameLayout (.variant t ns) = true := by
  rw [sameLayout]
  exact sameLayouts_iff.mpr h

/-! ### Replacement at any depth -/

/-- Whether a declaration can be made of another by putting declarations of the same layout for
members and elements, at any depth, and by giving names anew. -/
inductive Recast : Declaration → Declaration → Prop
  | replace {d e : Declaration} : d.sameLayout e = true → Recast d e
  | array {n : Nat} {d e : Declaration} : Recast d e → Recast (.array n d) (.array n e)
  | sequence {s t : String} {d e : Declaration} :
      Recast d e → Recast (.sequence s d) (.sequence t e)
  | struct {a : Nat} {ms ns : Members} : ms.length = ns.length →
      (∀ p ∈ ms.zip ns, Recast p.1.2 p.2.2) → Recast (.struct a ms) (.struct a ns)
  | variant {s t : Option String} {ms ns : Members} : ms.length = ns.length →
      (∀ p ∈ ms.zip ns, Recast p.1.2 p.2.2) → Recast (.variant s ms) (.variant t ns)

theorem Recast.sameLayout (h : Recast d e) : d.sameLayout e = true := by
  induction h with
  | replace h => exact h
  | array _ ih => exact sameLayout_array ih
  | sequence _ ih => exact sameLayout_sequence ih
  | struct hlength _ ih =>
      exact sameLayout_struct (List.forall₂_iff_zip.mpr ⟨hlength, fun hp => ih _ hp⟩)
  | variant hlength _ ih =>
      exact sameLayout_variant (List.forall₂_iff_zip.mpr ⟨hlength, fun hp => ih _ hp⟩)

/-- The laws of an equivalence of declarations that lies between equality and alignment and that
members, elements and names do not leave. -/
structure LayoutCongruence (same : Declaration → Declaration → Prop) : Prop where
  equivalence : Equivalence same
  of_beq {d e : Declaration} : d.beq e = true → same d e
  kind_eq {d e : Declaration} : same d e → d.kind = e.kind
  alignment_eq {d e : Declaration} : same d e → d.alignment = e.alignment
  array {d e : Declaration} (n : Nat) : same d e → same (.array n d) (.array n e)
  sequence {d e : Declaration} (s t : String) :
    same d e → same (.sequence s d) (.sequence t e)
  struct {ms ns : Members} (a : Nat) :
    List.Forall₂ (fun m n => same m.2 n.2) ms ns → same (.struct a ms) (.struct a ns)
  variant {ms ns : Members} (s t : Option String) :
    List.Forall₂ (fun m n => same m.2 n.2) ms ns → same (.variant s ms) (.variant t ns)

/-- To have the same layout is an equivalence that equality implies, that implies the same kind and
the same alignment and that replacing and renaming keeps, also deep inside a declaration. -/
theorem sameLayout_congruence :
    LayoutCongruence (fun d e => d.sameLayout e = true) ∧
      (∀ d e : Declaration, d.sameLayout e = true ↔ d.layout = e.layout) ∧
      ∀ d e : Declaration, Recast d e → d.sameLayout e = true where
  left := {
    equivalence := equivalence_sameLayout
    of_beq := sameLayout_of_beq
    kind_eq := kind_eq_of_sameLayout
    alignment_eq := alignment_eq_of_sameLayout
    array := fun _ => sameLayout_array
    sequence := fun _ _ => sameLayout_sequence
    struct := fun _ => sameLayout_struct
    variant := fun _ _ => sameLayout_variant }
  right := ⟨fun _ _ => sameLayout_iff, fun _ _ => Recast.sameLayout⟩

end Declaration

end TraceFormat
