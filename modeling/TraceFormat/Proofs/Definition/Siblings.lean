import Mathlib
import TraceFormat.Proofs.Definition.Ways

/-! # What a variant sees

A variant keeps what its frame held when it was decoded.  The frame is that of the structure around
it, filled field by field, and neither arrays nor variants enter frames of their own; so the
siblings of a variant are the fields before the one that it is in, however many elements and
selected members lead to it (`Definition.Leads`).

Looked up in a variant, a name that begins with one of these fields finds what it finds in the
finished structure, any other name finds nothing, and the name of the variant itself finds its
selected member (`Declaration.lookup_in_variant`). -/

namespace TraceFormat

namespace Definition

/-- `x.Leads w`: the value `w` is `x` or lies in it, below elements of arrays and selected members
of variants but below no structure. -/
inductive Leads : Definition → Definition → Prop
  | refl {x : Definition} : Leads x x
  | element {d : Declaration} {path : Path} {elements : List Definition} {x w : Definition} :
      x ∈ elements → Leads x w → Leads (.array d path elements) w
  | selected {t : VariantType} {path : Path} {label : String} {x w : Definition}
      {siblings : List Definition} :
      Leads x w → Leads (.variant t path label x siblings) w

/-! ### Names among the first fields -/

variable {fields : List Definition}

theorem named?_take (fields : List Definition) (i : Nat) (name : String) :
    named? (fields.take i) name =
      if name ∈ (fields.take i).map Definition.name then named? fields name else none := by
  have hsplit : named? fields name =
      (named? (fields.take i) name).or (named? (fields.drop i) name) := by
    rw [named?, named?, named?, ← List.find?_append, List.take_append_drop]
  split_ifs with hname
  · obtain ⟨x, hx, rfl⟩ := List.mem_map.mp hname
    cases hfound : named? (fields.take i) x.name with
    | none =>
        have hnone := List.find?_eq_none.mp hfound x hx
        simp at hnone
    | some y => rw [hsplit, hfound, Option.some_or]
  · rw [named?, List.find?_eq_none]
    intro x hx hxname
    exact hname (List.mem_map.mpr ⟨x, hx, of_decide_eq_true hxname⟩)

theorem resolve_take (h : ∀ x ∈ fields, '.' ∉ x.name.toList) (i : Nat) (name : String) :
    resolve (fields.take i) name =
      if (DottedName.ofText name).head ∈ (fields.take i).map Definition.name
      then resolve fields name else none := by
  have htake : ∀ x ∈ fields.take i, '.' ∉ x.name.toList := fun x hx => h x (List.mem_of_mem_take hx)
  simp only [resolve]
  generalize DottedName.ofText name = parts
  obtain ⟨head, rest⟩ := parts
  cases rest with
  | nil => exact named?_take fields i head
  | cons part parts =>
      dsimp only
      rw [resolveParts, resolveParts, named?_join_of_dotFree h, named?_join_of_dotFree htake,
        named?_take]
      split_ifs <;> rfl

end Definition

namespace Declaration

variable {limits : Limits} {data : Array UInt8} {d : Declaration} {a : Arena} {scope : FrameId}
  {path : Path} {s e : Nat} {v x : Definition} {reads : List Read}

/-- The siblings of a variant are what the frame held in which it was decoded. -/
theorem Decodes.siblings_eq (h : Decodes limits data d a scope path s x reads e)
    {type : VariantType} {p : Path} {label : String} {current : Definition}
    {siblings : List Definition}
    (hx : x.Leads (.variant type p label current siblings)) : siblings = a.bindings scope := by
  generalize hw : Definition.variant type p label current siblings = w at hx
  induction hx generalizing d path s reads e with
  | refl =>
      subst hw
      cases h with
      | variant => rfl
  | element hmem _ ih =>
      cases h with
      | array _ helements | sequence _ _ helements =>
          obtain ⟨i, hi, rfl⟩ := List.mem_map.mp hmem
          exact ih (helements i (List.mem_range.mp hi)) hw
  | selected _ ih =>
      cases h with
      | variant _ _ hcurrent => exact ih hcurrent hw

theorem Decodes.exists_of_field {type : StructType} {p : Path} {fields : List Definition} {i : Nat}
    (h : Decodes limits data d a scope path s (.struct type p fields) reads e)
    (hx : fields[i]? = some x) :
    ∃ d b frame path s reads e, Decodes limits data d b frame path s x reads e ∧
      b.bindings frame = fields.take i := by
  cases h with
  | @struct minAlignment members _ _ _ pos v reads _ _ hfields =>
      obtain ⟨hi, rfl⟩ := List.getElem?_eq_some_iff.mp hx
      rw [List.length_map, List.length_range] at hi
      refine ⟨_, _, _, _, _, _, _, by simpa using hfields i hi, ?_⟩
      rw [a.bindings_collecting, ← List.map_take, List.take_range, Nat.min_eq_left hi.le]

theorem Decodes.name_dotFree {type : StructType} {p : Path} {fields : List Definition}
    (h : Decodes limits data d a scope path s (.struct type p fields) reads e)
    (hdotFree : type.members.DotFree) : ∀ x ∈ fields, '.' ∉ x.name.toList := by
  intro x hx
  have hnames := Definition.map_name_of_fields h.conforms
  exact hdotFree _ (hnames ▸ List.mem_map_of_mem hx)

/-- In a structure that was decoded, a variant that is in the field at `i` has its selected member
under its own name; under any other name it has what the structure has, if the name begins with that
of a field before `i`, and nothing else. -/
theorem lookup_in_variant {c : Cursor} {t : DecodeState} (root : a.Live .root)
    (hdotFree : d.Everywhere Members.DotFree)
    (h : decodeAt limits d scope path ⟨c, a⟩ = .ok v t) {struct : StructDefinition}
    (hstruct : v.Node struct.definition) {i : Nat} (hx : struct.fields[i]? = some x)
    {type : VariantType} {p : Path} {label : String} {current w : Definition}
    {siblings : List Definition} (hw : w = .variant type p label current siblings)
    (hlead : x.Leads w) :
    w.lookup? w.name = some current ∧
    ∀ name, name ≠ w.name → w.lookup? name =
      if (DottedName.ofText name).head ∈ struct.names.take i then struct.lookup? name
      else none := by
  obtain ⟨_, _, hdecodes, -⟩ := decodes_of_decodeAt root.next_ne_root h
  obtain ⟨_, _, _, _, _, _, _, hnode⟩ := hdecodes.exists_of_node hstruct
  obtain ⟨_, b, frame, _, _, _, _, hfield, hbindings⟩ := hnode.exists_of_field hx
  have hsiblings : siblings = struct.fields.take i := by
    subst hw
    rw [hfield.siblings_eq hlead, hbindings]
  have hmembers : struct.type.members.DotFree :=
    (everywhere_struct.mp (hdecodes.everywhere_of_node hdotFree hstruct)).1
  subst hw
  refine ⟨if_pos rfl, fun name hname => ?_⟩
  have hlookup : (Definition.variant type p label current siblings).lookup? name =
      Definition.resolve siblings name := if_neg hname
  rw [hlookup, hsiblings, Definition.resolve_take (hnode.name_dotFree hmembers), List.map_take]
  rfl

/-- A variant in an array sees the fields before the array and not the array. -/
theorem lookup_in_variant_element :
    let kind : EnumType := ⟨.uint8, [⟨0, 0, "a"⟩]⟩
    let choices : Members := [("a", .integer .uint8)]
    let element : Declaration := .variant (some "kind") choices
    let members : Members :=
      [("kind", .enum kind), ("n", .integer .uint8), ("body", .array 1 element)]
    let tag : Definition := .enum kind ⟨"s.", "kind"⟩ 0
    let n : Definition := .integer .uint8 ⟨"s.", "n"⟩ 5
    let current : Definition := .integer .uint8 ⟨"s.body[0].", "a"⟩ 7
    let w : Definition := .variant ⟨some "kind", choices⟩ ⟨"s.", "body[0]"⟩ "a" current [tag, n]
    ∃ (struct : StructDefinition) (x : Definition) (t : DecodeState),
      Arena.empty.Live .root ∧ (Declaration.struct 1 members).Everywhere Members.DotFree ∧
      decodeAt .standard (.struct 1 members) .root (.root "s") ⟨⟨#[0, 5, 7], 0⟩, .empty⟩ =
        .ok struct.definition t ∧
      struct.fields[2]? = some x ∧ x.Leads w ∧ w.lookup? "body[0]" = some current ∧
      w.lookup? "n" = struct.lookup? "n" ∧ w.lookup? "body" = none := by
  intro kind choices element members tag n current w
  have root : Arena.empty.Live .root := Nat.zero_lt_one
  have hdotFree : (Declaration.struct 1 members).Everywhere Members.DotFree := by
    refine .struct (by decide) (List.forall_mem_cons.mpr ⟨.enum kind, ?_⟩)
    refine List.forall_mem_cons.mpr ⟨.integer _, List.forall_mem_singleton.mpr (.array ?_)⟩
    exact .variant (by decide) (List.forall_mem_singleton.mpr (.integer _))
  let x : Definition := .array (.array 1 element) ⟨"s.", "body"⟩ [w]
  let struct : StructDefinition := ⟨⟨1, members⟩, .root "s", [tag, n, x]⟩
  have hdecode : decodeAt .standard (.struct 1 members) .root (.root "s")
      ⟨⟨#[0, 5, 7], 0⟩, .empty⟩ = .ok struct.definition ⟨⟨#[0, 5, 7], 24⟩, .empty⟩ := by
    dsimp only [struct, x, w, current, n, tag, members, element, choices, kind,
      StructDefinition.definition]
    cbv
  have hlead : x.Leads w := .element (List.mem_singleton_self w) .refl
  obtain ⟨hown, hother⟩ :=
    lookup_in_variant root hdotFree hdecode .root (i := 2) rfl rfl hlead
  have hn := hother "n" (by decide)
  have hbody := hother "body" (by decide)
  rw [if_pos (by decide)] at hn
  rw [if_neg (by decide)] at hbody
  exact ⟨struct, x, _, root, hdotFree, hdecode, rfl, hlead, hown, hn, hbody⟩

end Declaration

end TraceFormat
