import Mathlib
import TraceFormat.Proofs.Declaration.Names
import TraceFormat.Proofs.Decode.Conformance
import TraceFormat.Proofs.Decode.Surroundings

/-! # Ways into a value

The names of the members on the way from a value down to another one (`Definition.Way`) say twice
where that one is: appended to the path of the value they are its path, and looked up in the value
they find it.  The path has been put together while the values were decoded, name by name; the
lookup takes the joined names apart again and tries each longer name first.  Both come out at the
same place where no name has a dot and members have names of their own
(`Declaration.path_and_lookup_of_way`).

`Definition.WellNamed` says what each node has to do with this, and each node of a decoded value
does it (`Declaration.wellNamed_of_decodeAt`); what follows for whole ways is by induction on them.

Names are distinct in all declarations that can be built (`Descriptor.everywhere_distinct`). -/

namespace TraceFormat

/-! ### Names joined by dots -/

namespace DottedName

theorem ofText_join {head : String} {rest : List String} (hhead : '.' ∉ head.toList)
    (hrest : ∀ part ∈ rest, '.' ∉ part.toList) : ofText (join head rest) = ⟨head, rest⟩ := by
  induction rest generalizing head with
  | nil => simp [join, ofText, split_of_not_mem hhead]
  | cons part rest ih =>
      rw [List.forall_mem_cons] at hrest
      have hjoin : (join head (part :: rest)).toList =
          head.toList ++ '.' :: (join part rest).toList := by
        simp [join]
      have hparts := ih hrest.1 hrest.2
      rw [ofText, DottedName.mk.injEq] at hparts
      rw [ofText, hjoin, split_append_dot, split_of_not_mem hhead]
      dsimp only
      rw [List.nil_append, List.map_cons, hparts.1, hparts.2, String.ofList_toList]

end DottedName

theorem Path.isEmpty_child (p : Path) {name : String} (hname : name ≠ "") :
    (p.child name).isEmpty = false := by
  rw [isEmpty, text_child, beq_eq_false_iff_ne]
  split_ifs
  · exact hname
  · intro h
    have hlist := congrArg String.toList h
    simp at hlist

theorem Path.text_child_child (p : Path) {name : String} (hname : name ≠ "") (rest : String) :
    ((p.child name).child rest).text = (p.child (name ++ "." ++ rest)).text := by
  rw [text_child, p.isEmpty_child hname, if_neg Bool.false_ne_true, text_child, text_child]
  split_ifs
  · rfl
  · simp only [String.append_assoc]

namespace Definition

/-- `w.Under name x`: the value `x` is the field of the structure `w` that its declaration has under
the name, or the selected member of the variant `w` with this label. -/
inductive Under : Definition → String → Definition → Prop
  | field {t : StructType} {path : Path} {fields : List Definition} {i : Nat} {x : Definition}
      {name : String} :
      fields[i]? = some x → t.members.names[i]? = some name → Under (.struct t path fields) name x
  | selected {t : VariantType} {path : Path} {label : String} {x : Definition}
      {siblings : List Definition} : Under (.variant t path label x siblings) label x

/-- `w.Way name names x`: from `w` the name and then the names lead down to `x`, through members of
structures and selected members of variants. -/
inductive Way : Definition → String → List String → Definition → Prop
  | last {w x : Definition} {name : String} : w.Under name x → Way w name [] x
  | more {w y x : Definition} {name part : String} {parts : List String} :
      w.Under name y → Way y part parts x → Way w name (part :: parts) x

theorem Node.trans {v w x : Definition} (hw : v.Node w) (hx : w.Node x) : v.Node x := by
  induction hx with
  | root => exact hw
  | part _ hmem ih => exact .part ih hmem

namespace Under

variable {w x y : Definition} {name : String}

theorem mem_inside (h : w.Under name x) : x ∈ w.inside := by
  cases h with
  | field hx => exact List.mem_of_getElem? hx
  | selected => exact List.mem_singleton_self x

theorem mem_parts (h : w.Under name x) : x ∈ w.parts := by
  cases h with
  | field hx => exact List.mem_of_getElem? hx
  | selected => exact List.mem_singleton_self x

theorem node (h : w.Under name y) (hx : y.Node x) : w.Node x :=
  Node.trans (.part .root h.mem_parts) hx

end Under

/-! ### One step -/

/-- Whether what is under a name in a value has the path that the name leads to, and the names in
the value are none the same, none empty and without dots. -/
structure WellNamed (w : Definition) : Prop where
  name_ne_empty {name : String} {x : Definition} : w.Under name x → name ≠ ""
  path_eq {name : String} {x : Definition} : w.Under name x → x.path = w.path.child name
  dotFree : ∀ x ∈ w.inside, '.' ∉ x.name.toList
  nodup : (w.inside.map Definition.name).Nodup

theorem named?_of_nodup {fields : List Definition} {x : Definition}
    (h : (fields.map Definition.name).Nodup) (hx : x ∈ fields) : named? fields x.name = some x := by
  cases hfound : named? fields x.name with
  | none =>
      have hnone := List.find?_eq_none.mp hfound x hx
      simp at hnone
  | some y =>
      have hmem : y ∈ fields := List.mem_of_find?_eq_some hfound
      have hname : y.name = x.name := by simpa using List.find?_some hfound
      rw [List.inj_on_of_nodup_map h hmem hx hname]

theorem named?_join_of_dotFree {fields : List Definition}
    (h : ∀ x ∈ fields, '.' ∉ x.name.toList) (head part : String) (parts : List String) :
    named? fields (DottedName.join head (part :: parts)) = none := by
  rw [named?, List.find?_eq_none]
  intro x hx hname
  have hdot := h x hx
  rw [of_decide_eq_true hname] at hdot
  exact hdot (by simp [DottedName.join])

namespace WellNamed

variable {w x : Definition} {name : String}

theorem name_eq (hw : w.WellNamed) (h : w.Under name x) : x.name = name := by
  rw [Definition.name, hw.path_eq h, Path.name_child]

theorem named?_eq (hw : w.WellNamed) (h : w.Under name x) : named? w.inside name = some x := by
  have hfound := named?_of_nodup hw.nodup h.mem_inside
  rwa [hw.name_eq h] at hfound

theorem name_dotFree (hw : w.WellNamed) (h : w.Under name x) : '.' ∉ name.toList := by
  have hdot := hw.dotFree x h.mem_inside
  rwa [hw.name_eq h] at hdot

theorem named?_join_eq_none (hw : w.WellNamed) (part : String) (parts : List String) :
    named? w.inside (DottedName.join name (part :: parts)) = none :=
  named?_join_of_dotFree hw.dotFree name part parts

end WellNamed

/-! ### Whole ways -/

section Ways

variable {w x : Definition} {head : String} {rest : List String}

theorem path_of_way (hw : ∀ y, w.Node y → y.WellNamed) (h : w.Way head rest x) :
    x.path.text = (w.path.child (DottedName.join head rest)).text := by
  induction h with
  | last hx => rw [(hw _ .root).path_eq hx, DottedName.join]
  | @more w y x name part parts hy _ ih =>
      have hnode := hw w .root
      rw [ih fun z hz => hw z (hy.node hz), hnode.path_eq hy,
        Path.text_child_child _ (hnode.name_ne_empty hy), DottedName.join]

/-- The names on a way, tried one after the other, find the value at its end. -/
theorem resolveParts_of_way (hw : ∀ y, w.Node y → y.WellNamed) (h : w.Way head rest x) :
    resolveParts w.inside head rest = some x := by
  induction h with
  | last hx =>
      rw [resolveParts]
      exact (hw _ .root).named?_eq hx
  | @more w y x name part parts hy _ ih =>
      have hnode := hw w .root
      have hrest := ih fun z hz => hw z (hy.node hz)
      rw [resolveParts, hnode.named?_join_eq_none, hnode.named?_eq hy]
      exact hrest

theorem dotFree_of_way (hw : ∀ y, w.Node y → y.WellNamed) (h : w.Way head rest x) :
    '.' ∉ head.toList ∧ ∀ part ∈ rest, '.' ∉ part.toList := by
  induction h with
  | last hx => exact ⟨(hw _ .root).name_dotFree hx, by simp⟩
  | @more w y x name part parts hy _ ih =>
      have hrest := ih fun z hz => hw z (hy.node hz)
      exact ⟨(hw w .root).name_dotFree hy, List.forall_mem_cons.mpr hrest⟩

theorem resolve_of_way (hw : ∀ y, w.Node y → y.WellNamed) (h : w.Way head rest x) :
    resolve w.inside (DottedName.join head rest) = some x := by
  obtain ⟨hhead, hrest⟩ := dotFree_of_way hw h
  rw [resolve, DottedName.ofText_join hhead hrest]
  exact resolveParts_of_way hw h

end Ways

/-! ### Values that conform to their declarations -/

theorem path_of_fields {path : Path} {fields : List Definition} {members : Members} {i : Nat}
    {x : Definition} {name : String}
    (h : List.Forall₂ (Declaration.Field path) fields members) (hx : fields[i]? = some x)
    (hname : members.names[i]? = some name) : x.path = path.child name := by
  obtain ⟨hi, rfl⟩ := List.getElem?_eq_some_iff.mp hx
  rw [Members.names, List.getElem?_map, Option.map_eq_some_iff] at hname
  obtain ⟨member, hmember, rfl⟩ := hname
  obtain ⟨hi', rfl⟩ := List.getElem?_eq_some_iff.mp hmember
  exact ((List.forall₂_iff_get.mp h).2 i hi hi').2.1

theorem map_name_of_fields {path : Path} {fields : List Definition} {members : Members}
    (h : List.Forall₂ (Declaration.Field path) fields members) :
    fields.map Definition.name = members.names := by
  induction h with
  | nil => rfl
  | cons hfield _ ih =>
      rw [List.map_cons, ih, hfield.1, Members.names, Members.names, List.map_cons]

/-- A node that conforms to a declaration with distinct names without dots is well named. -/
theorem wellNamed_of_conforms {limits : Limits} {w : Definition} (hconforms : w.Conforms limits)
    (hdistinct : w.declaration.Everywhere Members.Distinct)
    (hdotFree : w.declaration.Everywhere Members.DotFree) : w.WellNamed := by
  cases w with
  | struct t path fields =>
      obtain ⟨⟨hempty, hnodup⟩, -⟩ := Declaration.everywhere_struct.mp hdistinct
      obtain ⟨hdot, -⟩ := Declaration.everywhere_struct.mp hdotFree
      have hnames := map_name_of_fields hconforms
      constructor
      · rintro name x ⟨-, hname⟩
        exact ne_of_mem_of_not_mem (List.mem_of_getElem? hname) hempty
      · rintro name x ⟨hx, hname⟩
        exact path_of_fields hconforms hx hname
      · intro x hx
        exact hdot _ (hnames ▸ List.mem_map_of_mem hx)
      · rw [inside, hnames]
        exact hnodup
  | variant t path label current siblings =>
      obtain ⟨⟨hempty, -⟩, -⟩ := Declaration.everywhere_variant.mp hdistinct
      obtain ⟨hdot, -⟩ := Declaration.everywhere_variant.mp hdotFree
      obtain ⟨hlabel, -, hpath⟩ := hconforms
      have hname : current.name = label := by rw [Definition.name, hpath, Path.name_child]
      constructor
      · rintro name x ⟨⟩
        exact ne_of_mem_of_not_mem hlabel hempty
      · rintro name x ⟨⟩
        exact hpath
      · intro x hx
        obtain rfl := List.mem_singleton.mp hx
        rw [hname]
        exact hdot label hlabel
      · exact List.nodup_singleton _
  | integer | float | string | enum | array =>
      refine ⟨?_, ?_, ?_, List.nodup_nil⟩
      · rintro name x ⟨⟩
      · rintro name x ⟨⟩
      · rintro x ⟨⟩

/-- What holds of all lists of members in the declaration of a value holds of those in the
declarations of its parts. -/
theorem everywhere_of_mem_parts {limits : Limits} {P : Members → Prop} {w x : Definition}
    (hconforms : w.Conforms limits) (h : w.declaration.Everywhere P) (hx : x ∈ w.parts) :
    x.declaration.Everywhere P := by
  cases w with
  | array d path elements =>
      rw [parts] at hx
      obtain ⟨i, hi, rfl⟩ := List.getElem_of_mem hx
      cases d with
      | array n element =>
          rw [(hconforms.2 i hi).2]
          exact Declaration.everywhere_array.mp h
      | sequence name element =>
          rw [(hconforms.2 i hi).2]
          exact Declaration.everywhere_sequence.mp h
      | _ => cases hconforms
  | struct t path fields =>
      rw [parts] at hx
      obtain ⟨i, hi, rfl⟩ := List.getElem_of_mem hx
      have hfields := List.forall₂_iff_get.mp hconforms
      have hi' : i < t.members.length := hfields.1 ▸ hi
      have hfield : Declaration.Field path fields[i] t.members[i] := hfields.2 i hi hi'
      rw [hfield.2.2]
      exact (Declaration.everywhere_struct.mp h).2 _ (List.getElem_mem hi')
  | variant t path label current siblings =>
      obtain rfl := List.mem_singleton.mp hx
      obtain ⟨-, hfound, -⟩ := hconforms
      obtain ⟨m, hm, hd⟩ := Members.exists_mem_of_find? hfound
      rw [← hd]
      exact (Declaration.everywhere_variant.mp h).2 m hm
  | integer | float | string | enum => cases hx

theorem everywhere_of_node {limits : Limits} {P : Members → Prop} {v x : Definition}
    (hconforms : ∀ w, v.Node w → w.Conforms limits) (h : v.declaration.Everywhere P)
    (hx : v.Node x) : x.declaration.Everywhere P := by
  induction hx with
  | root => exact h
  | part hw hmem ih => exact everywhere_of_mem_parts (hconforms _ hw) ih hmem

end Definition

namespace StructDefinition

variable {x : Definition} {head : String} {rest : List String}

theorem path_of_way (s : StructDefinition) (hs : ∀ y, s.definition.Node y → y.WellNamed)
    (h : s.definition.Way head rest x) :
    x.path.text = if s.path.isEmpty then DottedName.join head rest
      else s.path.text ++ "." ++ DottedName.join head rest := by
  rw [Definition.path_of_way hs h, Path.text_child]
  rfl

theorem lookup?_of_way (s : StructDefinition) (hs : ∀ y, s.definition.Node y → y.WellNamed)
    (h : s.definition.Way head rest x) : s.lookup? (DottedName.join head rest) = some x :=
  Definition.resolve_of_way hs h

end StructDefinition

namespace Declaration

variable {limits : Limits} {d : Declaration} {a : Arena} {scope : FrameId} {path : Path}
  {c : Cursor} {v : Definition} {t : DecodeState}

theorem Decodes.everywhere_of_node {P : Members → Prop} {data : Array UInt8} {s e : Nat}
    {reads : List Read} {x : Definition} (h : Decodes limits data d a scope path s v reads e)
    (hd : d.Everywhere P) (hx : v.Node x) : x.declaration.Everywhere P := by
  rw [← h.declaration_eq] at hd
  exact Definition.everywhere_of_node (fun _ hw => h.conforms_of_node hw) hd hx

theorem wellNamed_of_decodeAt (root : a.Live .root) (hdistinct : d.Everywhere Members.Distinct)
    (hdotFree : d.Everywhere Members.DotFree)
    (h : decodeAt limits d scope path ⟨c, a⟩ = .ok v t) {w : Definition} (hw : v.Node w) :
    w.WellNamed := by
  obtain ⟨reads, e, hdecodes, -⟩ := decodes_of_decodeAt root.next_ne_root h
  exact Definition.wellNamed_of_conforms (hdecodes.conforms_of_node hw)
    (hdecodes.everywhere_of_node hdistinct hw) (hdecodes.everywhere_of_node hdotFree hw)

/-- In a structure of a decoded value the names on the way to a value below it, joined by dots, are
what the path of that value goes on with behind the path of the structure, and looked up in the
structure they find that value. -/
theorem path_and_lookup_of_way (root : a.Live .root) (hdistinct : d.Everywhere Members.Distinct)
    (hdotFree : d.Everywhere Members.DotFree)
    (h : decodeAt limits d scope path ⟨c, a⟩ = .ok v t) {s : StructDefinition}
    (hs : v.Node s.definition) {head : String} {rest : List String} {x : Definition}
    (hx : s.definition.Way head rest x) :
    x.path.text = (if s.path.isEmpty then DottedName.join head rest
      else s.path.text ++ "." ++ DottedName.join head rest) ∧
    s.lookup? (DottedName.join head rest) = some x := by
  have hnamed : ∀ w, s.definition.Node w → w.WellNamed := fun w hw =>
    wellNamed_of_decodeAt root hdistinct hdotFree h (hs.trans hw)
  exact ⟨s.path_of_way hnamed hx, s.lookup?_of_way hnamed hx⟩

theorem path_and_lookup_of_way_selected :
    let kind : EnumType := ⟨.uint8, [⟨0, 0, "a"⟩]⟩
    let inner : Members := [("n", .integer .uint8)]
    let choices : Members := [("a", .struct 1 inner)]
    let members : Members := [("kind", .enum kind), ("body", .variant (some "kind") choices)]
    let x : Definition := .integer .uint8 ⟨"s.body.a.", "n"⟩ 5
    ∃ (s : StructDefinition) (t : DecodeState),
      Arena.empty.Live .root ∧
      (Declaration.struct 1 members).Everywhere Members.Distinct ∧
      (Declaration.struct 1 members).Everywhere Members.DotFree ∧
      decodeAt .standard (.struct 1 members) .root (.root "s") ⟨⟨#[0, 5], 0⟩, .empty⟩ =
        .ok s.definition t ∧
      s.definition.Way "body" ["a", "n"] x ∧
      x.path.text = "s.body.a.n" ∧ s.lookup? "body.a.n" = some x := by
  intro kind inner choices members x
  have root : Arena.empty.Live .root := Nat.zero_lt_one
  have heverywhere : ∀ {P : Members → Prop}, P inner → P choices → P members →
      (Declaration.struct 1 members).Everywhere P := by
    intro P hinner hchoices hmembers
    refine .struct hmembers (List.forall_mem_cons.mpr ⟨.enum kind, ?_⟩)
    refine List.forall_mem_singleton.mpr (.variant hchoices ?_)
    refine List.forall_mem_singleton.mpr (.struct hinner ?_)
    exact List.forall_mem_singleton.mpr (.integer _)
  have hdistinct := heverywhere (P := Members.Distinct) (by decide) (by decide) (by decide)
  have hdotFree := heverywhere (P := Members.DotFree) (by decide) (by decide) (by decide)
  let tag : Definition := .enum kind ⟨"s.", "kind"⟩ 0
  let chosen : Definition := .struct ⟨1, inner⟩ ⟨"s.body.", "a"⟩ [x]
  let body : Definition := .variant ⟨some "kind", choices⟩ ⟨"s.", "body"⟩ "a" chosen [tag]
  let s : StructDefinition := ⟨⟨1, members⟩, .root "s", [tag, body]⟩
  have hdecode : decodeAt .standard (.struct 1 members) .root (.root "s")
      ⟨⟨#[0, 5], 0⟩, .empty⟩ = .ok s.definition ⟨⟨#[0, 5], 16⟩, .empty⟩ := by
    dsimp only [s, body, chosen, tag, x, members, choices, inner, kind,
      StructDefinition.definition]
    cbv
  have hway : s.definition.Way "body" ["a", "n"] x := by
    have hbody : s.definition.Under "body" body := .field (i := 1) rfl rfl
    have hchosen : body.Under "a" chosen := .selected
    have hx : chosen.Under "n" x := .field (i := 0) rfl rfl
    exact .more hbody (.more hchosen (.last hx))
  obtain ⟨hpath, hlookup⟩ := path_and_lookup_of_way root hdistinct hdotFree hdecode .root hway
  exact ⟨s, _, root, hdistinct, hdotFree, hdecode, hway, hpath, hlookup⟩

end Declaration

/-! ### Roots of a record -/

namespace StructType

theorem decodeAt_declaration (limits : Limits) (t : StructType) (scope : FrameId) (path : Path) :
    Declaration.decodeAt limits t.declaration scope path =
      StructDefinition.definition <$> t.decodeAt limits scope path := by
  rw [declaration, Declaration.decodeAt, decodeAt]
  simp only [map_bind, map_pure]
  rfl

/-- Below a root of a record all paths begin with the name of the root, dots and all, and what
follows is looked up in the root. -/
theorem path_and_lookup_of_decodeRoot {limits : Limits} {t : StructType} {root : LexicalRoot}
    {c c' : Cursor} {s : StructDefinition}
    (hdistinct : t.declaration.Everywhere Members.Distinct)
    (hdotFree : t.declaration.Everywhere Members.DotFree)
    (h : t.decodeRoot limits root c = .ok s c') {head : String} {rest : List String}
    {x : Definition} (hx : s.definition.Way head rest x) :
    x.path.text = root.text ++ "." ++ DottedName.join head rest ∧
    s.lookup? (DottedName.join head rest) = some x := by
  have live : Arena.empty.Live .root := Nat.zero_lt_one
  unfold decodeRoot DecodeM.onCursor at h
  cases hdecode : t.decodeAt limits .root root.path ⟨c, .empty⟩ with
  | error e st =>
      rw [hdecode] at h
      cases h
  | ok s' st =>
      rw [hdecode] at h
      obtain ⟨rfl, -⟩ := EStateM.Result.ok.inj h
      have hdefinition : Declaration.decodeAt limits t.declaration .root root.path ⟨c, .empty⟩ =
          .ok s'.definition st := by
        rw [decodeAt_declaration]
        change EStateM.map _ _ _ = _
        rw [EStateM.map, hdecode]
      obtain ⟨_, _, hdecodes, -⟩ := Declaration.decodes_of_decodeAt live.next_ne_root hdefinition
      have hpath : s'.path = root.path := hdecodes.path_eq
      have hroot : root.path.isEmpty = false := by cases root <;> decide
      have hnamed : ∀ w, s'.definition.Node w → w.WellNamed := fun w hw =>
        Declaration.wellNamed_of_decodeAt live hdistinct hdotFree hdefinition hw
      have hx' := s'.path_of_way hnamed hx
      rw [hpath, hroot, if_neg Bool.false_ne_true, LexicalRoot.path, Path.text_root] at hx'
      exact ⟨hx', s'.lookup?_of_way hnamed hx⟩

end StructType

end TraceFormat
