import Mathlib
import TraceFormat.Proofs.Decode.Run

/-! # A variant is the member that its tag selects

The tag of a variant is looked up and its label compared with those of the members before anything
is read.  Where no member is selected (`Arena.Selects`) the variant is refused, and neither the
cursor nor the arena has changed.  Otherwise the variant is decoded as its selected member, at the
path of the member.

The selected member may hold a variant that is refused itself, with the same error.  What makes an
error a refusal of this variant is that it comes whatever the members are declared to be
(`Declaration.RefusedTag`).  `Declaration.variant_as_member` says when this is, and that members
which are not selected have no part in the outcome: with others in their place, in any order, the
outcome is the same but for the declaration that the value carries
(`Definition.redeclare`).  For one variant the whole outcome, by what its tag is bound to, is
`Declaration.decodeAt_variant_cases`. -/

namespace TraceFormat

namespace Definition

def IsEnum (v : Definition) : Prop := ∃ t p storage, v = .enum t p storage

/-- A variant under another declaration, with the same label, member and siblings. -/
def redeclare (type : VariantType) : Definition → Definition
  | .variant _ path label current siblings => .variant type path label current siblings
  | d => d

end Definition

/-- `a.Selects scope tag members label d`: in the frame `scope` the tag is bound to an enumeration
value with this label, and `d` is the member that has it. -/
def Arena.Selects (a : Arena) (scope : FrameId) (tag : Option String) (members : Members)
    (label : String) (d : Declaration) : Prop :=
  ∃ reference t p storage, tag = some reference ∧
    a.lookup? scope reference = some (.enum t p storage) ∧
    t.storageLabel? storage = some label ∧ members.find? label = some d

theorem Arena.Selects.among {a : Arena} {scope : FrameId} {tag : Option String}
    {members others : Members} {label : String} {d : Declaration}
    (h : a.Selects scope tag members label d) (hothers : others.find? label = some d) :
    a.Selects scope tag others label d := by
  obtain ⟨reference, t, p, storage, htag, hfound, hstorage, -⟩ := h
  exact ⟨reference, t, p, storage, htag, hfound, hstorage, hothers⟩

theorem Members.find?_eq_none_iff {members : Members} {name : String} :
    members.find? name = none ↔ name ∉ members.names := by
  simp only [find?, names, Option.map_eq_none_iff, List.find?_eq_none, List.mem_map, not_exists,
    not_and, decide_eq_true_eq]

theorem Members.exists_find?_eq_some {members : Members} {name : String}
    (h : name ∈ members.names) : ∃ d, members.find? name = some d := by
  cases hfound : members.find? name with
  | none => exact absurd h (find?_eq_none_iff.mp hfound)
  | some d => exact ⟨d, rfl⟩

namespace Declaration

/-- Whether a variant with such a tag and members with these labels is refused with `e`: it fails so
whatever its members are declared to be. -/
def RefusedTag (limits : Limits) (tag : Option String) (labels : List String) (scope : FrameId)
    (path : Path) (s : DecodeState) (e : DecodeError) : Prop :=
  ∀ members : Members, members.names = labels →
    ∃ t, decodeAt limits (.variant tag members) scope path s = .error e t

variable {limits : Limits} {tag : Option String} {members : Members} {label : String}
  {labels : List String} {d : Declaration} {scope : FrameId} {path : Path} {s : DecodeState}
  {a : Arena} {e : DecodeError}

/-! ### The label -/

theorem selectedLabel_of_not_isEnum {reference : String} {v : Definition}
    (h : a.lookup? scope reference = some v) (hv : ¬ v.IsEnum) :
    selectedLabel (some reference) scope path a = .error (.wrongKind reference .enum) := by
  simp only [selectedLabel, h]
  cases v with
  | enum t p storage => exact absurd ⟨t, p, storage, rfl⟩ hv
  | _ => rfl

theorem selectedLabel_eq_ok_iff :
    selectedLabel tag scope path a = .ok label ↔
      ∃ reference t p storage, tag = some reference ∧
        a.lookup? scope reference = some (.enum t p storage) ∧
        t.storageLabel? storage = some label := by
  cases tag with
  | none => simp [selectedLabel]
  | some reference =>
      cases h : a.lookup? scope reference with
      | none => simp [selectedLabel, h]
      | some v =>
          by_cases hv : v.IsEnum
          · obtain ⟨t, p, storage, rfl⟩ := hv
            cases hlabel : t.storageLabel? storage <;> simp [selectedLabel, h, hlabel]
          · rw [selectedLabel_of_not_isEnum h hv]
            have hother : ∀ t p storage, v ≠ .enum t p storage := fun t p storage heq =>
              hv ⟨t, p, storage, heq⟩
            simp [h, hother]

/-- What can be wrong with a tag before the members are looked at, and when it is. -/
theorem selectedLabel_eq_error_iff :
    selectedLabel tag scope path a = .error e ↔
      (tag = none ∧ e = .missingTag path.text) ∨
      (∃ reference, tag = some reference ∧ a.lookup? scope reference = none ∧
        e = .unresolvedReference reference path.text) ∨
      (∃ reference, tag = some reference ∧
        (∃ v, a.lookup? scope reference = some v ∧ ¬ v.IsEnum) ∧ e = .wrongKind reference .enum) ∨
      (∃ reference t p storage, tag = some reference ∧
        a.lookup? scope reference = some (.enum t p storage) ∧ t.storageLabel? storage = none) ∧
        e = .unmatchedTag path.text none := by
  cases tag with
  | none => simp [selectedLabel, eq_comm]
  | some reference =>
      cases h : a.lookup? scope reference with
      | none => simp [selectedLabel, h, eq_comm]
      | some v =>
          by_cases hv : v.IsEnum
          · obtain ⟨t, p, storage, rfl⟩ := hv
            cases hlabel : t.storageLabel? storage <;>
              simp [selectedLabel, h, hlabel, Definition.IsEnum, eq_comm]
          · rw [selectedLabel_of_not_isEnum h hv]
            have hother : ∀ t p storage, v ≠ .enum t p storage := fun t p storage heq =>
              hv ⟨t, p, storage, heq⟩
            simp [h, hv, hother, eq_comm]

/-! ### The member -/

theorem decodeMember_of_find?_eq_none (h : members.find? label = none) :
    decodeMember limits members label scope path s =
      .error (.unmatchedTag path.text (some label)) s := by
  induction members with
  | nil => rw [decodeMember]; rfl
  | cons m members ih =>
      obtain ⟨name, d⟩ := m
      rw [Members.find?_eq_none_iff, Members.names, List.map_cons, List.mem_cons, not_or] at h
      rw [decodeMember, if_neg (Ne.symm h.1)]
      exact ih (Members.find?_eq_none_iff.mpr h.2)

theorem decodeMember_of_find?_eq_some (h : members.find? label = some d) :
    decodeMember limits members label scope path = decodeAt limits d scope (path.child label) := by
  induction members with
  | nil => cases h
  | cons m members ih =>
      obtain ⟨name, d'⟩ := m
      rw [decodeMember]
      split_ifs with hname
      · simp only [Members.find?, hname, decide_true, List.find?_cons_of_pos, Option.map_some,
          Option.some_inj] at h
        rw [h]
      · refine ih ?_
        simpa [Members.find?, hname] using h

theorem decodeAt_variant_of_error (h : selectedLabel tag scope path s.arena = .error e) :
    decodeAt limits (.variant tag members) scope path s = .error e s := by
  have hselect : DecodeM.ofArena (selectedLabel tag scope path) s = .error e s := by
    simp only [DecodeM.ofArena, h]
  rw [decodeAt, bind_eq_error_iff]
  exact .inl hselect

theorem decodeAt_variant_of_ok (h : selectedLabel tag scope path s.arena = .ok label) :
    decodeAt limits (.variant tag members) scope path s =
      ((fun current => .variant ⟨tag, members⟩ path label current (s.arena.bindings scope)) <$>
        decodeMember limits members label scope path) s := by
  have hselect : DecodeM.ofArena (selectedLabel tag scope path) s = .ok label s :=
    DecodeM.ofArena_eq_ok_iff.mpr ⟨h, rfl⟩
  rw [decodeAt]
  simp only [bind, EStateM.bind, hselect]
  rfl

theorem decodeAt_variant_of_find?_eq_none (h : selectedLabel tag scope path s.arena = .ok label)
    (hnone : members.find? label = none) :
    decodeAt limits (.variant tag members) scope path s =
      .error (.unmatchedTag path.text (some label)) s := by
  rw [decodeAt_variant_of_ok h, map_eq_error_iff]
  exact decodeMember_of_find?_eq_none hnone

/-- The members that a variant selects none of can be declared as anything: what matters is their
labels. -/
theorem refusedTag_iff :
    RefusedTag limits tag labels scope path s e ↔
      selectedLabel tag scope path s.arena = .error e ∨
      ∃ label, selectedLabel tag scope path s.arena = .ok label ∧ label ∉ labels ∧
        e = .unmatchedTag path.text (some label) := by
  constructor
  · intro hrefused
    -- members that can always be decoded
    let empties : Members := labels.map fun name => (name, .array 0 (.string .utf8))
    have hnames : empties.names = labels := by
      simp [empties, Members.names, Function.comp_def]
    obtain ⟨t, ht⟩ := hrefused empties hnames
    cases hlabel : selectedLabel tag scope path s.arena with
    | error e' =>
        rw [decodeAt_variant_of_error hlabel] at ht
        exact .inl (congrArg _ (EStateM.Result.error.inj ht).1)
    | ok label =>
        rw [decodeAt_variant_of_ok hlabel, map_eq_error_iff] at ht
        cases hfound : empties.find? label with
        | none =>
            rw [decodeMember_of_find?_eq_none hfound] at ht
            rw [Members.find?_eq_none_iff, hnames] at hfound
            exact .inr ⟨label, rfl, hfound, (EStateM.Result.error.inj ht).1.symm⟩
        | some d =>
            obtain ⟨m, hm, rfl⟩ := Members.exists_mem_of_find? hfound
            obtain ⟨name, -, rfl⟩ := List.mem_map.mp hm
            rw [decodeMember_of_find?_eq_some hfound, decodeAt] at ht
            cases ht
  · rintro (hlabel | ⟨label, hlabel, hnot, rfl⟩) members rfl
    · exact ⟨s, decodeAt_variant_of_error hlabel⟩
    · exact ⟨s, decodeAt_variant_of_find?_eq_none hlabel (Members.find?_eq_none_iff.mpr hnot)⟩

theorem exists_selects_of_not_refusedTag
    (h : ∀ e, ¬ RefusedTag limits tag members.names scope path s e) :
    ∃ label d, s.arena.Selects scope tag members label d := by
  cases hlabel : selectedLabel tag scope path s.arena with
  | error e => exact absurd (refusedTag_iff.mpr (.inl hlabel)) (h e)
  | ok label =>
      have hmem : label ∈ members.names := by
        by_contra hnot
        exact h _ (refusedTag_iff.mpr (.inr ⟨label, hlabel, hnot, rfl⟩))
      obtain ⟨d, hd⟩ := Members.exists_find?_eq_some hmem
      obtain ⟨reference, t, p, storage, htag, hfound, hstorage⟩ := selectedLabel_eq_ok_iff.mp hlabel
      exact ⟨label, d, reference, t, p, storage, htag, hfound, hstorage, hd⟩

theorem decodeAt_of_selects (h : s.arena.Selects scope tag members label d) :
    decodeAt limits (.variant tag members) scope path s =
      ((fun current => .variant ⟨tag, members⟩ path label current (s.arena.bindings scope)) <$>
        decodeAt limits d scope (path.child label)) s := by
  obtain ⟨reference, t, p, storage, htag, hfound, hstorage, hd⟩ := h
  have hlabel : selectedLabel tag scope path s.arena = .ok label :=
    selectedLabel_eq_ok_iff.mpr ⟨reference, t, p, storage, htag, hfound, hstorage⟩
  rw [decodeAt_variant_of_ok hlabel, decodeMember_of_find?_eq_some hd]

theorem decodeAt_variant_apply :
    decodeAt limits (.variant tag members) scope path s =
      match selectedLabel tag scope path s.arena with
      | .error e => .error e s
      | .ok label =>
        match members.find? label with
        | none => .error (.unmatchedTag path.text (some label)) s
        | some d =>
            ((fun current => .variant ⟨tag, members⟩ path label current (s.arena.bindings scope)) <$>
              decodeAt limits d scope (path.child label)) s := by
  cases hlabel : selectedLabel tag scope path s.arena with
  | error e => exact decodeAt_variant_of_error hlabel
  | ok label =>
      dsimp only
      cases hfound : members.find? label with
      | none => exact decodeAt_variant_of_find?_eq_none hlabel hfound
      | some d => rw [decodeAt_variant_of_ok hlabel, decodeMember_of_find?_eq_some hfound]

/-- What becomes of a variant, by what its tag is bound to and whether a member has the label; each
refusal leaves the state as it was. -/
theorem decodeAt_variant_cases :
    decodeAt limits (.variant tag members) scope path s =
      match tag with
      | none => .error (.missingTag path.text) s
      | some reference =>
        match s.arena.lookup? scope reference with
        | none => .error (.unresolvedReference reference path.text) s
        | some (.enum t _ storage) =>
          match t.storageLabel? storage with
          | none => .error (.unmatchedTag path.text none) s
          | some label =>
            match members.find? label with
            | none => .error (.unmatchedTag path.text (some label)) s
            | some d =>
                ((fun current =>
                    .variant ⟨tag, members⟩ path label current (s.arena.bindings scope)) <$>
                  decodeAt limits d scope (path.child label)) s
        | some _ => .error (.wrongKind reference .enum) s := by
  rw [decodeAt_variant_apply]
  cases tag with
  | none => rfl
  | some reference =>
      simp only [selectedLabel]
      cases s.arena.lookup? scope reference with
      | none => rfl
      | some v =>
          cases v with
          | enum t p storage =>
              dsimp only
              cases t.storageLabel? storage <;> rfl
          | _ => rfl

/-- A variant is refused for its tag if it has none, or the tag is found nowhere, or names no
enumeration value, or one without a label or with one that no member has, and then neither the
cursor nor the arena has changed.  Otherwise it succeeds and fails as the member with the label, at
the path of the member, and the other members make no difference but to the declaration. -/
theorem variant_as_member (limits : Limits) (tag : Option String) (members : Members)
    (scope : FrameId) (path : Path) (s : DecodeState) :
    (∀ within, RefusedTag limits tag members.names scope path s (.missingTag within) ↔
      tag = none ∧ within = path.text) ∧
    (∀ reference within,
      RefusedTag limits tag members.names scope path s (.unresolvedReference reference within) ↔
      tag = some reference ∧ s.arena.lookup? scope reference = none ∧ within = path.text) ∧
    (∀ reference expected,
      RefusedTag limits tag members.names scope path s (.wrongKind reference expected) ↔
      tag = some reference ∧ (∃ v, s.arena.lookup? scope reference = some v ∧ ¬ v.IsEnum) ∧
        expected = .enum) ∧
    (∀ within label?,
      RefusedTag limits tag members.names scope path s (.unmatchedTag within label?) ↔
      (∃ reference t p storage, tag = some reference ∧
        s.arena.lookup? scope reference = some (.enum t p storage) ∧
        t.storageLabel? storage = label?) ∧
      (∀ label, label? = some label → label ∉ members.names) ∧ within = path.text) ∧
    (∀ e, RefusedTag limits tag members.names scope path s e →
      decodeAt limits (.variant tag members) scope path s = .error e s) ∧
    ((∀ e, ¬ RefusedTag limits tag members.names scope path s e) →
      ∃ label d, s.arena.Selects scope tag members label d) ∧
    ∀ label d, s.arena.Selects scope tag members label d →
      decodeAt limits (.variant tag members) scope path s =
        ((fun current => .variant ⟨tag, members⟩ path label current (s.arena.bindings scope)) <$>
          decodeAt limits d scope (path.child label)) s ∧
      ∀ others : Members, others.find? label = some d →
        decodeAt limits (.variant tag others) scope path s =
          (Definition.redeclare ⟨tag, others⟩ <$>
            decodeAt limits (.variant tag members) scope path) s := by
  refine ⟨fun _ => ?_, fun _ _ => ?_, fun _ _ => ?_, fun _ label? => ?_, fun e hrefused => ?_,
    exists_selects_of_not_refusedTag, fun label d hselects => ⟨decodeAt_of_selects hselects, ?_⟩⟩
  · simp [refusedTag_iff, selectedLabel_eq_error_iff]
  · simp [refusedTag_iff, selectedLabel_eq_error_iff]
  · simp [refusedTag_iff, selectedLabel_eq_error_iff]
  · cases label? with
    | none => simp [refusedTag_iff, selectedLabel_eq_error_iff]
    | some label => simp [refusedTag_iff, selectedLabel_eq_error_iff, selectedLabel_eq_ok_iff]
  · rcases refusedTag_iff.mp hrefused with hlabel | ⟨label, hlabel, hnot, rfl⟩
    · exact decodeAt_variant_of_error hlabel
    · exact decodeAt_variant_of_find?_eq_none hlabel (Members.find?_eq_none_iff.mpr hnot)
  · intro others hothers
    rw [decodeAt_of_selects (hselects.among hothers),
      map_apply_congr _ (decodeAt_of_selects hselects), Functor.map_map]
    rfl

/-- A byte that is selected by a tag bound to zero, whichever members stand beside it. -/
theorem variant_as_member_byte :
    let kind : EnumType := ⟨.uint8, [⟨0, 0, "a"⟩, ⟨1, 1, "b"⟩]⟩
    let tag : Definition := .enum kind (.root "kind") 0
    let a := Arena.empty.bind .root tag
    let members : Members := [("a", .integer .uint8), ("b", .string .utf8)]
    let others : Members := [("c", .struct 32 []), ("a", .integer .uint8)]
    let byte : Definition := .integer .uint8 ⟨"v.", "a"⟩ 7
    a.Selects .root (some "kind") members "a" (.integer .uint8) ∧
      others.find? "a" = some (.integer .uint8) ∧
      decodeAt .standard (.variant (some "kind") members) .root (.root "v") ⟨⟨#[0, 7], 8⟩, a⟩ =
        .ok (.variant ⟨some "kind", members⟩ (.root "v") "a" byte [tag]) ⟨⟨#[0, 7], 16⟩, a⟩ ∧
      decodeAt .standard (.variant (some "kind") others) .root (.root "v") ⟨⟨#[0, 7], 8⟩, a⟩ =
        .ok (.variant ⟨some "kind", others⟩ (.root "v") "a" byte [tag]) ⟨⟨#[0, 7], 16⟩, a⟩ := by
  intro kind tag a members others byte
  have hfound : a.lookup? .root "kind" = some tag := by cbv
  have hselects : a.Selects .root (some "kind") members "a" (.integer .uint8) :=
    ⟨"kind", kind, .root "kind", 0, rfl, hfound, by decide, rfl⟩
  have hothers : others.find? "a" = some (.integer .uint8) := rfl
  have hmember : decodeAt .standard (.integer .uint8) .root ((Path.root "v").child "a")
      ⟨⟨#[0, 7], 8⟩, a⟩ = .ok byte ⟨⟨#[0, 7], 16⟩, a⟩ := by
    unfold byte
    cbv
  obtain ⟨-, -, -, -, -, -, hselected⟩ :=
    variant_as_member .standard (some "kind") members .root (.root "v") ⟨⟨#[0, 7], 8⟩, a⟩
  obtain ⟨hvariant, halike⟩ := hselected "a" (.integer .uint8) hselects
  have hdecode : decodeAt .standard (.variant (some "kind") members) .root (.root "v")
      ⟨⟨#[0, 7], 8⟩, a⟩ =
        .ok (.variant ⟨some "kind", members⟩ (.root "v") "a" byte [tag]) ⟨⟨#[0, 7], 16⟩, a⟩ := by
    rw [hvariant, map_eq_ok_iff]
    exact ⟨byte, rfl, hmember⟩
  refine ⟨hselects, hothers, hdecode, ?_⟩
  rw [halike others hothers, map_eq_ok_iff]
  exact ⟨_, rfl, hdecode⟩

end Declaration

end TraceFormat
