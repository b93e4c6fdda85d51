import Mathlib
import TraceFormat.Decode
import TraceFormat.Proofs.Scope.Order

/-! # Names that begin with the path of a frame

A name that begins with the path of a frame and a dot is read from there, and in no other way.  It
may be the name of a field all the same: a structure `s` can have a field `s`, and what is meant by
`s.n` is then the member `n` of that field.  The frame looks for a field `n` of its own instead, and
without one it hides the field that it has (`Frame.Hides`).

So a name that is found among the fields of a frame is found from that frame outward exactly if the
frame does not hide it or a frame further out has it, and no frame hides anything unless one of its
fields is called as its path begins (`Arena.finds_own_iff`).  Where it does, a length or a tag is
not resolved although it was decoded before (`Arena.hidden_field`). -/

namespace TraceFormat

namespace DottedName

theorem head_ofText_append (text rest : String) :
    (ofText (text ++ "." ++ rest)).head = (ofText text).head := by
  simp [ofText, split_append_dot]

end DottedName

theorem Path.relative?_eq_some_iff {p : Path} {name rest : String} :
    p.relative? name = some rest ↔ p.isEmpty = false ∧ name = p.text ++ "." ++ rest := by
  unfold relative?
  cases hp : p.isEmpty with
  | true => simp
  | false =>
      simp only [Bool.false_eq_true, if_false, Option.map_eq_some_iff,
        List.isPrefixOf?_eq_some_iff_append_eq, true_and]
      constructor
      · rintro ⟨chars, hchars, rfl⟩
        apply String.toList_injective
        simp [← hchars]
      · rintro rfl
        exact ⟨rest.toList, by simp, by simp⟩

/-- Whether a name can be taken for the beginning of a path: it is the first part of the path, or
begins with the whole path and a dot. -/
def Path.Meets (p : Path) (name : String) : Prop :=
  name = (DottedName.ofText p.text).head ∨ (p.relative? name).isSome

instance (p : Path) (name : String) : Decidable (p.Meets name) :=
  inferInstanceAs (Decidable (_ ∨ _))

/-- Whether a frame reads a name from its own path and has nothing there. -/
def Frame.Hides (f : Frame) (name : String) : Prop :=
  ∃ rest, f.path.relative? name = some rest ∧ Definition.resolve f.fields rest = none

/-! ### Names among the fields of a frame -/

theorem Definition.exists_name_of_resolve {fields : List Definition} {name : String}
    {d : Definition} (h : resolve fields name = some d) :
    ∃ x ∈ fields, x.name = name ∨ x.name = (DottedName.ofText name).head := by
  have hfield : ∀ {other : String} {x : Definition}, named? fields other = some x →
      x ∈ fields ∧ x.name = other := by
    intro other x hx
    exact ⟨List.mem_of_find?_eq_some hx, by simpa using List.find?_some hx⟩
  have htext := DottedName.text_ofText name
  unfold resolve at h
  generalize DottedName.ofText name = parts at h htext
  obtain ⟨head, rest⟩ := parts
  cases rest with
  | nil =>
      obtain ⟨hx, hname⟩ := hfield h
      exact ⟨d, hx, .inr hname⟩
  | cons part parts =>
      rw [resolveParts] at h
      cases hwhole : named? fields (DottedName.join head (part :: parts)) with
      | some x =>
          obtain ⟨hx, hname⟩ := hfield hwhole
          exact ⟨x, hx, .inl (hname.trans htext)⟩
      | none =>
          cases hhead : named? fields head with
          | some x =>
              obtain ⟨hx, hname⟩ := hfield hhead
              exact ⟨x, hx, .inr hname⟩
          | none => simp [hwhole, hhead] at h

namespace Frame

variable {f : Frame} {name : String} {d : Definition}

theorem resolve_eq_none_iff (h : Definition.resolve f.fields name = some d) :
    f.resolve name = none ↔ f.Hides name := by
  unfold resolve Hides
  cases hrelative : f.path.relative? name with
  | none => simp [h]
  | some rest => simp

theorem exists_meets_of_relative? (h : Definition.resolve f.fields name = some d) {rest : String}
    (hrelative : f.path.relative? name = some rest) : ∃ x ∈ f.fields, f.path.Meets x.name := by
  obtain ⟨x, hx, hname⟩ := Definition.exists_name_of_resolve h
  refine ⟨x, hx, ?_⟩
  rcases hname with hname | hname
  · exact .inr (by simp [hname, hrelative])
  · obtain ⟨-, rfl⟩ := Path.relative?_eq_some_iff.mp hrelative
    rw [DottedName.head_ofText_append] at hname
    exact .inl hname

theorem resolve_eq_of_not_meets (h : Definition.resolve f.fields name = some d)
    (hmeets : ∀ x ∈ f.fields, ¬ f.path.Meets x.name) : f.resolve name = some d := by
  cases hrelative : f.path.relative? name with
  | none => simp [resolve, hrelative, h]
  | some rest =>
      obtain ⟨x, hx, hmeet⟩ := exists_meets_of_relative? h hrelative
      exact absurd hmeet (hmeets x hx)

end Frame

/-! ### Searches from a frame -/

namespace Arena

variable {a : Arena} {id : FrameId} {f : Frame} {name : String} {d : Definition}

theorem finds_iff (hf : a.frame? id = some f) (r : Option Definition) :
    a.Finds name (some id) r ↔
      (∃ v, f.resolve name = some v ∧ r = some v) ∨
        f.resolve name = none ∧ a.Finds name f.parent r := by
  constructor
  · intro h
    cases h with
    | nowhere hnone =>
        rw [Option.bind_some, hf] at hnone
        cases hnone
    | here hf' hr =>
        rw [Option.bind_some, hf] at hf'
        cases hf'
        exact .inl ⟨_, hr, rfl⟩
    | outward hf' hr hparent =>
        rw [Option.bind_some, hf] at hf'
        cases hf'
        exact .inr ⟨hr, hparent⟩
  · rintro (⟨v, hv, rfl⟩ | ⟨hnone, hparent⟩)
    · exact .here hf hv
    · exact .outward hf hnone hparent

/-- A search has one end at most. -/
theorem Finds.unique {i : Option FrameId} {r r' : Option Definition} (h : a.Finds name i r)
    (h' : a.Finds name i r') : r = r' := by
  induction h with
  | nowhere hf =>
      cases h' with
      | nowhere => rfl
      | here hf' | outward hf' => simp [hf] at hf'
  | here hf hr =>
      cases h' with
      | nowhere hf' => simp [hf] at hf'
      | here hf' hr' =>
          rw [hf] at hf'
          cases hf'
          exact hr.symm.trans hr'
      | outward hf' hr' =>
          rw [hf] at hf'
          cases hf'
          simp [hr] at hr'
  | outward hf hr _ ih =>
      cases h' with
      | nowhere hf' => simp [hf] at hf'
      | here hf' hr' =>
          rw [hf] at hf'
          cases hf'
          simp [hr] at hr'
      | outward hf' _ hparent =>
          rw [hf] at hf'
          cases hf'
          exact ih hparent

/-- A name that is found among the fields of a frame is found from the frame outward exactly if the
frame does not hide it or it is found from the parent of the frame.  Where no field is called as the
path of the frame begins, it is what was found among the fields.  These searches are what a lookup
does in an arena that is in order. -/
theorem finds_own_iff (a : Arena) (hf : a.frame? id = some f)
    (h : Definition.resolve f.fields name = some d) :
    ((∃ v, a.Finds name (some id) (some v)) ↔
      ¬ f.Hides name ∨ ∃ v, a.Finds name f.parent (some v)) ∧
    ((∀ x ∈ f.fields, ¬ f.path.Meets x.name) → a.Finds name (some id) (some d)) ∧
    (a.OlderParents → ∀ r, a.lookup? id name = r ↔ a.Finds name (some id) r) := by
  refine ⟨?_, fun hmeets => .here hf (Frame.resolve_eq_of_not_meets h hmeets), fun ho r => ?_⟩
  · simp only [finds_iff hf, ← f.resolve_eq_none_iff h]
    cases f.resolve name <;> simp
  · have hlookup := finds_lookup? ho id name
    constructor
    · rintro rfl
      exact hlookup
    · exact hlookup.unique

theorem finds_own_iff_member :
    let n : Definition := .integer .uint8 ⟨"s.head.", "n"⟩ 3
    let head : Definition := .struct ⟨1, [("n", .integer .uint8)]⟩ ⟨"s.", "head"⟩ [n]
    let f : Frame := ⟨.root "s", some .root, .collecting [head]⟩
    let a := empty.run [.enter .root (.root "s"), .bind ⟨1⟩ head]
    a.frame? ⟨1⟩ = some f ∧ Definition.resolve f.fields "head.n" = some n ∧
      (∀ x ∈ f.fields, ¬ f.path.Meets x.name) ∧ a.Finds "head.n" (some ⟨1⟩) (some n) ∧
      ¬ f.Hides "head.n" := by
  intro n head f a
  have hf : a.frame? ⟨1⟩ = some f := rfl
  have h : Definition.resolve f.fields "head.n" = some n := by
    dsimp only [f, head, n]
    cbv
  have hmeets : ∀ x ∈ f.fields, ¬ f.path.Meets x.name := by
    decide +kernel
  have hrelative : f.path.relative? "head.n" = none := by
    decide +kernel
  obtain ⟨hiff, hown, -⟩ := finds_own_iff a hf h
  refine ⟨hf, h, hmeets, hown hmeets, ?_⟩
  simp [Frame.Hides, hrelative]

/-- In a structure `s` a field `s` has a member `n`, and `s.n` is found in the structure but not
from its frame.  So the length of the sequence after it is not resolved, as it is in a structure of
any other name. -/
theorem hidden_field :
    let n : Definition := .integer .uint8 ⟨"s.s.", "n"⟩ 1
    let inner : Definition := .struct ⟨1, [("n", .integer .uint8)]⟩ ⟨"s.", "s"⟩ [n]
    let ops : List ScopeOp := [.enter .root (.root "s"), .bind ⟨1⟩ inner]
    let d : Declaration := .struct 1 [("s", .struct 1 [("n", .integer .uint8)]),
      ("data", .sequence "s.n" (.integer .uint8))]
    let start : DecodeState := ⟨⟨#[1, 7], 0⟩, .empty⟩
    empty.OpensLive ops ∧ (empty.run ops).bindings ⟨1⟩ = [inner] ∧
      Definition.resolve [inner] "s.n" = some n ∧ (empty.run ops).lookup? ⟨1⟩ "s.n" = none ∧
      d.decode .standard .root "s" start =
        .error (.unresolvedReference "s.n" "s.data") ⟨⟨#[1, 7], 8⟩, .empty⟩ ∧
      ∃ v, d.decode .standard .root "t" start = .ok v ⟨⟨#[1, 7], 16⟩, .empty⟩ := by
  intro n inner ops d start
  refine ⟨?_, rfl, ?_, ?_, ?_, ?_⟩
  · simp [ops, OpensLive, ScopeOp.parent?, Live, apply, enter, add, empty, FrameId.root]
  · dsimp only [inner, n]
    cbv
  · dsimp only [ops, inner, n]
    cbv
  · dsimp only [d, start]
    cbv
  · dsimp only [d, start]
    exact ⟨_, by cbv⟩

end Arena

end TraceFormat
