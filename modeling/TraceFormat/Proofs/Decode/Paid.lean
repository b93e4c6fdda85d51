import Mathlib
import TraceFormat.Proofs.Decode.Consumed
import TraceFormat.Proofs.Decode.Layout
import TraceFormat.Proofs.Decode.Selected
import TraceFormat.Proofs.Decode.Sequence

/-! # What elements cost

Every leaf of a value has been read from bits of its own, so a decode advances by as many bits as
the value has leaves, at least (`Declaration.Decodes.paid`).  A value without leaves, such as an
empty structure, an array of no elements or a variant that selects one of these, costs nothing: it
is decoded from an empty region, too, and without a move (`Declaration.Decodes.of_leaves_eq_nil`).

The elements of an array or sequence have leaves all of them or none
(`Declaration.Decodes.elements_leaves`): the lengths and tags that they refer to are leaves
themselves, so that elements without leaves find these outside of them, and there all of them find
the same (`Declaration.Decodes.leaves_eq_nil_of_alike`).  So an array or sequence pays for each of
its elements or for none (`Declaration.elements_paid_or_free`).  Where it pays for none, a length
that is read from the region can be any number, however short the region is
(`Declaration.free_elements`). -/

namespace TraceFormat

/-! ### Values without leaves -/

namespace Definition

theorem leavesAll_append (vs ws : List Definition) :
    leavesAll (vs ++ ws) = leavesAll vs ++ leavesAll ws := by
  induction vs with
  | nil => rfl
  | cons v vs ih => simp [leavesAll, ih]

theorem leavesAll_eq_nil_iff {vs : List Definition} :
    leavesAll vs = [] ↔ ∀ v ∈ vs, v.leaves = [] := by
  induction vs with
  | nil => simp [leavesAll]
  | cons v vs ih => simp [leavesAll, ih]

theorem leavesAll_range_eq_nil_iff {v : Nat → Definition} {n : Nat} :
    leavesAll ((List.range n).map v) = [] ↔ ∀ i < n, (v i).leaves = [] := by
  simp [leavesAll_eq_nil_iff]

theorem length_le_length_leavesAll {vs : List Definition} (h : ∀ v ∈ vs, v.leaves ≠ []) :
    vs.length ≤ (leavesAll vs).length := by
  induction vs with
  | nil => exact Nat.le_refl _
  | cons v vs ih =>
      rw [List.forall_mem_cons] at h
      have hhead : 0 < v.leaves.length := List.length_pos_iff.mpr h.1
      have htail := ih h.2
      simp only [leavesAll, List.length_append, List.length_cons]
      omega

theorem leaves_eq_nil_of_mem_inside {v w : Definition} (h : v.leaves = []) (hw : w ∈ v.inside) :
    w.leaves = [] := by
  cases v with
  | struct t path fields => exact leavesAll_eq_nil_iff.mp h w hw
  | variant t path label current siblings =>
      obtain rfl := List.mem_singleton.mp hw
      exact h
  | integer | float | string | enum | array => cases hw

theorem leaves_eq_nil_of_resolveParts {fields : List Definition} {head : String}
    {rest : List String} {v : Definition} (h : ∀ x ∈ fields, x.leaves = [])
    (hv : resolveParts fields head rest = some v) : v.leaves = [] := by
  have hnamed : ∀ {fields : List Definition} {name : String} {x : Definition},
      (∀ y ∈ fields, y.leaves = []) → named? fields name = some x → x.leaves = [] :=
    fun h hx => h _ (List.mem_of_find?_eq_some hx)
  induction rest generalizing fields head with
  | nil => exact hnamed h hv
  | cons part parts ih =>
      rw [resolveParts] at hv
      split at hv
      next x hx =>
        obtain rfl := Option.some_inj.mp hv
        exact hnamed h hx
      next =>
        split at hv
        next x hx => exact ih (fun y hy => leaves_eq_nil_of_mem_inside (hnamed h hx) hy) hv
        next => cases hv

end Definition

/-! ### Frames that hold the same leaves -/

/-- Whether two frames show the same leaves: they are the same, or have one parent and no leaves. -/
def Frame.Alike (f g : Frame) : Prop :=
  f = g ∨ f.parent = g.parent ∧ (∀ v ∈ f.fields, v.leaves = []) ∧ ∀ v ∈ g.fields, v.leaves = []

theorem Frame.Alike.resolve_eq {f g : Frame} (h : f.Alike g) (name : String) :
    f.resolve name = g.resolve name ∨
      (∀ v, f.resolve name = some v → v.leaves = []) ∧
        ∀ v, g.resolve name = some v → v.leaves = [] := by
  rcases h with rfl | ⟨-, hf, hg⟩
  · exact .inl rfl
  · exact .inr ⟨fun _ hv => Definition.leaves_eq_nil_of_resolveParts hf hv,
      fun _ hv => Definition.leaves_eq_nil_of_resolveParts hg hv⟩

theorem Frame.Alike.parent_eq {f g : Frame} (h : f.Alike g) : f.parent = g.parent := by
  rcases h with rfl | ⟨hparent, -⟩
  · rfl
  · exact hparent

/-- A name that finds leaves along both of two chains of frames that are alike finds one value. -/
theorem findSome?_eq_of_alike {fs gs : List Frame} (h : List.Forall₂ Frame.Alike fs gs)
    {name : String} {v w : Definition} (hv : fs.findSome? (·.resolve name) = some v)
    (hw : gs.findSome? (·.resolve name) = some w) (hvl : v.leaves ≠ []) (hwl : w.leaves ≠ []) :
    v = w := by
  induction h with
  | nil => cases hv
  | @cons f g fs gs hfg _ ih =>
      rw [List.findSome?_cons] at hv hw
      rcases hfg.resolve_eq name with heq | ⟨hf, hg⟩
      · rw [heq] at hv
        cases hg : g.resolve name with
        | none =>
            rw [hg] at hv hw
            exact ih hv hw
        | some x =>
            rw [hg] at hv hw
            exact Option.some_inj.mp (hv.symm.trans hw)
      · cases hfx : f.resolve name with
        | some x =>
            rw [hfx] at hv
            obtain rfl := Option.some_inj.mp hv
            exact absurd (hf _ hfx) hvl
        | none =>
            cases hgx : g.resolve name with
            | some x =>
                rw [hgx] at hw
                obtain rfl := Option.some_inj.mp hw
                exact absurd (hg _ hgx) hwl
            | none =>
                rw [hfx] at hv
                rw [hgx] at hw
                exact ih hv hw

namespace Arena

/-- Whether two arenas have frames that are alike, one by one. -/
def Alike (a b : Arena) : Prop := List.Forall₂ Frame.Alike a.frames b.frames

namespace Alike

variable {a b : Arena}

theorem refl (a : Arena) : a.Alike a := List.forall₂_same.mpr fun _ _ => .inl rfl

theorem next_eq (h : a.Alike b) : a.next = b.next := congrArg FrameId.mk h.length_eq

theorem collecting (h : a.Alike b) (scope : FrameId) {path path' : Path} {fs gs : List Definition}
    (hf : ∀ v ∈ fs, v.leaves = []) (hg : ∀ v ∈ gs, v.leaves = []) :
    (a.collecting scope path fs).Alike (b.collecting scope path' gs) := by
  refine List.rel_append h (.cons (.inr ⟨rfl, ?_, ?_⟩) .nil)
  · exact hf
  · exact hg

theorem frame? (h : a.Alike b) (id : FrameId) :
    (a.frame? id = none ∧ b.frame? id = none) ∨
      ∃ f g, a.frame? id = some f ∧ b.frame? id = some g ∧ f.Alike g := by
  have hlength := h.length_eq
  rcases Nat.lt_or_ge id.index a.frames.length with hlt | hge
  · have hlt' : id.index < b.frames.length := hlength ▸ hlt
    exact .inr ⟨_, _, List.getElem?_eq_getElem hlt, List.getElem?_eq_getElem hlt',
      (List.forall₂_iff_get.mp h).2 _ hlt hlt'⟩
  · exact .inl ⟨List.getElem?_eq_none hge, List.getElem?_eq_none (hlength ▸ hge)⟩

theorem outward (h : a.Alike b) (n : Nat) (id : Option FrameId) :
    List.Forall₂ Frame.Alike (a.outward n id) (b.outward n id) := by
  induction n generalizing id with
  | zero => exact .nil
  | succ n ih =>
      cases id with
      | none => exact .nil
      | some id =>
          simp only [Arena.outward, Option.bind_some]
          rcases h.frame? id with ⟨ha, hb⟩ | ⟨f, g, ha, hb, hfg⟩
          · rw [ha, hb]
            exact .nil
          · rw [ha, hb]
            dsimp only
            rw [← hfg.parent_eq]
            exact .cons hfg (ih f.parent)

theorem lookup?_eq (h : a.Alike b) {scope : FrameId} {name : String} {v w : Definition}
    (hv : a.lookup? scope name = some v) (hw : b.lookup? scope name = some w)
    (hvl : v.leaves ≠ []) (hwl : w.leaves ≠ []) : v = w := by
  rw [lookup?, chain, ← h.length_eq] at hw
  exact findSome?_eq_of_alike (h.outward _ _) hv hw hvl hwl

end Alike

end Arena

/-! ### Decoding -/

/-- Whether a region has a bit of its own for each of `n` leaves that are read from `s` to `e`. -/
def Paid (data : Array UInt8) (s e n : Nat) : Prop :=
  s + n ≤ e ∧ (0 < n → s + n ≤ data.size * 8)

theorem Paid.of_bits {data : Array UInt8} {s unit n : Nat} (hn : 0 < n)
    (hfit : alignUp s unit + n ≤ data.size * 8) : Paid data s (alignUp s unit + n) 1 := by
  have halign := le_alignUp s unit
  exact ⟨by omega, by omega⟩

theorem alignUp_zero (unit : Nat) : alignUp 0 unit = 0 := by
  simp [alignUp]

namespace Declaration

variable {limits : Limits} {data : Array UInt8} {d : Declaration} {a b : Arena} {scope : FrameId}
  {path path' : Path} {s e s' e' : Nat} {v v' : Definition} {reads reads' : List Read}

theorem paid_all {n : Nat} {pos : Nat → Nat} {v : Nat → Definition} (hs : s ≤ pos 0)
    (h : ∀ i < n, Paid data (pos i) (pos (i + 1)) (v i).leaves.length) :
    Paid data s (pos n) (Definition.leavesAll ((List.range n).map v)).length := by
  induction n with
  | zero => exact ⟨hs, nofun⟩
  | succ n ih =>
      obtain ⟨hle, hfit⟩ := ih fun i hi => h i (by omega)
      obtain ⟨hle', hfit'⟩ := h n (Nat.lt_succ_self n)
      rw [List.range_succ, List.map_append, Definition.leavesAll_append, List.length_append]
      simp only [List.map_cons, List.map_nil, Definition.leavesAll, List.append_nil]
      exact ⟨by omega, by omega⟩

/-- A decode advances by a bit for each leaf at least, and within the region. -/
theorem Decodes.paid (h : Decodes limits data d a scope path s v reads e) :
    Paid data s e v.leaves.length := by
  induction h with
  | @integer t _ _ _ _ _ _ h =>
      obtain ⟨hfit, -, rfl⟩ := t.read_eq_ok_iff.mp h
      exact .of_bits t.length_pos hfit
  | @float t _ _ _ _ _ _ h =>
      obtain ⟨hfit, -, rfl⟩ := t.read_eq_ok_iff.mp h
      exact .of_bits t.length_pos hfit
  | @string encoding a scope path s start span hstart hsize hspan hstop =>
      have hne : data.toList.drop start ≠ [] := by
        simpa using hsize
      subst hspan
      have hpos := TextSpan.length_pos hstop hne
      have hle := TextSpan.length_le limits.maxStringLength (data.toList.drop start)
      rw [List.length_drop, Array.length_toList] at hle
      rw [Nat.add_mul, ← hstart]
      exact .of_bits (by omega) (by omega)
  | @enum t _ _ _ _ _ _ h =>
      obtain ⟨hfit, -, rfl⟩ := t.container.read_eq_ok_iff.mp h
      exact .of_bits t.container.length_pos hfit
  | @array n element a scope path pos v reads s hpos _ ih =>
      exact paid_all (hpos ▸ le_alignUp s element.alignment) ih
  | @sequence name n element a scope path pos v reads s _ hpos _ ih =>
      exact paid_all (hpos ▸ le_alignUp s element.alignment) ih
  | @struct minAlignment members a scope path pos v reads s hpos _ ih =>
      exact paid_all (hpos ▸ le_alignUp s _) ih
  | variant _ _ _ ih => exact ih

theorem flatMap_range_nil (n : Nat) : (List.range n).flatMap (fun _ => ([] : List Read)) = [] :=
  List.flatMap_eq_nil_iff.mpr fun _ _ => rfl

/-- A value without leaves is decoded from any region, without a move. -/
theorem Decodes.of_leaves_eq_nil (h : Decodes limits data d a scope path s v reads e)
    (hv : v.leaves = []) (data' : Array UInt8) : Decodes limits data' d a scope path 0 v [] 0 := by
  induction h with
  | integer | float | string | enum => cases hv
  | @array n element a scope path pos v reads s _ _ ih =>
      have hfree := Definition.leavesAll_range_eq_nil_iff.mp hv
      rw [← flatMap_range_nil n]
      exact @Decodes.array limits data' n element a scope path (fun _ => 0) v (fun _ => []) 0
        (alignUp_zero _).symm fun i hi => ih i hi (hfree i hi)
  | @sequence name n element a scope path pos v reads s hn _ _ ih =>
      have hfree := Definition.leavesAll_range_eq_nil_iff.mp hv
      rw [← flatMap_range_nil n]
      exact @Decodes.sequence limits data' name n element a scope path (fun _ => 0) v
        (fun _ => []) 0 hn (alignUp_zero _).symm fun i hi => ih i hi (hfree i hi)
  | @struct minAlignment members a scope path pos v reads s _ _ ih =>
      have hfree := Definition.leavesAll_range_eq_nil_iff.mp hv
      rw [← flatMap_range_nil members.length]
      exact @Decodes.struct limits data' minAlignment members a scope path (fun _ => 0) v
        (fun _ => []) 0 (alignUp_zero _).symm fun i hi => ih i hi (hfree i hi)
  | variant hlabel hd _ ih => exact .variant hlabel hd (ih hv)

/-! ### Elements are alike -/

theorem sequenceLength_eq_of_alike (hab : a.Alike b) {name : String} {n n' : Nat}
    (h : sequenceLength limits name scope path a = .ok n)
    (h' : sequenceLength limits name scope path' b = .ok n') : n = n' := by
  obtain ⟨t, p, storage, hfound, -, rfl⟩ := sequenceLength_eq_ok_iff.mp h
  obtain ⟨t', p', storage', hfound', -, rfl⟩ := sequenceLength_eq_ok_iff.mp h'
  cases hab.lookup?_eq hfound hfound' (List.cons_ne_nil _ _) (List.cons_ne_nil _ _)
  rfl

theorem selectedLabel_eq_of_alike (hab : a.Alike b) {tag : Option String} {label label' : String}
    (h : selectedLabel tag scope path a = .ok label)
    (h' : selectedLabel tag scope path' b = .ok label') : label = label' := by
  obtain ⟨reference, t, p, storage, rfl, hfound, hlabel⟩ := selectedLabel_eq_ok_iff.mp h
  obtain ⟨_, t', p', storage', ⟨rfl⟩, hfound', hlabel'⟩ := selectedLabel_eq_ok_iff.mp h'
  cases hab.lookup?_eq hfound hfound' (List.cons_ne_nil _ _) (List.cons_ne_nil _ _)
  exact Option.some_inj.mp (hlabel.symm.trans hlabel')

/-- A declaration that has no leaves in an arena has none in one that is alike, wherever it stands
in the same or another region. -/
theorem Decodes.leaves_eq_nil_of_alike {data' : Array UInt8}
    (h : Decodes limits data d a scope path s v reads e) (hv : v.leaves = []) (hab : a.Alike b)
    (h' : Decodes limits data' d b scope path' s' v' reads' e') : v'.leaves = [] := by
  induction h generalizing b path' s' v' reads' e' with
  | integer | float | string | enum => cases hv
  | array _ _ ih =>
      cases h' with
      | array _ h' =>
          have hfree := Definition.leavesAll_range_eq_nil_iff.mp hv
          exact Definition.leavesAll_range_eq_nil_iff.mpr fun i hi =>
            ih i hi (hfree i hi) hab (h' i hi)
  | sequence hn _ _ ih =>
      cases h' with
      | sequence hn' _ h' =>
          obtain rfl := sequenceLength_eq_of_alike hab hn hn'
          have hfree := Definition.leavesAll_range_eq_nil_iff.mp hv
          exact Definition.leavesAll_range_eq_nil_iff.mpr fun i hi =>
            ih i hi (hfree i hi) hab (h' i hi)
  | struct _ _ ih =>
      cases h' with
      | struct _ h' =>
          have hfree := Definition.leavesAll_range_eq_nil_iff.mp hv
          refine Definition.leavesAll_range_eq_nil_iff.mpr fun i hi => ?_
          -- the fields before this one have no leaves on either side, so the frames are alike
          induction i using Nat.strong_induction_on with
          | h i hprior =>
              have hfields := h' i hi
              rw [← hab.next_eq] at hfields
              refine ih i hi (hfree i hi) (hab.collecting _ ?_ ?_) hfields
              · exact List.forall_mem_map.mpr fun j hj =>
                  hfree j ((List.mem_range.mp hj).trans hi)
              · exact List.forall_mem_map.mpr fun j hj =>
                  hprior j (List.mem_range.mp hj) ((List.mem_range.mp hj).trans hi)
  | variant hlabel hd _ ih =>
      cases h' with
      | variant hlabel' hd' h' =>
          obtain rfl := selectedLabel_eq_of_alike hab hlabel hlabel'
          obtain rfl := Option.some_inj.mp (hd.symm.trans hd')
          have hcurrent := ih hv hab h'
          exact hcurrent

variable {type : Declaration} {elements : List Definition}

theorem Decodes.exists_elements
    (h : Decodes limits data d a scope path s (.array type path' elements) reads e) :
    ∃ (element : Declaration) (n : Nat) (pos : Nat → Nat) (v : Nat → Definition)
      (reads : Nat → List Read), elements = (List.range n).map v ∧ ∀ i < n,
        Decodes limits data element a scope (path.element i) (pos i) (v i) (reads i)
          (pos (i + 1)) := by
  cases h with
  | array _ h => exact ⟨_, _, _, _, _, rfl, h⟩
  | sequence _ _ h => exact ⟨_, _, _, _, _, rfl, h⟩

/-- The elements of an array have leaves all of them, or none of them has. -/
theorem Decodes.elements_leaves
    (h : Decodes limits data d a scope path s (.array type path' elements) reads e) :
    (∀ x ∈ elements, x.leaves ≠ []) ∨ ∀ x ∈ elements, x.leaves = [] := by
  obtain ⟨element, n, pos, v, reads, rfl, hv⟩ := h.exists_elements
  by_cases hfree : ∃ i < n, (v i).leaves = []
  · obtain ⟨i, hi, hvi⟩ := hfree
    refine .inr (List.forall_mem_map.mpr fun j hj => ?_)
    exact (hv i hi).leaves_eq_nil_of_alike hvi (.refl a) (hv j (List.mem_range.mp hj))
  · refine .inl (List.forall_mem_map.mpr fun j hj hvj => ?_)
    exact hfree ⟨j, List.mem_range.mp hj, hvj⟩

/-! ### Arrays and sequences -/

/-- An array or a sequence that is decoded has elements with leaves, and then the cursor has
advanced by a bit for each of them at least and there are no more of them than bits remained, or its
elements have no leaves, and then all of them are decoded from any region, without a move. -/
theorem elements_paid_or_free {t : DecodeState} (root : a.Live .root)
    (h : decodeAt limits d scope path ⟨⟨data, s⟩, a⟩ = .ok (.array type path' elements) t) :
    ((∀ x ∈ elements, x.leaves ≠ []) ∧ s + elements.length ≤ t.cursor.position ∧
      elements.length ≤ (⟨data, s⟩ : Cursor).remaining) ∨
    (∀ x ∈ elements, x.leaves = []) ∧ ∀ data',
      decodeAt limits d scope path ⟨⟨data', 0⟩, a⟩ =
        .ok (.array type path' elements) ⟨⟨data', 0⟩, a⟩ := by
  obtain ⟨reads, e, hdecodes, rfl⟩ := decodes_of_decodeAt root.next_ne_root h
  rcases hdecodes.elements_leaves with hleaves | hfree
  · have hlength := Definition.length_le_length_leavesAll hleaves
    obtain ⟨hle, hfit⟩ := hdecodes.paid
    rw [Definition.leaves] at hle hfit
    refine .inl ⟨hleaves, (Nat.add_le_add_left hlength s).trans hle, ?_⟩
    change elements.length ≤ data.size * 8 - s
    omega
  · refine .inr ⟨hfree, fun data' => ?_⟩
    have hv := Definition.leavesAll_eq_nil_iff.mpr hfree
    exact (hdecodes.of_leaves_eq_nil hv data').decodeAt_eq_of_root root.next_ne_root

/-- Two bytes, which take two bytes of three. -/
theorem elements_paid_or_free_bytes :
    let bytes : Declaration := .array 2 (.integer .uint8)
    let elements : List Definition := [.integer .uint8 ((Path.root "b").element 0) 7,
      .integer .uint8 ((Path.root "b").element 1) 9]
    Arena.empty.Live .root ∧
      decodeAt .standard bytes .root (.root "b") ⟨⟨#[7, 9, 1], 0⟩, .empty⟩ =
        .ok (.array bytes (.root "b") elements) ⟨⟨#[7, 9, 1], 16⟩, .empty⟩ ∧
      0 + elements.length ≤ 16 ∧ elements.length ≤ (⟨#[7, 9, 1], 0⟩ : Cursor).remaining := by
  intro bytes elements
  have root : Arena.empty.Live .root := Nat.zero_lt_one
  have hdecode : decodeAt .standard bytes .root (.root "b") ⟨⟨#[7, 9, 1], 0⟩, .empty⟩ =
      .ok (.array bytes (.root "b") elements) ⟨⟨#[7, 9, 1], 16⟩, .empty⟩ := by
    unfold bytes elements
    cbv
  rcases elements_paid_or_free root hdecode with ⟨-, hle, hremaining⟩ | ⟨hfree, -⟩
  · exact ⟨root, hdecode, hle, hremaining⟩
  · exact absurd (hfree _ List.mem_cons_self) (List.cons_ne_nil _ _)

/-- Nine empty structures are decoded from a byte that says that they are nine, although the byte
has eight bits and none is left behind it. -/
theorem free_elements :
    let items : Declaration := .sequence "n" (.struct 1 [])
    let members : Members := [("n", .integer .uint8), ("items", items)]
    let n : Definition := .integer .uint8 ⟨"s.", "n"⟩ 9
    let a := (Arena.empty.enter .root (.root "s")).bind ⟨1⟩ n
    let element (i : Nat) : Definition := .struct ⟨1, []⟩ (Path.element ⟨"s.", "items"⟩ i) []
    let elements := (List.range 9).map element
    let v : Definition := .array items ⟨"s.", "items"⟩ elements
    decodeAt .standard (.struct 1 members) .root (.root "s") ⟨⟨#[9], 0⟩, .empty⟩ =
        .ok (.struct ⟨1, members⟩ (.root "s") [n, v]) ⟨⟨#[9], 8⟩, .empty⟩ ∧
      decodeAt .standard items ⟨1⟩ ⟨"s.", "items"⟩ ⟨⟨#[9], 8⟩, a⟩ = .ok v ⟨⟨#[9], 8⟩, a⟩ ∧
      ¬ 8 + elements.length ≤ 8 ∧ ¬ elements.length ≤ (⟨#[9], 8⟩ : Cursor).capacity := by
  intro items members n a element elements v
  refine ⟨?_, ?_, by decide, by decide⟩
  · unfold v elements element n members items
    cbv
  · unfold v elements element a n items
    cbv

end Declaration

end TraceFormat
