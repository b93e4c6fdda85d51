import TraceFormat.Declaration.Layout
import TraceFormat.Proofs.Decode.InStep
import TraceFormat.Proofs.Decode.Run

/-! # Declarations with the same layout

`Declaration.sameLayout` compares a few parts of each kind of declaration and leaves the others out:
names, labels, bases, the least alignment that a structure was declared with.  None of these moves a
bit.  Where no sequence and no variant occurs (`Declaration.SelfContained`), so that nothing depends
on names, declarations with the same layout decode alike from everywhere: to values with the same
leaves (`Definition.leaves`) or to the same fault, at the same position
(`Declaration.decode_of_sameLayout`).

The two decodes enter frames of their own and bind different values there, so they are followed in
two arenas (`Declaration.Parallel`); both have these arenas back at the end. -/

namespace TraceFormat

open TraceFormat.FloatingPoint (Binary64)

/-! ### Leaves and faults -/

/-- What has been read for a value that contains no others. -/
inductive Leaf where
  | integer (storage : BitVec 64)
  | float (value : Binary64)
  | string (text : String)
  | enum (storage : BitVec 64)
deriving DecidableEq, Repr

namespace Definition

mutual

/-- The leaves of a value, from left to right. -/
def leaves : Definition → List Leaf
  | .integer _ _ storage => [.integer storage]
  | .float _ _ value => [.float value]
  | .string _ _ text => [.string text]
  | .enum _ _ storage => [.enum storage]
  | .array _ _ elements => leavesAll elements
  | .struct _ _ fields => leavesAll fields
  | .variant _ _ _ current _ => current.leaves

def leavesAll : List Definition → List Leaf
  | [] => []
  | d :: ds => d.leaves ++ leavesAll ds

end

/-- Whether two values hold the same leaves. -/
def SameLeaves (v w : Definition) : Prop := v.leaves = w.leaves

theorem leavesAll_congr {vs ws : List Definition} (h : List.Forall₂ SameLeaves vs ws) :
    leavesAll vs = leavesAll ws := by
  induction h with
  | nil => rfl
  | cons hv _ ih => exact congrArg₂ _ hv ih

end Definition

/-- Whether two errors are one fault: the same failed read, or texts that are both longer than the
same limit.  The places that they name may differ. -/
def DecodeError.SameFault : DecodeError → DecodeError → Prop
  | .read e, .read f => e = f
  | .stringTooLong _ max, .stringTooLong _ max' => max = max'
  | _, _ => False

/-- Whether two decodes have ended alike: with the same leaves or the same fault, in one state. -/
def SameReading : EStateM.Result DecodeError DecodeState Definition →
    EStateM.Result DecodeError DecodeState Definition → Prop
  | .ok v s, .ok w t => v.SameLeaves w ∧ s = t
  | .error e s, .error f t => e.SameFault f ∧ s = t
  | _, _ => False

/-- Both decodes have to end with the same fault. -/
def Tolerance.faults : Tolerance DecodeError := ⟨DecodeError.SameFault, fun _ => False⟩

theorem DecodeState.Apart.eq {a : Arena} {s t : DecodeState} (h : Apart Eq a a s t) : s = t := by
  obtain ⟨c, b⟩ := s
  obtain ⟨c', b'⟩ := t
  obtain ⟨hc, hb, hb'⟩ := h
  exact congrArg₂ DecodeState.mk hc (hb.trans hb'.symm)

/-! ### What the same layout says -/

theorem IntegerType.alignment_eq_of_sameLayout {s t : IntegerType} (h : s.sameLayout t = true) :
    s.alignment = t.alignment := by
  simp only [sameLayout, Bool.and_eq_true, beq_iff_eq] at h
  exact h.2

theorem IntegerType.read_eq_of_sameLayout {s t : IntegerType} (h : s.sameLayout t = true) :
    s.read = t.read := by
  simp only [sameLayout, Bool.and_eq_true, beq_iff_eq] at h
  obtain ⟨⟨⟨hlength, hsigned⟩, horder⟩, halign⟩ := h
  rw [read, read, hlength, hsigned, horder, halign]

theorem EnumType.container_of_sameLayout {s t : EnumType} (h : s.sameLayout t = true) :
    s.container.sameLayout t.container = true := by
  rw [sameLayout, Bool.and_eq_true] at h
  exact h.1

namespace Declaration

open DecodeState (Apart)

theorem sameLayouts_iff {ms ns : Members} :
    sameLayouts ms ns = true ↔ List.Forall₂ (fun m n => m.2.sameLayout n.2 = true) ms ns := by
  induction ms generalizing ns with
  | nil => cases ns <;> simp [sameLayouts]
  | cons m ms ih => cases ns <;> simp [sameLayouts, ih]

theorem alignment_eq_of_sameLayout {d e : Declaration} (h : d.sameLayout e = true) :
    d.alignment = e.alignment := by
  induction d using Declaration.induction generalizing e with
  | integer s =>
      cases e with
      | integer t =>
          rw [alignment_integer, alignment_integer]
          exact IntegerType.alignment_eq_of_sameLayout h
      | _ => simp [sameLayout] at h
  | enum s =>
      cases e with
      | enum t =>
          rw [alignment_enum, alignment_enum]
          exact IntegerType.alignment_eq_of_sameLayout (EnumType.container_of_sameLayout h)
      | _ => simp [sameLayout] at h
  | array n d ih =>
      cases e with
      | array n' e =>
          rw [sameLayout, Bool.and_eq_true] at h
          rw [alignment_array, alignment_array, ih h.2]
      | _ => simp [sameLayout] at h
  | sequence name d ih =>
      cases e with
      | sequence name' e =>
          rw [sameLayout] at h
          rw [alignment_sequence, alignment_sequence, ih h]
      | _ => simp [sameLayout] at h
  | float | string | struct | variant => cases e <;> simp_all [sameLayout]

/-- A declaration in which no sequence and no variant occurs: no length and no tag in it depends on
what has been decoded before. -/
inductive SelfContained : Declaration → Prop
  | integer (t : IntegerType) : SelfContained (.integer t)
  | float (t : FloatType) : SelfContained (.float t)
  | string (encoding : Encoding) : SelfContained (.string encoding)
  | enum (t : EnumType) : SelfContained (.enum t)
  | array {n : Nat} {element : Declaration} :
      SelfContained element → SelfContained (.array n element)
  | struct {minAlignment : Nat} {members : Members} :
      (∀ m ∈ members, SelfContained m.2) → SelfContained (.struct minAlignment members)

/-! ### Decoding alike -/

theorem inStep_align_apart (unit : Nat) (a b : Arena) :
    InStep .faults (Apart Eq a b) Eq (DecodeM.align unit) (DecodeM.align unit) :=
  DecodeM.inStep_ofRead_apart (fun _ => rfl) (inStep_self _)

/-- Values that are made of one read have the same leaves if they hold what was read. -/
theorem inStep_leaf {α : Type} {a b : Arena} (x : ReadM α) {f g : α → Definition}
    (h : ∀ v, (f v).SameLeaves (g v)) :
    InStep .faults (Apart Eq a b) Definition.SameLeaves
      (DecodeM.ofRead x >>= fun v => pure (f v)) (DecodeM.ofRead x >>= fun v => pure (g v)) :=
  (DecodeM.inStep_ofRead_apart (fun _ => rfl) (inStep_self x)).bind_eq fun v => inStep_pure (h v)

theorem inStep_decodeText_apart (limits : Limits) (encoding : Encoding) (a b : Arena)
    (path path' : Path) :
    InStep .faults (Apart Eq a b) Eq (decodeText limits encoding path)
      (decodeText limits encoding path') := by
  rintro ⟨⟨data, s⟩, _⟩ ⟨_, _⟩ ⟨rfl, rfl, rfl⟩
  obtain ⟨start, hstart⟩ := exists_alignUp_eight s
  rw [decodeText_apply limits encoding path data _ hstart,
    decodeText_apply limits encoding path' data _ hstart]
  split_ifs
  · exact .error rfl ⟨rfl, rfl, rfl⟩
  · dsimp only
    split
    · exact .error rfl ⟨rfl, rfl, rfl⟩
    · exact .ok rfl ⟨rfl, rfl, rfl⟩

/-- Declarations with the same layout read the same leaves, wherever in their arenas they are
decoded. -/
theorem SelfContained.parallel {limits : Limits} {d e : Declaration} (hd : d.SelfContained)
    (h : d.sameLayout e = true) :
    Parallel .faults Eq Definition.SameLeaves limits limits d e := by
  induction hd generalizing e with
  | integer s =>
      cases e with
      | integer t =>
          intro a b scope scope' _ _ path path'
          rw [decodeAt, decodeAt, IntegerType.read_eq_of_sameLayout h]
          exact inStep_leaf t.read fun _ => rfl
      | _ => simp [sameLayout] at h
  | float s =>
      cases e with
      | float t =>
          obtain rfl : s = t := by simpa [sameLayout] using h
          intro a b scope scope' _ _ path path'
          rw [decodeAt, decodeAt]
          exact inStep_leaf s.read fun _ => rfl
      | _ => simp [sameLayout] at h
  | string s =>
      cases e with
      | string t =>
          obtain rfl : s = t := by simpa [sameLayout] using h
          intro a b scope scope' _ _ path path'
          rw [decodeAt, decodeAt]
          exact (inStep_decodeText_apart limits s a b path path').bind_eq fun _ => inStep_pure rfl
      | _ => simp [sameLayout] at h
  | enum s =>
      cases e with
      | enum t =>
          intro a b scope scope' _ _ path path'
          rw [decodeAt, decodeAt,
            IntegerType.read_eq_of_sameLayout (EnumType.container_of_sameLayout h)]
          exact inStep_leaf t.container.read fun _ => rfl
      | _ => simp [sameLayout] at h
  | @array n element _ ih =>
      cases e with
      | array n' element' =>
          rw [sameLayout, Bool.and_eq_true, beq_iff_eq] at h
          obtain ⟨rfl, helement⟩ := h
          intro a b scope scope' live live' path path'
          have helements := DecodeM.inStep_forIndices
            (fun i => ih helement live live' (path.element i) (path'.element i)) n 0 .nil
          rw [decodeAt, decodeAt, alignment_eq_of_sameLayout helement]
          refine (inStep_align_apart _ a b).bind_eq fun _ => ?_
          exact helements.bind_pure fun _ _ hvs => Definition.leavesAll_congr hvs
      | _ => simp [sameLayout] at h
  | @struct minAlignment members _ ih =>
      cases e with
      | struct minAlignment' members' =>
          have halign := alignment_eq_of_sameLayout h
          rw [sameLayout, Bool.and_eq_true, sameLayouts_iff] at h
          have hmembers : List.Forall₂
              (fun m m' => m.2.Parallel .faults Eq Definition.SameLeaves limits limits m'.2)
              members members' := by
            -- the induction is over the first declaration, so its members have to be known as such
            have hboth := (List.forall₂_and_left (p := (· ∈ members)) members members').mpr
              ⟨fun _ hm => hm, h.2⟩
            exact hboth.imp fun m m' hm => @ih m hm.1 m'.2 hm.2
          intro a b scope scope' live live' path path'
          rw [decodeAt, decodeAt, halign]
          refine (inStep_align_apart _ a b).bind_eq fun _ => ?_
          have hfields : InStep .faults (Apart Eq a b) (List.Forall₂ Definition.SameLeaves)
              (DecodeM.collectIn scope path fun id => decodeFields limits members id)
              (DecodeM.collectIn scope' path' fun id => decodeFields limits members' id) :=
            DecodeM.inStep_collectFields live.next_ne_root live'.next_ne_root hmembers
          exact hfields.bind_pure fun _ _ hvs => Definition.leavesAll_congr hvs
      | _ => simp [sameLayout] at h

/-- Two declarations with the same layout are decoded alike, under whichever names: both give
values with the same leaves or both end with the same fault, in the same state. -/
theorem decode_of_sameLayout (limits : Limits) {d e : Declaration} (hd : d.SelfContained)
    (h : d.sameLayout e = true) (c : Cursor) {a : Arena} {scope : FrameId} (live : a.Live scope)
    (name name' : String) :
    SameReading (decode limits d scope name ⟨c, a⟩) (decode limits e scope name' ⟨c, a⟩) := by
  have hparallel : Parallel .faults Eq Definition.SameLeaves limits limits d e := hd.parallel h
  have hagree := hparallel live live (a.fieldPath scope name) (a.fieldPath scope name') ⟨c, a⟩
    ⟨c, a⟩ ⟨rfl, rfl, rfl⟩
  rw [decode_apply, decode_apply]
  generalize decodeAt limits d scope (a.fieldPath scope name) ⟨c, a⟩ = r,
    decodeAt limits e scope (a.fieldPath scope name') ⟨c, a⟩ = r' at hagree
  cases hagree with
  | ok hv hs => exact ⟨hv, hs.eq⟩
  | error he hs => exact ⟨he, hs.eq⟩
  | alone he => exact he.elim

theorem decode_of_sameLayout_renamed :
    let byte : IntegerType := { IntegerType.uint8 with base := 16 }
    let state : EnumType := ⟨.uint8, [⟨0, 9, "idle"⟩]⟩
    let level : EnumType := ⟨byte, [⟨0, 9, "low"⟩]⟩
    let d : Declaration := .struct 1 [("state", .enum state), ("n", .integer .uint8)]
    let e : Declaration := .struct 8 [("level", .enum level), ("size", .integer byte)]
    let s : DecodeState := ⟨⟨#[0, 5, 7], 3⟩, .empty⟩
    let t : DecodeState := ⟨⟨#[0, 5, 7], 24⟩, .empty⟩
    d.SelfContained ∧ d.sameLayout e = true ∧ Arena.empty.Live .root ∧
      ∃ v w, decode .standard d .root "s" s = .ok v t ∧ decode .standard e .root "t" s = .ok w t ∧
        v.leaves = [.enum 5, .integer 7] ∧ w.leaves = v.leaves := by
  intro byte state level d e s t
  have hd : d.SelfContained := .struct (by simp [SelfContained.integer, SelfContained.enum])
  have hlayout : d.sameLayout e = true := by
    dsimp only [d, e, state, level, byte]
    cbv
  have live : Arena.empty.Live .root := Nat.zero_lt_one
  have hdecode : decode .standard d .root "s" s =
      .ok (.struct ⟨1, [("state", .enum state), ("n", .integer .uint8)]⟩ (.root "s")
        [.enum state ⟨"s.", "state"⟩ 5, .integer .uint8 ⟨"s.", "n"⟩ 7]) t := by
    dsimp only [d, s, t, state]
    cbv
  have hsame := decode_of_sameLayout .standard hd hlayout s.cursor live "s" "t"
  refine ⟨hd, hlayout, live, ?_⟩
  rw [hdecode] at hsame ⊢
  cases hr : decode .standard e .root "t" s with
  | ok w t' =>
      rw [hr] at hsame
      obtain ⟨hleaves, rfl⟩ := hsame
      exact ⟨_, w, rfl, rfl, by simp [Definition.leaves, Definition.leavesAll], hleaves.symm⟩
  | error _ _ =>
      rw [hr] at hsame
      exact hsame.elim

end Declaration

end TraceFormat
