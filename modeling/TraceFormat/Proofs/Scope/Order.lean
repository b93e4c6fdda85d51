import Mathlib.Logic.Relation
import Mathlib.Tactic.Common
import TraceFormat.Scope

/-! # Frames lie in older frames

A lookup goes from a frame outward, from parent to parent, without a count of its steps
(`Arena.Finds`).  It comes to an end where the parent of each frame is older than the frame
(`Arena.OlderParents`), for then the frames that it visits become older and older until it reaches
the root.

Nothing but the opening of a frame can spoil this order, and only if the parent that is named is
closed at that time: its index may then be that of the new frame itself, or of one that is yet to
come.  So the parents of a run are older throughout exactly if all frames are opened in live ones
(`Arena.run_olderParents_iff`).  A frame that lies in itself is never left (`Arena.not_finds`). -/

namespace TraceFormat

/-- Whether a frame is open to lookups, which it is until it is closed. -/
def Arena.Live (a : Arena) (id : FrameId) : Prop := id.index < a.frames.length

/-! ### Runs -/

/-- A change to an arena. -/
inductive ScopeOp where
  | enter (parent : FrameId) (path : Path)
  | attach (parent : FrameId) (struct : StructDefinition)
  | bind (id : FrameId) (value : Definition)
  | close (id : FrameId)
deriving Repr

namespace ScopeOp

/-- The frame that a change names. -/
def target : ScopeOp → FrameId
  | enter parent _ => parent
  | attach parent _ => parent
  | bind id _ => id
  | close id => id

/-- The frame in which a change opens another one, if it does. -/
def parent? : ScopeOp → Option FrameId
  | enter parent _ => some parent
  | attach parent _ => some parent
  | bind _ _ => none
  | close _ => none

end ScopeOp

namespace Arena

/-- Makes a change. -/
def apply (a : Arena) : ScopeOp → Arena
  | .enter parent path => a.enter parent path
  | .attach parent struct => a.attach parent struct
  | .bind id value => a.bind id value
  | .close id => a.close id

/-- Makes changes one after the other. -/
def run (a : Arena) (ops : List ScopeOp) : Arena := ops.foldl apply a

/-- The frame that a change gives out, if it opens one. -/
def issued (a : Arena) (op : ScopeOp) : List FrameId := (op.parent?.map fun _ => a.next).toList

/-- Whether a run names only frames that are known or have been given out in it before, the closed
ones included. -/
def Legal : List FrameId → Arena → List ScopeOp → Prop
  | _, _, [] => True
  | ids, a, op :: ops => op.target ∈ ids ∧ Legal (ids ++ a.issued op) (a.apply op) ops

/-- Whether a run opens frames only in live ones. -/
def OpensLive : Arena → List ScopeOp → Prop
  | _, [] => True
  | a, op :: ops => (∀ p, op.parent? = some p → a.Live p) ∧ (a.apply op).OpensLive ops

/-- Whether the parent of each frame is older than the frame. -/
def OlderParents (a : Arena) : Prop := ∀ id p, a.parent? id = some p → p.index < id.index

/-- Whether there is a root and all other frames have parents. -/
def Grounded (a : Arena) : Prop :=
  a.Live .root ∧ ∀ id, a.Live id → id ≠ .root → ∃ p, a.parent? id = some p

/-- `Finds a name id r`: the search for a name from a frame outward ends with `r`. -/
inductive Finds (a : Arena) (name : String) : Option FrameId → Option Definition → Prop
  | nowhere {id : Option FrameId} : id.bind a.frame? = none → Finds a name id none
  | here {id : Option FrameId} {f : Frame} {d : Definition} :
      id.bind a.frame? = some f → f.resolve name = some d → Finds a name id (some d)
  | outward {id : Option FrameId} {f : Frame} {r : Option Definition} :
      id.bind a.frame? = some f → f.resolve name = none → Finds a name f.parent r →
      Finds a name id r

/-! ### Parents after a change -/

variable {a : Arena}

theorem live_of_parent? {id p : FrameId} (h : a.parent? id = some p) : a.Live id := by
  obtain ⟨f, hf, -⟩ := Option.bind_eq_some_iff.mp h
  exact (List.getElem?_eq_some_iff.mp hf).1

theorem parent?_add_of_live {f : Frame} {id : FrameId} (h : a.Live id) :
    (a.add f).parent? id = a.parent? id := by
  rw [parent?, parent?, frame?, frame?, add, List.getElem?_append_left h]

theorem parent?_add_next (f : Frame) : (a.add f).parent? a.next = f.parent := by
  simp [parent?, frame?, add, next]

theorem live_add {f : Frame} {id : FrameId} : (a.add f).Live id ↔ a.Live id ∨ id = a.next := by
  obtain ⟨i⟩ := id
  simp only [Live, add, next, List.length_append, List.length_singleton, FrameId.mk.injEq]
  omega

theorem parent?_bind (id : FrameId) (d : Definition) (i : FrameId) :
    (a.bind id d).parent? i = a.parent? i := by
  unfold parent? frame? bind
  rw [List.getElem?_modify]
  cases a.frames[i.index]? with
  | none => rfl
  | some f =>
      change (if id.index = i.index then f.bind d else f).parent = f.parent
      split_ifs
      · unfold Frame.bind
        split <;> rfl
      · rfl

theorem live_bind {id i : FrameId} {d : Definition} : (a.bind id d).Live i ↔ a.Live i := by
  simp [Live, bind]

theorem live_close {id i : FrameId} :
    (a.close id).Live i ↔ a.Live i ∧ (id ≠ .root → i.index < id.index) := by
  unfold close
  split_ifs with h
  · simp [h]
  · simp only [Live, List.length_take, ne_eq, h, not_false_eq_true, forall_const]
    omega

theorem parent?_close {id i : FrameId} (h : (a.close id).Live i) :
    (a.close id).parent? i = a.parent? i := by
  have hlt := (live_close.mp h).2
  unfold close
  split_ifs with hroot
  · rfl
  · rw [parent?, parent?, frame?, frame?, List.getElem?_take_of_lt (hlt hroot)]

/-! ### The order of frames -/

theorem olderParents_add_iff {f : Frame} (h : a.OlderParents) :
    (a.add f).OlderParents ↔ ∀ p, f.parent = some p → a.Live p := by
  constructor
  · intro h' p hp
    exact h' a.next p ((parent?_add_next f).trans hp)
  · intro h' id p hp
    rcases live_add.mp (live_of_parent? hp) with hlive | rfl
    · exact h id p ((parent?_add_of_live hlive).symm.trans hp)
    · exact h' p ((parent?_add_next f).symm.trans hp)

/-- A change keeps the order exactly if what it opens lies in a live frame. -/
theorem olderParents_apply_iff (op : ScopeOp) (h : a.OlderParents) :
    (a.apply op).OlderParents ↔ ∀ p, op.parent? = some p → a.Live p := by
  cases op with
  | enter parent path => exact olderParents_add_iff h
  | attach parent struct => exact olderParents_add_iff h
  | bind id value =>
      refine iff_of_true (fun i p hp => h i p ?_) (fun p hp => by cases hp)
      rwa [apply, parent?_bind] at hp
  | close id =>
      refine iff_of_true (fun i p hp => h i p ?_) (fun p hp => by cases hp)
      rwa [apply, parent?_close (live_of_parent? hp)] at hp

theorem olderParents_empty : empty.OlderParents := by
  intro id p hp
  obtain ⟨f, hf, hparent⟩ := Option.bind_eq_some_iff.mp hp
  obtain ⟨hlt, rfl⟩ := List.getElem?_eq_some_iff.mp hf
  simp [empty] at hparent

theorem forall_prefix_cons {P : Arena → Prop} {op : ScopeOp} {ops : List ScopeOp} :
    (∀ pre, pre <+: op :: ops → P (a.run pre)) ↔
      P a ∧ ∀ pre, pre <+: ops → P ((a.apply op).run pre) := by
  constructor
  · intro h
    refine ⟨h [] List.nil_prefix, fun pre hpre => ?_⟩
    exact h (op :: pre) ((List.prefix_cons_inj op).mpr hpre)
  · rintro ⟨hstart, hrest⟩ pre hpre
    rcases List.prefix_cons_iff.mp hpre with rfl | ⟨rest, rfl, hpre'⟩
    · exact hstart
    · exact hrest rest hpre'

/-- The order holds throughout a run exactly if all frames are opened in live ones. -/
theorem run_olderParents_iff (ops : List ScopeOp) (h : a.OlderParents) :
    (∀ pre, pre <+: ops → (a.run pre).OlderParents) ↔ a.OpensLive ops := by
  induction ops generalizing a with
  | nil => simpa [OpensLive, run] using h
  | cons op ops ih =>
      rw [forall_prefix_cons, OpensLive, ← olderParents_apply_iff op h]
      constructor
      · rintro ⟨-, hrest⟩
        have hop : (a.apply op).OlderParents := hrest [] List.nil_prefix
        exact ⟨hop, (ih hop).mp hrest⟩
      · rintro ⟨hop, hrest⟩
        exact ⟨h, (ih hop).mpr hrest⟩

theorem grounded_apply (op : ScopeOp) (h : a.Grounded) : (a.apply op).Grounded := by
  obtain ⟨hroot, hparents⟩ := h
  have hadd : ∀ f : Frame, f.parent.isSome → (a.add f).Grounded := by
    intro f hf
    refine ⟨live_add.mpr (.inl hroot), fun id hlive hne => ?_⟩
    rcases live_add.mp hlive with hlive | rfl
    · rw [parent?_add_of_live hlive]
      exact hparents id hlive hne
    · rw [parent?_add_next]
      exact Option.isSome_iff_exists.mp hf
  cases op with
  | enter parent path => exact hadd _ rfl
  | attach parent struct => exact hadd _ rfl
  | bind id value =>
      refine ⟨live_bind.mpr hroot, fun i hlive hne => ?_⟩
      rw [apply, parent?_bind]
      exact hparents i (live_bind.mp hlive) hne
  | close id =>
      refine ⟨live_close.mpr ⟨hroot, fun hne => ?_⟩, fun i hlive hne => ?_⟩
      · exact Nat.pos_of_ne_zero fun e => hne (congrArg FrameId.mk e)
      · rw [apply, parent?_close hlive]
        exact hparents i (live_close.mp hlive).1 hne

theorem grounded_run (ops : List ScopeOp) (h : a.Grounded) : (a.run ops).Grounded := by
  induction ops generalizing a with
  | nil => exact h
  | cons op ops ih => exact ih (grounded_apply op h)

theorem grounded_empty : empty.Grounded := by
  refine ⟨Nat.zero_lt_one, fun id hlive hne => absurd ?_ hne⟩
  exact congrArg FrameId.mk (Nat.lt_one_iff.mp hlive)

/-! ### Searches outward -/

theorem reaches_root (hg : a.Grounded) (ho : a.OlderParents) {id : FrameId} (live : a.Live id) :
    Relation.ReflTransGen (fun i p => a.parent? i = some p) id .root := by
  obtain ⟨index⟩ := id
  induction index using Nat.strongRecOn with
  | ind index ih =>
      by_cases hroot : (⟨index⟩ : FrameId) = .root
      · rw [hroot]
      · obtain ⟨p, hp⟩ := hg.2 _ live hroot
        have hlt : p.index < index := ho _ p hp
        exact .head hp (ih p.index hlt (Nat.lt_trans hlt live))

/-- As many steps as the index of a frame allows are enough for a search from there. -/
theorem finds_outward (ho : a.OlderParents) (name : String) {n : Nat} {id : Option FrameId}
    (h : ∀ i, id = some i → i.index < n) :
    a.Finds name id ((a.outward n id).findSome? (·.resolve name)) := by
  induction n generalizing id with
  | zero =>
      cases id with
      | none => exact .nowhere rfl
      | some i => exact absurd (h i rfl) (Nat.not_lt_zero _)
  | succ n ih =>
      cases hf : id.bind a.frame? with
      | none =>
          rw [outward, hf]
          exact .nowhere hf
      | some f =>
          rw [outward, hf]
          cases hr : f.resolve name with
          | some d =>
              rw [List.findSome?_cons, hr]
              exact .here hf hr
          | none =>
              rw [List.findSome?_cons, hr]
              -- the parent is older, so one step less is enough from there
              refine .outward hf hr (ih fun p hp => ?_)
              obtain ⟨i, rfl, hi⟩ := Option.bind_eq_some_iff.mp hf
              have hlt := ho i p (Option.bind_eq_some_iff.mpr ⟨f, hi, hp⟩)
              exact Nat.lt_of_lt_of_le hlt (Nat.lt_succ_iff.mp (h i rfl))

theorem frame?_eq_none_iff {id : FrameId} : a.frame? id = none ↔ ¬ a.Live id := by
  simp [frame?, Live]

theorem chain_eq_nil {id : FrameId} (h : ¬ a.Live id) : a.chain id = [] := by
  have hf : (some id).bind a.frame? = none := frame?_eq_none_iff.mpr h
  unfold chain
  cases a.frames.length with
  | zero => rfl
  | succ n => rw [outward, hf]

/-- In an arena that is in order, every search ends, with what `lookup?` gives. -/
theorem finds_lookup? (ho : a.OlderParents) (id : FrameId) (name : String) :
    a.Finds name (some id) (a.lookup? id name) := by
  by_cases live : a.Live id
  · refine finds_outward ho name fun i hi => ?_
    cases hi
    exact live
  · rw [lookup?, chain_eq_nil live]
    exact .nowhere (frame?_eq_none_iff.mpr live)

/-- A search does not leave a frame that lies in itself and does not have the name. -/
theorem not_finds {name : String} {id : FrameId} {f : Frame} (hf : a.frame? id = some f)
    (hp : f.parent = some id) (hr : f.resolve name = none) (r : Option Definition) :
    ¬ a.Finds name (some id) r := by
  intro h
  generalize hi : some id = i at h
  induction h with
  | nowhere hf' =>
      subst hi
      rw [Option.bind_some, hf] at hf'
      cases hf'
  | here hf' hr' =>
      subst hi
      rw [Option.bind_some, hf] at hf'
      cases hf'
      rw [hr] at hr'
      cases hr'
  | outward hf' _ _ ih =>
      subst hi
      rw [Option.bind_some, hf] at hf'
      cases hf'
      exact ih hp.symm

/-- The parents of a run are older throughout exactly if it opens frames only in live ones; then
parents lead from every live frame to the root and every search ends. -/
theorem older_parents_iff_opens_live (ops : List ScopeOp) :
    ((∀ pre, pre <+: ops → (empty.run pre).OlderParents) ↔ empty.OpensLive ops) ∧
    (empty.OpensLive ops →
      (∀ id, (empty.run ops).Live id →
        Relation.ReflTransGen (fun i p => (empty.run ops).parent? i = some p) id .root) ∧
      ∀ id name, (empty.run ops).Finds name (some id) ((empty.run ops).lookup? id name)) := by
  have hiff := run_olderParents_iff ops olderParents_empty
  refine ⟨hiff, fun hlive => ?_⟩
  have ho := hiff.mpr hlive ops List.prefix_rfl
  have hg := grounded_run ops grounded_empty
  exact ⟨fun id live => reaches_root hg ho live, finds_lookup? ho⟩

/-- A frame that is opened in the one that was just closed lies in itself. -/
theorem stale_parent_loops :
    ∃ ops : List ScopeOp, Legal [.root] empty ops ∧ (empty.run ops).parent? ⟨1⟩ = some ⟨1⟩ ∧
      ¬ (empty.run ops).OlderParents ∧ ∀ r, ¬ (empty.run ops).Finds "x" (some ⟨1⟩) r := by
  refine ⟨[.enter .root (.root "a"), .close ⟨1⟩, .enter ⟨1⟩ (.root "b")], ?_, rfl, ?_, ?_⟩
  · refine ⟨?_, ?_, ?_, trivial⟩ <;> decide
  · intro ho
    exact Nat.lt_irrefl 1 (ho ⟨1⟩ ⟨1⟩ rfl)
  · exact not_finds (f := ⟨.root "b", some ⟨1⟩, .collecting []⟩) rfl rfl rfl

end Arena

end TraceFormat
