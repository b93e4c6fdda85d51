import Mathlib.Data.List.Forall2
import TraceFormat.Proofs.Decode.Arena

/-! # Two runs in step

Two actions are in step (`InStep`) if, begun in related states, they end in related states with
related results, or both with an error; a `Tolerance` says which errors may meet and with which ones
the first action may stop while the second goes on.  This passes through sequencing
(`InStep.bind`), loops (`DecodeM.inStep_forIndices`) and frames (`DecodeM.inStep_collectIn`).

Two decodes of one declaration in one arena are in step as soon as their single steps are
(`Declaration.StepsAlike`): aligning to what occurs in the declaration (`Declaration.alignments`),
reading bits, reading a string and finding the length of a sequence.  `StepsAlike.decodeAt` is the
induction that concludes this for all declarations.

Decodes that bind different values go on in arenas of their own (`Declaration.Parallel`).  Two
structures whose members are in step then collect related fields, each in its own frame, and give
both arenas back (`DecodeM.inStep_collectFields`). -/

namespace TraceFormat

section

variable {ε σ α β γ δ : Type}

/-- Which errors two runs may end with, both of them or the first one alone. -/
structure Tolerance (ε : Type) where
  together : ε → ε → Prop
  alone : ε → Prop

/-- Both runs have to end with the same error. -/
def Tolerance.strict (ε : Type) : Tolerance ε := ⟨Eq, fun _ => False⟩

/-- Two outcomes in which the runs have come to related results and states, or to errors that may
meet, or the first one to an error that it may stop with alone. -/
inductive Agree (T : Tolerance ε) (S : σ → σ → Prop) (V : α → β → Prop) :
    EStateM.Result ε σ α → EStateM.Result ε σ β → Prop
  | ok {v : α} {w : β} {s t : σ} : V v w → S s t → Agree T S V (.ok v s) (.ok w t)
  | error {e f : ε} {s t : σ} : T.together e f → S s t → Agree T S V (.error e s) (.error f t)
  | alone {e : ε} {s : σ} {r : EStateM.Result ε σ β} : T.alone e → Agree T S V (.error e s) r

/-- Two actions whose outcomes agree whenever they begin in states that `S` relates. -/
def InStep (T : Tolerance ε) (S : σ → σ → Prop) (V : α → β → Prop) (x : EStateM ε σ α)
    (y : EStateM ε σ β) : Prop :=
  ∀ s t, S s t → Agree T S V (x s) (y t)

variable {T : Tolerance ε} {S S' : σ → σ → Prop} {V : α → β → Prop} {W : γ → δ → Prop}

theorem Agree.imp {r : EStateM.Result ε σ α} {r' : EStateM.Result ε σ β} (h : Agree T S V r r')
    (hS : ∀ s t, S s t → S' s t) : Agree T S' V r r' := by
  cases h with
  | ok hv hs => exact .ok hv (hS _ _ hs)
  | error he hs => exact .error he (hS _ _ hs)
  | alone he => exact .alone he

theorem InStep.imp {V' : α → β → Prop} {x : EStateM ε σ α} {y : EStateM ε σ β}
    (h : InStep T S V x y) (hV : ∀ v w, V v w → V' v w) : InStep T S V' x y := by
  intro s t hs
  have hagree := h s t hs
  generalize x s = r, y t = r' at hagree
  cases hagree with
  | ok hv hs' => exact .ok (hV _ _ hv) hs'
  | error he hs' => exact .error he hs'
  | alone he => exact .alone he

theorem inStep_pure {v : α} {w : β} (h : V v w) : InStep T S V (pure v) (pure w) :=
  fun _ _ hs => .ok h hs

theorem inStep_self (x : EStateM ε σ α) : InStep (.strict ε) Eq Eq x x := by
  rintro s _ rfl
  cases x s with
  | ok v t => exact .ok rfl rfl
  | error e t => exact .error rfl rfl

theorem inStep_throw {e f : ε} (h : T.together e f) : InStep T S V (throw e) (throw f) :=
  fun _ _ hs => .error h hs

theorem InStep.bind {x : EStateM ε σ α} {y : EStateM ε σ β} {f : α → EStateM ε σ γ}
    {g : β → EStateM ε σ δ} (hx : InStep T S V x y)
    (hf : ∀ v w, V v w → InStep T S W (f v) (g w)) : InStep T S W (x >>= f) (y >>= g) := by
  intro s t hs
  have h := hx s t hs
  simp only [Bind.bind, EStateM.bind]
  generalize x s = r, y t = r' at h
  cases h with
  | ok hv hs' => exact hf _ _ hv _ _ hs'
  | error he hs' => exact .error he hs'
  | alone he => exact .alone he

theorem InStep.bind_eq {x y : EStateM ε σ α} {f : α → EStateM ε σ γ} {g : α → EStateM ε σ δ}
    (hx : InStep T S Eq x y) (hf : ∀ v, InStep T S W (f v) (g v)) :
    InStep T S W (x >>= f) (y >>= g) := by
  refine hx.bind fun v w hvw => ?_
  subst hvw
  exact hf v

theorem InStep.bind_pure {x : EStateM ε σ α} {y : EStateM ε σ β} {f : α → γ} {g : β → δ}
    (hx : InStep T S V x y) (hf : ∀ v w, V v w → W (f v) (g w)) :
    InStep T S W (x >>= fun v => pure (f v)) (y >>= fun w => pure (g w)) :=
  hx.bind fun v w hvw => inStep_pure (hf v w hvw)

theorem InStep.map {x : EStateM ε σ α} {y : EStateM ε σ β} {f : α → γ} {g : β → δ}
    (hx : InStep T S V x y) (hf : ∀ v w, V v w → W (f v) (g w)) :
    InStep T S W (f <$> x) (g <$> y) := by
  intro s t hs
  have h := hx s t hs
  simp only [Functor.map, EStateM.map]
  generalize x s = r, y t = r' at h
  cases h with
  | ok hv hs' => exact .ok (hf _ _ hv) hs'
  | error he hs' => exact .error he hs'
  | alone he => exact .alone he

end

/-! ### Steps of the decoder -/

namespace DecodeM

variable {α β : Type} {T : Tolerance DecodeError} {S : DecodeState → DecodeState → Prop}
  {K : Cursor → Cursor → Prop} {V : α → β → Prop}

theorem inStep_forIndices {f : Nat → DecodeM α} {g : Nat → DecodeM β}
    (h : ∀ i, InStep T S V (f i) (g i)) (n index : Nat) {done : List α} {done' : List β}
    (hdone : List.Forall₂ V done done') :
    InStep T S (List.Forall₂ V) (forIndices f n index done) (forIndices g n index done') := by
  induction n generalizing index done done' with
  | zero => exact inStep_pure (List.rel_reverse hdone)
  | succ n ih => exact (h index).bind fun v w hvw => ih (index + 1) (.cons hvw hdone)

/-- Reads are in step in all relations of states that see no more than the cursors. -/
theorem inStep_ofRead {x : ReadM α} {y : ReadM β} (hT : ∀ e, T.together (.read e) (.read e))
    (hS : ∀ s t, S s t → K s.cursor t.cursor)
    (hK : ∀ s t c c', S s t → K c c' → S { s with cursor := c } { t with cursor := c' })
    (h : InStep (.strict ReadError) K V x y) : InStep T S V (ofRead x) (ofRead y) := by
  intro s t hs
  have hread := h s.cursor t.cursor (hS s t hs)
  unfold ofRead
  generalize x s.cursor = r, y t.cursor = r' at hread
  cases hread with
  | ok hv hc => exact .ok hv (hK s t _ _ hs hc)
  | @error e f c c' he hc =>
      obtain rfl : e = f := he
      exact .error (hT _) (hK s t _ _ hs hc)
  | alone he => exact he.elim

/-- A frame of its own keeps two bodies in step, in whichever relation `R` they run in it. -/
theorem inStep_collectIn {R : DecodeState → DecodeState → Prop}
    {F : List Definition → List Definition → Prop} {parent parent' : FrameId} {path path' : Path}
    {body body' : FrameId → DecodeM Unit}
    (hbody : ∀ s t, S s t → Agree T R Eq
      (body s.arena.next { s with arena := s.arena.enter parent path })
      (body' t.arena.next { t with arena := t.arena.enter parent' path' }))
    (hclose : ∀ s t s' t', S s t → R s' t' →
      S { s' with arena := s'.arena.close s.arena.next }
        { t' with arena := t'.arena.close t.arena.next } ∧
      F (s'.arena.collected s.arena.next) (t'.arena.collected t.arena.next)) :
    InStep T S F (collectIn parent path body) (collectIn parent' path' body') := by
  intro s t hs
  have h := hbody s t hs
  simp only [collectIn]
  generalize body s.arena.next { s with arena := s.arena.enter parent path } = r,
    body' t.arena.next { t with arena := t.arena.enter parent' path' } = r' at h
  cases h with
  | ok _ hr =>
      obtain ⟨hstates, hfields⟩ := hclose s t _ _ hs hr
      exact .ok hfields hstates
  | error he hr => exact .error he (hclose s t _ _ hs hr).1
  | alone he => exact .alone he

end DecodeM

/-! ### Two runs in one arena -/

/-- Two places in one arena, at cursors that `K` relates. -/
def DecodeState.Beside (K : Cursor → Cursor → Prop) (s t : DecodeState) : Prop :=
  K s.cursor t.cursor ∧ s.arena = t.arena

namespace DecodeM

open DecodeState (Beside)

variable {α : Type} {T : Tolerance DecodeError} {K : Cursor → Cursor → Prop}

theorem inStep_ofRead_beside {V : α → α → Prop} {x y : ReadM α} (hT : ∀ e, T.together e e)
    (h : InStep (.strict ReadError) K V x y) : InStep T (Beside K) V (ofRead x) (ofRead y) :=
  inStep_ofRead (fun e => hT (.read e)) (fun _ _ hs => hs.1) (fun _ _ _ _ hs hc => ⟨hc, hs.2⟩) h

theorem inStep_ofArena (hT : ∀ e, T.together e e) (f : Arena → Except DecodeError α) :
    InStep T (Beside K) Eq (ofArena f) (ofArena f) := by
  intro s t hs
  unfold ofArena
  rw [hs.2]
  cases f t.arena with
  | ok v => exact .ok rfl hs
  | error e => exact .error (hT e) hs

theorem inStep_bindIn (id : FrameId) (d : Definition) :
    InStep T (Beside K) Eq (bindIn id d) (bindIn id d) := by
  rintro ⟨c, a⟩ ⟨c', _⟩ ⟨hc, rfl⟩
  exact .ok rfl ⟨hc, rfl⟩

theorem inStep_collectIn_beside (parent : FrameId) (path : Path)
    {body body' : FrameId → DecodeM Unit}
    (h : ∀ id, InStep T (Beside K) Eq (body id) (body' id)) :
    InStep T (Beside K) Eq (collectIn parent path body) (collectIn parent path body') := by
  refine inStep_collectIn (R := Beside K) ?_ ?_
  · rintro ⟨c, a⟩ ⟨c', _⟩ ⟨hc, rfl⟩
    exact h a.next _ _ ⟨hc, rfl⟩
  · rintro ⟨_, a⟩ ⟨_, _⟩ ⟨c, b⟩ ⟨c', _⟩ ⟨_, rfl⟩ ⟨hc, rfl⟩
    exact ⟨⟨hc, rfl⟩, rfl⟩

end DecodeM

/-! ### Two runs in arenas of their own -/

namespace DecodeState

/-- Two places in given arenas, at cursors that `K` relates. -/
def Apart (K : Cursor → Cursor → Prop) (a b : Arena) (s t : DecodeState) : Prop :=
  K s.cursor t.cursor ∧ s.arena = a ∧ t.arena = b

/-- Two places between the fields of structures, in frames that have collected fields of which `V`
relates each to its counterpart. -/
def BothInside (K : Cursor → Cursor → Prop) (V : Definition → Definition → Prop) (a b : Arena)
    (parent parent' : FrameId) (path path' : Path) (s t : DecodeState) : Prop :=
  ∃ fields fields', List.Forall₂ V fields fields' ∧
    s.Apart K (a.collecting parent path fields) (b.collecting parent' path' fields') t

end DecodeState

open DecodeState (Apart BothInside)

/-- Two declarations whose decodes are in step wherever they take place in their arenas. -/
def Declaration.Parallel (T : Tolerance DecodeError) (K : Cursor → Cursor → Prop)
    (V : Definition → Definition → Prop) (limits limits' : Limits) (d e : Declaration) : Prop :=
  ∀ {a b : Arena} {scope scope' : FrameId}, a.Live scope → b.Live scope' → ∀ path path',
    InStep T (Apart K a b) V (d.decodeAt limits scope path) (e.decodeAt limits' scope' path')

namespace DecodeM

variable {α β : Type} {T : Tolerance DecodeError} {K : Cursor → Cursor → Prop} {a b : Arena}
  {parent parent' : FrameId} {path path' : Path}

theorem inStep_ofRead_apart {V : α → β → Prop} {x : ReadM α} {y : ReadM β}
    (hT : ∀ e, T.together (.read e) (.read e)) (h : InStep (.strict ReadError) K V x y) :
    InStep T (Apart K a b) V (ofRead x) (ofRead y) :=
  inStep_ofRead hT (fun _ _ hs => hs.1) (fun _ _ _ _ hs hc => ⟨hc, hs.2⟩) h

theorem inStep_inside {V : Definition → Definition → Prop} {W : α → β → Prop} {x : DecodeM α}
    {y : DecodeM β}
    (h : ∀ fields fields', InStep T
      (Apart K (a.collecting parent path fields) (b.collecting parent' path' fields')) W x y) :
    InStep T (BothInside K V a b parent parent' path path') W x y := by
  rintro s t ⟨fields, fields', hV, hs⟩
  exact (h fields fields' s t hs).imp fun _ _ hs' => ⟨fields, fields', hV, hs'⟩

theorem inStep_bindIn_inside {V : Definition → Definition → Prop} {v w : Definition}
    (h : V v w) :
    InStep T (BothInside K V a b parent parent' path path') Eq (bindIn a.next v)
      (bindIn b.next w) := by
  rintro ⟨c, _⟩ ⟨c', _⟩ ⟨fields, fields', hV, hc, rfl, rfl⟩
  refine .ok rfl ⟨fields ++ [v], fields' ++ [w], ?_, hc, ?_, ?_⟩
  · exact List.rel_append hV (.cons h .nil)
  · exact a.bind_collecting parent path fields v
  · exact b.bind_collecting parent' path' fields' w

theorem inStep_decodeFields {V : Definition → Definition → Prop} {limits limits' : Limits}
    {members members' : Members}
    (h : List.Forall₂ (fun m m' => m.2.Parallel T K V limits limits' m'.2) members members') :
    InStep T (BothInside K V a b parent parent' path path') Eq
      (Declaration.decodeFields limits members a.next)
      (Declaration.decodeFields limits' members' b.next) := by
  induction h with
  | nil =>
      rw [Declaration.decodeFields, Declaration.decodeFields]
      exact inStep_pure rfl
  | @cons m m' members members' hm _ ih =>
      obtain ⟨name, d⟩ := m
      obtain ⟨name', d'⟩ := m'
      rw [Declaration.decodeFields, Declaration.decodeFields]
      have hpath : InStep T (BothInside K V a b parent parent' path path') (fun _ _ => True)
          (ofArena fun arena => .ok (arena.fieldPath a.next name))
          (ofArena fun arena => .ok (arena.fieldPath b.next name')) := fun _ _ hs => .ok trivial hs
      refine hpath.bind fun p p' _ => ?_
      have hvalue : InStep T (BothInside K V a b parent parent' path path') V
          (d.decodeAt limits a.next p) (d'.decodeAt limits' b.next p') :=
        inStep_inside fun fields fields' => hm (a.live_next_collecting parent path fields)
          (b.live_next_collecting parent' path' fields') p p'
      exact hvalue.bind fun v w hvw => (inStep_bindIn_inside hvw).bind fun _ _ _ => ih

theorem inStep_collectFields {V : Definition → Definition → Prop} {limits limits' : Limits}
    {members members' : Members} (ha : a.next ≠ .root) (hb : b.next ≠ .root)
    (h : List.Forall₂ (fun m m' => m.2.Parallel T K V limits limits' m'.2) members members') :
    InStep T (Apart K a b) (List.Forall₂ V)
      (collectIn parent path fun id => Declaration.decodeFields limits members id)
      (collectIn parent' path' fun id => Declaration.decodeFields limits' members' id) := by
  refine inStep_collectIn (R := BothInside K V a b parent parent' path path') ?_ ?_
  · rintro ⟨c, _⟩ ⟨c', _⟩ ⟨hc, rfl, rfl⟩
    exact inStep_decodeFields h _ _ ⟨[], [], .nil, hc, rfl, rfl⟩
  · rintro ⟨_, _⟩ ⟨_, _⟩ ⟨c, _⟩ ⟨c', _⟩ ⟨_, rfl, rfl⟩ ⟨fields, fields', hV, hc, rfl, rfl⟩
    rw [Arena.collected_collecting _ _ _ ha, Arena.collected_collecting _ _ _ hb,
      Arena.close_collecting _ _ _ ha, Arena.close_collecting _ _ _ hb]
    exact ⟨⟨hc, rfl, rfl⟩, hV⟩

end DecodeM

namespace Declaration

open DecodeState (Beside)

/-! ### The alignments in a declaration -/

mutual

/-- The alignments that are asked for anywhere in a declaration. -/
def alignments : Declaration → List Nat
  | .integer t => [t.alignment]
  | .float t => [t.alignment]
  | .string _ => [8]
  | .enum t => [t.container.alignment]
  | .array _ d => d.alignments
  | .sequence _ d => d.alignments
  | .struct minAlignment members => minAlignment :: memberAlignments members
  | .variant _ members => memberAlignments members

/-- The alignments that are asked for anywhere in some members. -/
def memberAlignments : Members → List Nat
  | [] => []
  | (_, d) :: members => d.alignments ++ memberAlignments members

end

theorem mem_memberAlignments {members : Members} {unit : Nat} :
    unit ∈ memberAlignments members ↔ ∃ m ∈ members, unit ∈ m.2.alignments := by
  induction members with
  | nil => simp [memberAlignments]
  | cons m members ih => simp [memberAlignments, ih]

theorem foldl_max_eq_or_mem (l : List Nat) (n : Nat) :
    l.foldl max n = n ∨ l.foldl max n ∈ l := by
  induction l generalizing n with
  | nil => exact .inl rfl
  | cons m l ih =>
      rw [List.foldl_cons]
      rcases ih (max n m) with h | h
      · rw [h]
        rcases Nat.le_total n m with hnm | hnm
        · rw [Nat.max_eq_right hnm]
          exact .inr List.mem_cons_self
        · rw [Nat.max_eq_left hnm]
          exact .inl rfl
      · exact .inr (List.mem_cons_of_mem _ h)

/-- The alignment of a declaration is one that something in it asks for. -/
theorem alignment_eq_one_or_mem (d : Declaration) :
    d.alignment = 1 ∨ d.alignment ∈ d.alignments := by
  induction d using Declaration.induction with
  | integer | float | string | enum => exact .inr (by simp [alignments])
  | array n d ih | sequence s d ih => simpa [alignments] using ih
  | variant => exact .inl (by simp)
  | struct minAlignment members ih =>
      rw [alignment_struct, alignments]
      rcases foldl_max_eq_or_mem (members.map fun m => m.2.alignment) (max minAlignment 1)
        with h | h
      · rw [h]
        rcases Nat.le_total minAlignment 1 with hle | hle
        · rw [Nat.max_eq_right hle]
          exact .inl rfl
        · rw [Nat.max_eq_left hle]
          exact .inr List.mem_cons_self
      · obtain ⟨m, hm, halign⟩ := List.mem_map.mp h
        rw [← halign]
        refine (ih m hm).imp id fun hmem => ?_
        exact List.mem_cons_of_mem _ (mem_memberAlignments.mpr ⟨m, hm, hmem⟩)

/-! ### Whole decodes -/

/-- What the single steps of two runs have to do alike, at alignments that satisfy `P`. -/
structure StepsAlike (T : Tolerance DecodeError) (K : Cursor → Cursor → Prop) (P : Nat → Prop)
    (limits limits' : Limits) : Prop where
  refl : ∀ e, T.together e e
  one : P 1
  align : ∀ unit, P unit → ∀ c c', K c c' → K (c.alignTo unit) (c'.alignTo unit)
  bits : ∀ n order, InStep (.strict ReadError) K Eq (readBits n order) (readBits n order)
  text : ∀ encoding path, InStep T (Beside K) Eq (decodeText limits encoding path)
    (decodeText limits' encoding path)
  length : ∀ name scope path, InStep T (Beside K) Eq
    (DecodeM.ofArena (sequenceLength limits name scope path))
    (DecodeM.ofArena (sequenceLength limits' name scope path))

namespace StepsAlike

variable {T : Tolerance DecodeError} {K : Cursor → Cursor → Prop} {P : Nat → Prop}
  {limits limits' : Limits}

theorem inStep_alignTo (h : StepsAlike T K P limits limits') {unit : Nat} (hP : P unit) :
    InStep (.strict ReadError) K Eq (alignTo unit) (alignTo unit) :=
  fun c c' hc => .ok rfl (h.align unit hP c c' hc)

theorem inStep_align (h : StepsAlike T K P limits limits') {unit : Nat} (hP : P unit) :
    InStep T (Beside K) Eq (DecodeM.align unit) (DecodeM.align unit) :=
  DecodeM.inStep_ofRead_beside h.refl (h.inStep_alignTo hP)

theorem inStep_alignment (h : StepsAlike T K P limits limits') {d : Declaration}
    (hd : ∀ unit ∈ d.alignments, P unit) :
    InStep T (Beside K) Eq (DecodeM.align d.alignment) (DecodeM.align d.alignment) := by
  refine h.inStep_align ?_
  rcases d.alignment_eq_one_or_mem with hone | hmem
  · rw [hone]
    exact h.one
  · exact hd _ hmem

theorem inStep_integer (h : StepsAlike T K P limits limits') {t : IntegerType}
    (hP : P t.alignment) :
    InStep T (Beside K) Eq (DecodeM.ofRead t.read) (DecodeM.ofRead t.read) := by
  have hbits := (h.bits t.length t.byteOrder).map (f := toStorage t.length t.signed)
    fun _ _ => congrArg _
  exact DecodeM.inStep_ofRead_beside h.refl ((h.inStep_alignTo hP).bind_eq fun _ => hbits)

theorem inStep_float (h : StepsAlike T K P limits limits') {t : FloatType} (hP : P t.alignment) :
    InStep T (Beside K) Eq (DecodeM.ofRead t.read) (DecodeM.ofRead t.read) := by
  have hbits := (h.bits t.length t.byteOrder).map (f := t.decode) fun _ _ => congrArg _
  exact DecodeM.inStep_ofRead_beside h.refl ((h.inStep_alignTo hP).bind_eq fun _ => hbits)

theorem inStep_elements {f g : Nat → DecodeM Definition}
    (h : ∀ i, InStep T (Beside K) Eq (f i) (g i)) (n : Nat) :
    InStep T (Beside K) Eq (DecodeM.forIndices f n 0 []) (DecodeM.forIndices g n 0 []) := by
  have helements := DecodeM.inStep_forIndices h n 0 .nil
  rwa [List.forall₂_eq_eq_eq] at helements

theorem inStep_decodeFields (h : StepsAlike T K P limits limits') {members : Members}
    (hm : ∀ m ∈ members, ∀ scope path,
      InStep T (Beside K) Eq (decodeAt limits m.2 scope path) (decodeAt limits' m.2 scope path))
    (id : FrameId) :
    InStep T (Beside K) Eq (decodeFields limits members id) (decodeFields limits' members id) := by
  induction members with
  | nil =>
      rw [decodeFields, decodeFields]
      exact inStep_pure rfl
  | cons m members ih =>
      obtain ⟨name, d⟩ := m
      rw [List.forall_mem_cons] at hm
      rw [decodeFields, decodeFields]
      refine (DecodeM.inStep_ofArena h.refl _).bind_eq fun path => ?_
      refine (hm.1 id path).bind_eq fun value => ?_
      exact (DecodeM.inStep_bindIn id value).bind_eq fun _ => ih hm.2

theorem inStep_decodeMember (h : StepsAlike T K P limits limits') {members : Members}
    (hm : ∀ m ∈ members, ∀ scope path,
      InStep T (Beside K) Eq (decodeAt limits m.2 scope path) (decodeAt limits' m.2 scope path))
    (label : String) (scope : FrameId) (path : Path) :
    InStep T (Beside K) Eq (decodeMember limits members label scope path)
      (decodeMember limits' members label scope path) := by
  induction members with
  | nil =>
      rw [decodeMember, decodeMember]
      exact inStep_throw (h.refl _)
  | cons m members ih =>
      obtain ⟨name, d⟩ := m
      rw [List.forall_mem_cons] at hm
      rw [decodeMember, decodeMember]
      split_ifs
      · exact hm.1 scope (path.child label)
      · exact ih hm.2

/-- Decodes of one declaration are in step if their single steps are. -/
theorem decodeAt (h : StepsAlike T K P limits limits') (d : Declaration)
    (hd : ∀ unit ∈ d.alignments, P unit) (scope : FrameId) (path : Path) :
    InStep T (Beside K) Eq (Declaration.decodeAt limits d scope path)
      (Declaration.decodeAt limits' d scope path) := by
  induction d using Declaration.induction generalizing scope path with
  | integer t =>
      rw [Declaration.decodeAt, Declaration.decodeAt]
      exact (h.inStep_integer (hd _ (by simp [alignments]))).bind_pure fun _ _ => congrArg _
  | float t =>
      rw [Declaration.decodeAt, Declaration.decodeAt]
      exact (h.inStep_float (hd _ (by simp [alignments]))).bind_pure fun _ _ => congrArg _
  | string encoding =>
      rw [Declaration.decodeAt, Declaration.decodeAt]
      exact (h.text encoding path).bind_pure fun _ _ => congrArg _
  | enum t =>
      rw [Declaration.decodeAt, Declaration.decodeAt]
      exact (h.inStep_integer (hd _ (by simp [alignments]))).bind_pure fun _ _ => congrArg _
  | array n element ih =>
      rw [alignments] at hd
      rw [Declaration.decodeAt, Declaration.decodeAt]
      have helements := inStep_elements (fun i => ih hd scope (path.element i)) n
      exact (h.inStep_alignment hd).bind_eq fun _ => helements.bind_pure fun _ _ => congrArg _
  | sequence name element ih =>
      rw [alignments] at hd
      rw [Declaration.decodeAt, Declaration.decodeAt]
      refine (h.length name scope path).bind_eq fun n => (h.inStep_alignment hd).bind_eq fun _ => ?_
      have helements := inStep_elements (fun i => ih hd scope (path.element i)) n
      exact helements.bind_pure fun _ _ => congrArg _
  | struct minAlignment members ih =>
      have hmembers : ∀ m ∈ members, ∀ unit ∈ m.2.alignments, P unit := fun m hm unit hu =>
        hd unit (List.mem_cons_of_mem _ (mem_memberAlignments.mpr ⟨m, hm, hu⟩))
      rw [Declaration.decodeAt, Declaration.decodeAt]
      have hfields := DecodeM.inStep_collectIn_beside scope path
        (h.inStep_decodeFields fun m hm => ih m hm (hmembers m hm))
      exact (h.inStep_alignment hd).bind_eq fun _ => hfields.bind_pure fun _ _ => congrArg _
  | variant tag members ih =>
      have hmembers : ∀ m ∈ members, ∀ unit ∈ m.2.alignments, P unit := fun m hm unit hu =>
        hd unit (mem_memberAlignments.mpr ⟨m, hm, hu⟩)
      rw [Declaration.decodeAt, Declaration.decodeAt]
      refine (DecodeM.inStep_ofArena h.refl _).bind_eq fun label => ?_
      refine (DecodeM.inStep_ofArena h.refl _).bind_eq fun siblings => ?_
      have hmember := h.inStep_decodeMember (fun m hm => ih m hm (hmembers m hm)) label scope path
      exact hmember.bind_pure fun v w hvw => by rw [hvw]

theorem decode (h : StepsAlike T K P limits limits') (d : Declaration)
    (hd : ∀ unit ∈ d.alignments, P unit) (scope : FrameId) (name : String) :
    InStep T (Beside K) Eq (Declaration.decode limits d scope name)
      (Declaration.decode limits' d scope name) :=
  (DecodeM.inStep_ofArena h.refl _).bind_eq fun path => h.decodeAt d hd scope path

end StepsAlike

end Declaration

end TraceFormat
