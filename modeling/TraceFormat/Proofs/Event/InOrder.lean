import TraceFormat.Event
import TraceFormat.Proofs.Decode.Lexical
import TraceFormat.Proofs.Decode.Run

/-! # The parts of an event in order

An event is decoded as its parts are, one after the other (`EventType.decodeInOrder`): each begins
where the one before it has ended, and around it are the parts before it, the latest innermost, and
outermost the context of the packet (`Surroundings.after`).  The frames that the decoder chains for
this show exactly these (`EventType.follows_decodeParts`).

`EventType.decode_in_order` says what follows for the outcome: what an event consists of, which part
an error comes from, and what a reference in a part is bound to. -/

namespace TraceFormat

namespace Surroundings

/-- What is around a part when some structures have been decoded before it. -/
def after (done : List (Option StructDefinition)) : Surroundings :=
  (done.filterMap (·.map StructDefinition.level)).reverse

theorem after_concat_some (done : List (Option StructDefinition)) (s : StructDefinition) :
    after (done ++ [some s]) = s.level :: after done := by
  simp [after]

theorem after_concat_none (done : List (Option StructDefinition)) :
    after (done ++ [none]) = after done := by
  simp [after]

theorem lookup?_append (inner outer : Surroundings) (name : String) :
    lookup? (inner ++ outer) name = (lookup? inner name).or (lookup? outer name) :=
  List.findSome?_append

theorem lookup?_after (done : List (Option StructDefinition)) (name : String) :
    (after done).lookup? name =
      done.reverse.findSome? fun part => part.bind fun s => s.level.lookup? name := by
  induction done using List.reverseRecOn with
  | nil => rfl
  | append_singleton done part ih =>
      rw [List.reverse_concat, List.findSome?_cons, ← ih]
      cases part with
      | none => rw [after_concat_none, Option.bind_none]
      | some s =>
          rw [after_concat_some, Option.bind_some, lookup?, List.findSome?_cons]
          rfl

/-- A name without a dot is that of a field: of the structures that a part has around the value, the
innermost first, then of the parts before, the latest first, and last of the context of the
packet. -/
theorem lookup?_of_not_mem (inner : Surroundings) (packet : Option StructDefinition)
    (done : List (Option StructDefinition)) {name : String} (h : '.' ∉ name.toList) :
    lookup? (inner ++ after (packet :: done)) name =
      (inner.findSome? fun l => Definition.named? l.fields name).or
        ((done.reverse.findSome? fun part => part.bind fun s => Definition.named? s.fields name).or
          (packet.bind fun s => Definition.named? s.fields name)) := by
  have hlevel : ∀ l : Level, l.lookup? name = Definition.named? l.fields name :=
    fun l => l.lookup?_of_not_mem h
  rw [lookup?_append, lookup?_after, List.reverse_cons, List.findSome?_append,
    List.findSome?_singleton]
  simp only [lookup?, hlevel, StructDefinition.level]

end Surroundings

/-- The parts of an event in order, with none for a part that is not declared. -/
def Event.parts (e : Event) : List (Option StructDefinition) :=
  [e.header, e.streamContext, e.eventContext, e.fields]

/-- Whether an event consists of some parts, beside what its decode was given. -/
structure Event.Comprises (e : Event) (t : EventType) (packet : Option StructDefinition)
    (cpu : Option Nat) (parts : List (Option StructDefinition)) : Prop where
  parts : e.parts = parts
  type : e.type = t
  cpu : e.cpu = cpu
  packetContext : e.packetContext = packet
  timestamp : e.timestamp = EventType.timestampOf e.header

theorem Event.Comprises.unique {e e' : Event} {t : EventType} {packet : Option StructDefinition}
    {cpu : Option Nat} {parts : List (Option StructDefinition)}
    (h : e.Comprises t packet cpu parts) (h' : e'.Comprises t packet cpu parts) : e = e' := by
  obtain ⟨rfl, rfl, rfl, rfl, htime⟩ := h
  obtain ⟨hparts, htype, hcpu, hpacket, htime'⟩ := h'
  simp only [Event.parts, List.cons.injEq] at hparts
  obtain ⟨hheader, hstream, hevent, hfields, -⟩ := hparts
  rw [hheader, ← htime] at htime'
  cases e
  cases e'
  simp only [Event.mk.injEq]
  exact ⟨htype.symm, hcpu.symm, htime'.symm, hheader.symm, hstream.symm, hevent.symm,
    hpacket.symm, hfields.symm⟩

namespace EventType

/-- The declarations of the parts in order, each with the root that it stands under. -/
def parts (t : EventType) : List (LexicalRoot × Option StructType) :=
  [(.streamEventHeader, t.header), (.streamEventContext, t.streamContext),
    (.eventContext, t.context), (.fields, t.fields)]

/-- Decodes a part, if it is declared, in its surroundings. -/
def decodePartWithin (limits : Limits) (type : Option StructType) (root : LexicalRoot)
    (around : Surroundings) : EStateM DecodeError Cursor (Option StructDefinition) :=
  match type with
  | none => pure none
  | some t => do return some (← t.decodeWithin limits around root.path)

/-- Decodes parts one after the other, when some structures have been decoded before them. -/
def decodeInOrder (limits : Limits) :
    (done : List (Option StructDefinition)) → (parts : List (LexicalRoot × Option StructType)) →
    EStateM DecodeError Cursor (List (Option StructDefinition))
  | _, [] => pure []
  | done, (root, type) :: parts => do
    let part ← decodePartWithin limits type root (Surroundings.after done)
    let rest ← decodeInOrder limits (done ++ [part]) parts
    return part :: rest

open DecodeM (Follows Same follows_pure)

variable {limits : Limits} {t : EventType} {packet : Option StructDefinition} {cpu : Option Nat}
  {a : Arena} {scope : FrameId} {done : List (Option StructDefinition)}

/-- A part is decoded as in what its frame shows, and then stands in a frame that shows it too. -/
theorem follows_decodePart (hshows : a.Shows scope (Surroundings.after done))
    (type : Option StructType) (root : LexicalRoot) :
    Follows a (decodePart limits type root scope)
      (decodePartWithin limits type root (Surroundings.after done))
      fun p part b => p.1 = part ∧ b.Shows p.2 (Surroundings.after (done ++ [part])) := by
  cases type with
  | none =>
      refine follows_pure ⟨rfl, ?_⟩
      rw [Surroundings.after_concat_none]
      exact hshows
  | some t =>
      have hpart := t.follows_decodeAt limits hshows root.path
      refine hpart.bind_same fun part =>
        .arena_bind (DecodeM.attachUnder_apply scope part) (follows_pure ⟨rfl, ?_⟩)
      rw [Surroundings.after_concat_some]
      exact hshows.attach part

theorem outermost_apply (packet : Option StructDefinition) :
    ∃ scope b, (∀ c, outermost packet ⟨c, .empty⟩ = .ok scope ⟨c, b⟩) ∧
      b.Shows scope (Surroundings.after [packet]) := by
  cases packet with
  | none => exact ⟨.root, .empty, fun _ => rfl, Arena.shows_empty⟩
  | some s =>
      exact ⟨_, _, DecodeM.attachUnder_apply .root s, Arena.shows_empty.attach s⟩

theorem follows_decodeParts (limits : Limits) (t : EventType) (packet : Option StructDefinition)
    (cpu : Option Nat) :
    Follows .empty (t.decodeParts limits packet cpu) (decodeInOrder limits [packet] t.parts)
      fun e parts _ => e.Comprises t packet cpu parts := by
  obtain ⟨scope, b, hb, hshows⟩ := outermost_apply packet
  -- on either side there are now four parts in a row
  simp only [decodeParts, parts, decodeInOrder, bind_assoc, pure_bind]
  refine .arena_bind hb ?_
  refine (follows_decodePart hshows t.header .streamEventHeader).bind ?_
  rintro ⟨header, scope⟩ _ b ⟨rfl, hshows⟩
  refine (follows_decodePart hshows t.streamContext .streamEventContext).bind ?_
  rintro ⟨streamContext, scope⟩ _ b ⟨rfl, hshows⟩
  refine (follows_decodePart hshows t.context .eventContext).bind ?_
  rintro ⟨eventContext, scope⟩ _ b ⟨rfl, hshows⟩
  refine (follows_decodePart hshows t.fields .fields).bind ?_
  rintro ⟨fields, scope⟩ _ b ⟨rfl, hshows⟩
  exact follows_pure ⟨rfl, rfl, rfl, rfl, rfl⟩

/-! ### Outcomes -/

theorem decode_eq_ok_iff {c c' : Cursor} {e : Event} :
    t.decode limits packet cpu c = .ok e c' ↔
      ∃ parts, decodeInOrder limits [packet] t.parts c = .ok parts c' ∧
        e.Comprises t packet cpu parts := by
  have h := follows_decodeParts limits t packet cpu c
  unfold decode DecodeM.onCursor
  cases hparts : decodeInOrder limits [packet] t.parts c with
  | ok parts c₁ =>
      rw [hparts] at h
      obtain ⟨e₁, b, he, hcomprises⟩ := h
      rw [he]
      simp only [EStateM.Result.ok.injEq]
      constructor
      · rintro ⟨rfl, rfl⟩
        exact ⟨parts, ⟨rfl, rfl⟩, hcomprises⟩
      · rintro ⟨_, ⟨rfl, rfl⟩, h⟩
        exact ⟨hcomprises.unique h, rfl⟩
  | error err c₁ =>
      rw [hparts] at h
      obtain ⟨b, he⟩ := h
      rw [he]
      simp

theorem decode_eq_error_iff {c c' : Cursor} {err : DecodeError} :
    t.decode limits packet cpu c = .error err c' ↔
      decodeInOrder limits [packet] t.parts c = .error err c' := by
  have h := follows_decodeParts limits t packet cpu c
  unfold decode DecodeM.onCursor
  cases hparts : decodeInOrder limits [packet] t.parts c with
  | ok parts c₁ =>
      rw [hparts] at h
      obtain ⟨e, b, he, -⟩ := h
      simp [he]
  | error err₁ c₁ =>
      rw [hparts] at h
      obtain ⟨b, he⟩ := h
      simp [he]

theorem decodePartWithin_eq_error_iff {type : Option StructType} {root : LexicalRoot}
    {around : Surroundings} {c c' : Cursor} {err : DecodeError} :
    decodePartWithin limits type root around c = .error err c' ↔
      ∃ st, type = some st ∧ st.decodeWithin limits around root.path c = .error err c' := by
  cases type with
  | none => simp [decodePartWithin, pure, EStateM.pure]
  | some st =>
      rw [decodePartWithin, bind_eq_error_iff]
      simp [pure, EStateM.pure]

/-- Parts fail in order as the first of them that does. -/
theorem decodeInOrder_eq_error_iff {ps : List (LexicalRoot × Option StructType)} {c c' : Cursor}
    {err : DecodeError} :
    decodeInOrder limits done ps c = .error err c' ↔
      ∃ pre root st post ds c₁, ps = pre ++ (root, some st) :: post ∧
        decodeInOrder limits done pre c = .ok ds c₁ ∧
        st.decodeWithin limits (Surroundings.after (done ++ ds)) root.path c₁ = .error err c' := by
  induction ps generalizing done c with
  | nil => simp [decodeInOrder, pure, EStateM.pure]
  | cons p ps ih =>
      obtain ⟨root, type⟩ := p
      simp only [decodeInOrder, bind_eq_error_iff]
      constructor
      · rintro (hpart | ⟨part, c₁, hpart, hrest | ⟨rest, c₂, -, hpure⟩⟩)
        · obtain ⟨st, rfl, hst⟩ := decodePartWithin_eq_error_iff.mp hpart
          exact ⟨[], root, st, ps, [], c, rfl, rfl, by simpa using hst⟩
        · obtain ⟨pre, root', st, post, ds, c₂, rfl, hpre, hst⟩ := ih.mp hrest
          refine ⟨(root, type) :: pre, root', st, post, part :: ds, c₂, rfl, ?_, by simpa using hst⟩
          simp only [decodeInOrder, bind_eq_ok_iff]
          exact ⟨part, c₁, hpart, ds, c₂, hpre, rfl⟩
        · cases hpure
      · rintro ⟨_ | ⟨⟨root', type'⟩, pre⟩, root₁, st, post, ds, c₁, hps, hpre, hst⟩
        · obtain ⟨⟨rfl, rfl⟩, rfl⟩ := by simpa using hps
          obtain ⟨rfl, rfl⟩ := pure_eq_ok_iff.mp hpre
          exact .inl (decodePartWithin_eq_error_iff.mpr ⟨st, rfl, by simpa using hst⟩)
        · obtain ⟨⟨rfl, rfl⟩, rfl⟩ := by simpa using hps
          simp only [decodeInOrder, bind_eq_ok_iff] at hpre
          obtain ⟨part, c₂, hpart, rest, c₃, hrest, hpure⟩ := hpre
          obtain ⟨rfl, rfl⟩ := pure_eq_ok_iff.mp hpure
          have hfails := ih.mpr ⟨pre, root₁, st, post, rest, c₃, rfl, hrest, by simpa using hst⟩
          exact .inr ⟨part, c₂, hpart, .inl hfails⟩

/-! ### The whole event -/

/-- What an event is decoded to, and how it fails. -/
structure DecodesInOrder (limits : Limits) (t : EventType) (packet : Option StructDefinition)
    (cpu : Option Nat) : Prop where
  /-- A structure is decoded in its surroundings as in any frame that shows these. -/
  structs : ∀ (st : StructType) (a : Arena) (scope : FrameId) (around : Surroundings) (path : Path),
    a.Shows scope around →
    Follows a (st.decodeAt limits scope path) (st.decodeWithin limits around path) (Same a)
  /-- The decode succeeds exactly if the parts can be decoded in order, and gives these. -/
  succeeds : ∀ c e c', t.decode limits packet cpu c = .ok e c' ↔
    ∃ parts, decodeInOrder limits [packet] t.parts c = .ok parts c' ∧
      e.Comprises t packet cpu parts
  /-- It fails exactly as the first part that cannot be decoded, whatever is declared after that. -/
  fails : ∀ c err c', t.decode limits packet cpu c = .error err c' ↔
    ∃ pre root st post done c₁, t.parts = pre ++ (root, some st) :: post ∧
      decodeInOrder limits [packet] pre c = .ok done c₁ ∧
      st.decodeWithin limits (Surroundings.after (packet :: done)) root.path c₁ = .error err c' ∧
      ∀ (t' : EventType) cpu', pre ++ [(root, some st)] <+: t'.parts →
        t'.decode limits packet cpu' c = .error err c'
  /-- A name without a dot is that of a field: of the structures that a part has around the value,
  the innermost first, then of the parts before, the latest first, and last of the context of the
  packet. -/
  references : ∀ (inner : Surroundings) (done : List (Option StructDefinition)) (name : String),
    '.' ∉ name.toList →
    Surroundings.lookup? (inner ++ Surroundings.after (packet :: done)) name =
      (inner.findSome? fun l => Definition.named? l.fields name).or
        ((done.reverse.findSome? fun part => part.bind fun s => Definition.named? s.fields name).or
          (packet.bind fun s => Definition.named? s.fields name))
  /-- A length or tag that is not found is an error, before anything is read. -/
  unresolved : ∀ (around : Surroundings) (name : String), around.lookup? name = none → ∀ path c,
    (∀ element, (Declaration.sequence name element).decodeWithin limits around path c =
      .error (.unresolvedReference name path.text) c) ∧
    ∀ members, (Declaration.variant (some name) members).decodeWithin limits around path c =
      .error (.unresolvedReference name path.text) c
  /-- The timestamp is the storage of the integer with its name in the header. -/
  timestamp : ∀ c e c', t.decode limits packet cpu c = .ok e c' →
    (∀ header type path storage, e.header = some header →
      Definition.named? header.fields timestampName = some (.integer type path storage) →
      e.timestamp = storage) ∧
    ((∀ header type path storage, e.header = some header →
      Definition.named? header.fields timestampName ≠ some (.integer type path storage)) →
      e.timestamp = 0)

/-- An event is decoded as its parts in order. -/
theorem decode_in_order (limits : Limits) (t : EventType) (packet : Option StructDefinition)
    (cpu : Option Nat) : t.DecodesInOrder limits packet cpu := by
  constructor
  · intro st a scope around path hshows
    exact st.follows_decodeAt limits hshows path
  · intro c e c'
    exact decode_eq_ok_iff
  · intro c err c'
    rw [decode_eq_error_iff, decodeInOrder_eq_error_iff]
    constructor
    · rintro ⟨pre, root, st, post, done, c₁, hparts, hpre, hst⟩
      refine ⟨pre, root, st, post, done, c₁, hparts, hpre, hst, ?_⟩
      rintro t' cpu' ⟨post', hpost'⟩
      rw [decode_eq_error_iff, decodeInOrder_eq_error_iff]
      exact ⟨pre, root, st, post', done, c₁, by simp [← hpost'], hpre, hst⟩
    · rintro ⟨pre, root, st, post, done, c₁, hparts, hpre, hst, -⟩
      exact ⟨pre, root, st, post, done, c₁, hparts, hpre, hst⟩
  · intro inner done name h
    exact Surroundings.lookup?_of_not_mem inner packet done h
  · intro around name h path c
    refine ⟨fun element => ?_, fun members => ?_⟩
    · rw [Declaration.decodeWithin, h]
      rfl
    · rw [Declaration.decodeWithin, Declaration.labelWithin, h]
      rfl
  · intro c e c' h
    obtain ⟨parts, -, hcomprises⟩ := decode_eq_ok_iff.mp h
    have hname : '.' ∉ timestampName.toList := by decide
    have hlookup : ∀ s : StructDefinition,
        s.lookup? timestampName = Definition.named? s.fields timestampName :=
      fun s => Definition.resolve_of_not_mem s.fields hname
    rw [hcomprises.timestamp, timestampOf]
    constructor
    · intro header type path storage hheader hfield
      simp [hheader, hlookup, hfield]
    · intro hnone
      cases hheader : e.header with
      | none => rfl
      | some header =>
          rw [Option.bind_some, hlookup]
          split
          next type path storage hfield =>
            exact absurd hfield (hnone header type path storage hheader)
          next => rfl

end EventType

end TraceFormat
