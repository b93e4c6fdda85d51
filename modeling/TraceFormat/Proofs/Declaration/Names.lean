import Mathlib.Data.List.Nodup
import Mathlib.Tactic.Common
import TraceFormat.Metadata

/-! # Names of members

The members of a structure or variant are put together one by one, and each has to bring a name of
its own (`Members.insert`).  So no two members of a list have the same name and none has an empty
one (`Members.Distinct`).  This holds of every list of members in a declaration that is built from a
description (`Descriptor.everywhere_distinct`) and in all declarations of a stream
(`MetadataDescriptor.distinct`). -/

namespace TraceFormat

namespace Members

/-- Whether all members have a name and no two of them the same. -/
def Distinct (members : Members) : Prop := "" ∉ members.names ∧ members.names.Nodup

/-- Whether no member has a dot in its name. -/
def DotFree (members : Members) : Prop := ∀ name ∈ members.names, '.' ∉ name.toList

instance (members : Members) : Decidable members.Distinct :=
  inferInstanceAs (Decidable ("" ∉ members.names ∧ members.names.Nodup))

instance (members : Members) : Decidable members.DotFree :=
  inferInstanceAs (Decidable (∀ name ∈ members.names, '.' ∉ name.toList))

theorem insert_eq_ok_iff {members members' : Members} {name : String} {d : Declaration} :
    members.insert name d = .ok members' ↔
      name ≠ "" ∧ name ∉ members.names ∧ members' = members ++ [(name, d)] := by
  unfold insert
  split_ifs with hempty hdup
  · simp [hempty]
  · simp [List.contains_iff_mem.mp hdup]
  · simp [hempty, mt List.contains_iff_mem.mpr hdup, eq_comm]

theorem Distinct.insert {members members' : Members} {name : String} {d : Declaration}
    (h : members.Distinct) (hinsert : members.insert name d = .ok members') :
    members'.Distinct := by
  obtain ⟨hname, hnew, rfl⟩ := insert_eq_ok_iff.mp hinsert
  obtain ⟨hempty, hnodup⟩ := h
  have hnames : names (members ++ [(name, d)]) = members.names ++ [name] := List.map_append
  rw [Distinct, hnames]
  refine ⟨?_, ?_⟩
  · rw [List.mem_append, List.mem_singleton, not_or]
    exact ⟨hempty, Ne.symm hname⟩
  · rw [List.nodup_append]
    refine ⟨hnodup, List.nodup_singleton name, fun other hother last hlast => ?_⟩
    obtain rfl := List.mem_singleton.mp hlast
    exact ne_of_mem_of_not_mem hother hnew

end Members

/-- A declaration in which all lists of members, at any depth, have a property. -/
inductive Declaration.Everywhere (P : Members → Prop) : Declaration → Prop
  | integer (t : IntegerType) : Everywhere P (.integer t)
  | float (t : FloatType) : Everywhere P (.float t)
  | string (encoding : Encoding) : Everywhere P (.string encoding)
  | enum (t : EnumType) : Everywhere P (.enum t)
  | array {n : Nat} {element : Declaration} : Everywhere P element → Everywhere P (.array n element)
  | sequence {name : String} {element : Declaration} :
      Everywhere P element → Everywhere P (.sequence name element)
  | struct {minAlignment : Nat} {members : Members} :
      P members → (∀ m ∈ members, Everywhere P m.2) → Everywhere P (.struct minAlignment members)
  | variant {tag : Option String} {members : Members} :
      P members → (∀ m ∈ members, Everywhere P m.2) → Everywhere P (.variant tag members)

namespace Declaration

variable {P : Members → Prop} {members : Members}

theorem everywhere_array {n : Nat} {element : Declaration} :
    (array n element).Everywhere P ↔ element.Everywhere P :=
  ⟨fun | .array h => h, .array⟩

theorem everywhere_sequence {name : String} {element : Declaration} :
    (sequence name element).Everywhere P ↔ element.Everywhere P :=
  ⟨fun | .sequence h => h, .sequence⟩

theorem everywhere_struct {minAlignment : Nat} :
    (struct minAlignment members).Everywhere P ↔ P members ∧ ∀ m ∈ members, m.2.Everywhere P :=
  ⟨fun | .struct h hinside => ⟨h, hinside⟩, fun h => .struct h.1 h.2⟩

theorem everywhere_variant {tag : Option String} :
    (variant tag members).Everywhere P ↔ P members ∧ ∀ m ∈ members, m.2.Everywhere P :=
  ⟨fun | .variant h hinside => ⟨h, hinside⟩, fun h => .variant h.1 h.2⟩

end Declaration

/-! ### Declarations that are built -/

theorem except_bind_eq_ok_iff {ε α β : Type} {x : Except ε α} {f : α → Except ε β} {b : β} :
    (x >>= f) = .ok b ↔ ∃ a, x = .ok a ∧ f a = .ok b := by
  cases x <;> simp [bind, Except.bind]

theorem except_pure_eq_ok_iff {ε α : Type} {a b : α} : (pure a : Except ε α) = .ok b ↔ a = b := by
  simp [pure, Except.pure]

theorem except_bind_pure_eq_ok_iff {ε α β : Type} {x : Except ε α} {f : α → β} {b : β} :
    (x >>= fun a => pure (f a)) = .ok b ↔ ∃ a, x = .ok a ∧ f a = b := by
  simp only [except_bind_eq_ok_iff, except_pure_eq_ok_iff]

/-- Whether the declarations that have a name in a table have distinct names everywhere. -/
def Aliases.Distinct (aliases : Aliases) : Prop :=
  ∀ (name : String) d, aliases[name]? = some d → d.Everywhere Members.Distinct

/-- Whether members have distinct names, and those inside them. -/
def Members.DistinctEverywhere (members : Members) : Prop :=
  members.Distinct ∧ ∀ m ∈ members, m.2.Everywhere Members.Distinct

theorem Members.DistinctEverywhere.nil : Members.DistinctEverywhere [] :=
  ⟨⟨List.not_mem_nil, List.nodup_nil⟩, fun _ hm => absurd hm List.not_mem_nil⟩

variable {aliases aliases' : Aliases}

namespace Descriptor

/-- Fields that are built one by one are members with distinct names. -/
theorem distinctEverywhere_buildMembers {members members' : Members}
    {fields : List (String × Descriptor)}
    (hfields : ∀ f ∈ fields, ∀ e, f.2.build aliases = .ok e → e.Everywhere Members.Distinct)
    (hmembers : members.DistinctEverywhere)
    (h : buildMembers aliases members fields = .ok members') : members'.DistinctEverywhere := by
  induction fields generalizing members with
  | nil =>
      rw [buildMembers, Except.ok.injEq] at h
      rw [← h]
      exact hmembers
  | cons f fields ih =>
      obtain ⟨name, field⟩ := f
      rw [List.forall_mem_cons] at hfields
      rw [buildMembers, except_bind_eq_ok_iff] at h
      obtain ⟨e, he, h⟩ := h
      obtain ⟨members₁, hinsert, h⟩ := except_bind_eq_ok_iff.mp h
      refine ih hfields.2 ⟨hmembers.1.insert hinsert, ?_⟩ h
      obtain ⟨-, -, rfl⟩ := Members.insert_eq_ok_iff.mp hinsert
      intro m hm
      rcases List.mem_append.mp hm with hm | hm
      · exact hmembers.2 m hm
      · obtain rfl := List.mem_singleton.mp hm
        exact hfields.1 e he

/-- What is built from a description has distinct names everywhere, if the declarations that it may
refer to have. -/
theorem everywhere_distinct (haliases : aliases.Distinct) (d : Descriptor) {e : Declaration}
    (h : d.build aliases = .ok e) : e.Everywhere Members.Distinct := by
  induction d using Descriptor.induction generalizing e with
  | integer d =>
      rw [build, except_bind_pure_eq_ok_iff] at h
      obtain ⟨t, -, rfl⟩ := h
      exact .integer t
  | float exponent mantissa byteOrder alignment =>
      rw [build, except_bind_pure_eq_ok_iff] at h
      obtain ⟨t, -, rfl⟩ := h
      exact .float t
  | string encoding =>
      rw [build, except_pure_eq_ok_iff] at h
      rw [← h]
      exact .string encoding
  | enum container ranges =>
      rw [build, except_bind_eq_ok_iff] at h
      obtain ⟨t, -, h⟩ := h
      obtain ⟨t', -, rfl⟩ := except_bind_pure_eq_ok_iff.mp h
      exact .enum t'
  | array length element ih =>
      rw [build, except_bind_pure_eq_ok_iff] at h
      obtain ⟨e', he, rfl⟩ := h
      exact .array (ih he)
  | sequence lengthName element ih =>
      rw [build, except_bind_pure_eq_ok_iff] at h
      obtain ⟨e', he, rfl⟩ := h
      exact .sequence (ih he)
  | struct minAlignment fields ih =>
      rw [build, except_bind_pure_eq_ok_iff] at h
      obtain ⟨members, hmembers, rfl⟩ := h
      have hbuilt := distinctEverywhere_buildMembers (fun f hf e he => ih f hf he) .nil hmembers
      exact Declaration.everywhere_struct.mpr hbuilt
  | variant tag fields ih =>
      rw [build, except_bind_pure_eq_ok_iff] at h
      obtain ⟨members, hmembers, rfl⟩ := h
      have hbuilt := distinctEverywhere_buildMembers (fun f hf e he => ih f hf he) .nil hmembers
      exact Declaration.everywhere_variant.mpr hbuilt
  | reference name =>
      rw [build] at h
      cases hfound : aliases[name]? with
      | none =>
          rw [hfound] at h
          cases h
      | some d =>
          rw [hfound, Except.ok.injEq] at h
          rw [← h]
          exact haliases name d hfound

end Descriptor

theorem StructDescriptor.everywhere_distinct (haliases : aliases.Distinct) (d : StructDescriptor)
    {t : StructType} (h : d.build aliases = .ok t) :
    t.declaration.Everywhere Members.Distinct := by
  rw [build, except_bind_pure_eq_ok_iff] at h
  obtain ⟨members, hmembers, rfl⟩ := h
  exact Declaration.everywhere_struct.mpr (Descriptor.distinctEverywhere_buildMembers
    (fun f _ e he => f.2.everywhere_distinct haliases he) .nil hmembers)

theorem Aliases.Distinct.buildAliases {named : List (String × Descriptor)}
    (haliases : aliases.Distinct) (h : buildAliases aliases named = .ok aliases') :
    aliases'.Distinct := by
  induction named generalizing aliases with
  | nil =>
      rw [TraceFormat.buildAliases, Except.ok.injEq] at h
      rw [← h]
      exact haliases
  | cons n named ih =>
      obtain ⟨name, d⟩ := n
      rw [TraceFormat.buildAliases, except_bind_eq_ok_iff] at h
      obtain ⟨e, he, h⟩ := h
      refine ih (fun other e' he' => ?_) h
      rw [Std.TreeMap.getElem?_insert] at he'
      split_ifs at he' with hname
      · rw [Option.some.injEq] at he'
        rw [← he']
        exact d.everywhere_distinct haliases he
      · exact haliases other e' he'

theorem everywhere_distinct_of_buildPart (haliases : aliases.Distinct)
    {d : Option StructDescriptor} {part : Option StructType} (h : buildPart aliases d = .ok part) :
    ∀ t ∈ part, t.declaration.Everywhere Members.Distinct := by
  intro t ht
  cases d with
  | none =>
      rw [buildPart, Except.ok.injEq] at h
      rw [← h] at ht
      cases ht
  | some d =>
      rw [buildPart, ← bind_pure_comp, except_bind_eq_ok_iff] at h
      obtain ⟨t', ht', h⟩ := h
      rw [← except_pure_eq_ok_iff.mp h, Option.mem_some_iff] at ht
      rw [← ht]
      exact d.everywhere_distinct haliases ht'

/-- Whether the parts of an event have distinct names everywhere. -/
def EventType.Distinct (event : EventType) : Prop :=
  ∀ part ∈ [event.header, event.streamContext, event.context, event.fields],
    ∀ t ∈ part, t.declaration.Everywhere Members.Distinct

theorem EventDescriptor.distinct (haliases : aliases.Distinct) (d : EventDescriptor)
    {event : EventType} (h : d.build aliases = .ok event) : event.Distinct := by
  rw [build, except_bind_eq_ok_iff] at h
  obtain ⟨header, hheader, h⟩ := h
  obtain ⟨streamContext, hstream, h⟩ := except_bind_eq_ok_iff.mp h
  obtain ⟨context, hcontext, h⟩ := except_bind_eq_ok_iff.mp h
  obtain ⟨fields, hfields, h⟩ := except_bind_eq_ok_iff.mp h
  rw [← except_pure_eq_ok_iff.mp h]
  simp only [EventType.Distinct, List.forall_mem_cons, List.not_mem_nil, false_implies,
    implies_true, and_true]
  exact ⟨everywhere_distinct_of_buildPart haliases hheader,
    everywhere_distinct_of_buildPart haliases hstream,
    everywhere_distinct_of_buildPart haliases hcontext,
    everywhere_distinct_of_buildPart haliases hfields⟩

theorem EventDescriptor.distinct_of_mapM (haliases : aliases.Distinct)
    {descriptors : List EventDescriptor} {events : List EventType}
    (h : descriptors.mapM (·.build aliases) = .ok events) : ∀ event ∈ events, event.Distinct := by
  induction descriptors generalizing events with
  | nil =>
      rw [List.mapM_nil, except_pure_eq_ok_iff] at h
      rw [← h]
      exact fun _ hevent => absurd hevent List.not_mem_nil
  | cons descriptor descriptors ih =>
      rw [List.mapM_cons, except_bind_eq_ok_iff] at h
      obtain ⟨event, hevent, h⟩ := h
      obtain ⟨rest, hrest, h⟩ := except_bind_eq_ok_iff.mp h
      rw [← except_pure_eq_ok_iff.mp h]
      exact List.forall_mem_cons.mpr ⟨descriptor.distinct haliases hevent, ih hrest⟩

/-- All declarations of a stream have distinct names everywhere. -/
theorem MetadataDescriptor.distinct (d : MetadataDescriptor) {m : Metadata} (h : d.build = .ok m) :
    m.aliases.Distinct ∧
      (∀ t ∈ m.packetContext, t.declaration.Everywhere Members.Distinct) ∧
      ∀ event ∈ m.events, event.Distinct := by
  rw [build, except_bind_eq_ok_iff] at h
  obtain ⟨aliases, haliases, h⟩ := h
  obtain ⟨packetContext, hpacket, h⟩ := except_bind_eq_ok_iff.mp h
  obtain ⟨events, hevents, h⟩ := except_bind_eq_ok_iff.mp h
  have hempty : Aliases.Distinct ∅ := fun name d hd => by simp at hd
  have hdistinct := hempty.buildAliases haliases
  rw [← except_pure_eq_ok_iff.mp h]
  exact ⟨hdistinct, everywhere_distinct_of_buildPart hdistinct hpacket,
    EventDescriptor.distinct_of_mapM hdistinct hevents⟩

end TraceFormat
