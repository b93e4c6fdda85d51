import Mathlib
import TraceFormat.Proofs.Declaration.Names

/-! # Names written out

A description may name a declaration instead of describing it.  The names are nothing but short:
wherever one stands, the description that it stands for could stand itself
(`Descriptor.build_expand`).

What a name stands for is the last description under it up to that place (`lastNamed`), with the
names in it written out in their turn (`expandNamed`).  So a description that uses a name keeps its
meaning when the name is given away again later, and a name that is used before it is given stands
for nothing and is left as it is, to be refused.  `MetadataDescriptor.build_written_out` says of a
whole stream that its declarations are those of its descriptions with all names written out. -/

namespace TraceFormat

/-! ### Writing names out -/

/-- The last description under a name. -/
def lastNamed (named : List (String × Descriptor)) (name : String) : Option Descriptor :=
  (named.reverse.find? (·.1 = name)).map Prod.snd

namespace Descriptor

mutual

/-- A description in which what the names stand for is written out. -/
def expand (meaning : String → Option Descriptor) : Descriptor → Descriptor
  | .integer d => .integer d
  | .float exponent mantissa byteOrder alignment => .float exponent mantissa byteOrder alignment
  | .string encoding => .string encoding
  | .enum container ranges => .enum container ranges
  | .array length element => .array length (element.expand meaning)
  | .sequence lengthName element => .sequence lengthName (element.expand meaning)
  | .struct minAlignment fields => .struct minAlignment (expandFields meaning fields)
  | .variant tag fields => .variant tag (expandFields meaning fields)
  | .reference name => (meaning name).getD (.reference name)

/-- Fields in which what the names stand for is written out. -/
def expandFields (meaning : String → Option Descriptor) :
    List (String × Descriptor) → List (String × Descriptor)
  | [] => []
  | (name, d) :: fields => (name, d.expand meaning) :: expandFields meaning fields

end

end Descriptor

/-- Named descriptions behind those in `done`, in each of which the names before it are written
out. -/
def expandNamed (done : List (String × Descriptor)) :
    List (String × Descriptor) → List (String × Descriptor)
  | [] => done
  | (name, d) :: named => expandNamed (done ++ [(name, d.expand (lastNamed done))]) named

/-- A structure in which what the names stand for is written out. -/
def StructDescriptor.expand (meaning : String → Option Descriptor) (d : StructDescriptor) :
    StructDescriptor :=
  ⟨d.minAlignment, Descriptor.expandFields meaning d.fields⟩

/-- An event in which what the names stand for is written out. -/
def EventDescriptor.expand (meaning : String → Option Descriptor) (d : EventDescriptor) :
    EventDescriptor :=
  ⟨d.name, d.id, d.header.map (·.expand meaning), d.streamContext.map (·.expand meaning),
    d.context.map (·.expand meaning), d.fields.map (·.expand meaning)⟩

/-- The description of a stream without named declarations: what they stand for is written out. -/
def MetadataDescriptor.expand (d : MetadataDescriptor) : MetadataDescriptor :=
  let meaning := lastNamed (expandNamed [] d.aliases)
  ⟨[], d.packetContext.map (·.expand meaning), d.events.map (·.expand meaning)⟩

/-! ### A table and what its names stand for -/

/-- Whether a table has for each name the declaration that is built from what the name stands for,
without a table. -/
def Aliases.Means (aliases : Aliases) (meaning : String → Option Descriptor) : Prop :=
  ∀ name, (meaning name).map (·.build ∅) = aliases[name]?.map .ok

namespace Aliases

theorem means_empty : Aliases.Means ∅ (lastNamed []) := fun name => by
  simp [lastNamed]

variable {aliases aliases' : Aliases} {meaning : String → Option Descriptor}

theorem lastNamed_concat (named : List (String × Descriptor)) (name : String) (d : Descriptor)
    (other : String) :
    lastNamed (named ++ [(name, d)]) other =
      if name = other then some d else lastNamed named other := by
  by_cases h : name = other <;> simp [lastNamed, h]

theorem Means.insert {named : List (String × Descriptor)} (h : aliases.Means (lastNamed named))
    (name : String) {d : Descriptor} {e : Declaration} (he : d.build ∅ = .ok e) :
    Aliases.Means (aliases.insert name e) (lastNamed (named ++ [(name, d)])) := by
  intro other
  rw [lastNamed_concat, Std.TreeMap.getElem?_insert]
  by_cases hname : name = other
  · simp [hname, he]
  · simp [hname, h other]

end Aliases

/-! ### Building what is written out -/

section

open Aliases (Means)

variable {aliases aliases' : Aliases} {meaning : String → Option Descriptor}

namespace Descriptor

theorem buildMembers_expandFields (fields : List (String × Descriptor))
    (h : ∀ f ∈ fields, (f.2.expand meaning).build ∅ = f.2.build aliases) (members : Members) :
    buildMembers ∅ members (expandFields meaning fields) = buildMembers aliases members fields := by
  induction fields generalizing members with
  | nil => rfl
  | cons f fields ih =>
      obtain ⟨name, d⟩ := f
      rw [List.forall_mem_cons] at h
      rw [expandFields, buildMembers, buildMembers, h.1]
      simp only [ih h.2]

/-- A description is built with the help of a table into what it is built into without one, once its
names are written out. -/
theorem build_expand (h : aliases.Means meaning) (d : Descriptor) :
    (d.expand meaning).build ∅ = d.build aliases := by
  induction d using Descriptor.induction with
  | integer | float | string | enum => simp only [expand, build]
  | array length element ih | sequence lengthName element ih => simp only [expand, build, ih]
  | struct minAlignment fields ih | variant tag fields ih =>
      simp only [expand, build, buildMembers_expandFields fields ih]
  | reference name =>
      have hname := h name
      rw [expand, build]
      cases hmeaning : meaning name with
      | none =>
          rw [hmeaning, Option.map_none, eq_comm, Option.map_eq_none_iff] at hname
          rw [hname, Option.getD_none, build]
          simp
      | some d =>
          rw [hmeaning, Option.map_some, eq_comm, Option.map_eq_some_iff] at hname
          obtain ⟨e, he, hbuild⟩ := hname
          rw [he, Option.getD_some, ← hbuild]

end Descriptor

/-- Each name of a table that is built stands for its last description, in which the names before it
are written out. -/
theorem Aliases.Means.buildAliases {done named : List (String × Descriptor)}
    (h : aliases.Means (lastNamed done))
    (hbuild : TraceFormat.buildAliases aliases named = .ok aliases') :
    aliases'.Means (lastNamed (expandNamed done named)) := by
  induction named generalizing aliases done with
  | nil =>
      rw [TraceFormat.buildAliases, Except.ok.injEq] at hbuild
      rw [← hbuild]
      exact h
  | cons n named ih =>
      obtain ⟨name, d⟩ := n
      rw [TraceFormat.buildAliases, except_bind_eq_ok_iff] at hbuild
      obtain ⟨e, he, hrest⟩ := hbuild
      rw [← d.build_expand h] at he
      exact ih (h.insert name he) hrest

theorem StructDescriptor.build_expand (h : aliases.Means meaning) (d : StructDescriptor) :
    (d.expand meaning).build ∅ = d.build aliases := by
  have hfields := Descriptor.buildMembers_expandFields d.fields
    (fun f _ => f.2.build_expand h) []
  simp only [build, expand, hfields]

theorem buildPart_expand (h : aliases.Means meaning) (d : Option StructDescriptor) :
    buildPart ∅ (d.map (·.expand meaning)) = buildPart aliases d := by
  cases d with
  | none => rfl
  | some d => simp only [Option.map_some, buildPart, d.build_expand h]

theorem EventDescriptor.build_expand (h : aliases.Means meaning) (d : EventDescriptor) :
    (d.expand meaning).build ∅ = d.build aliases := by
  simp only [build, expand, buildPart_expand h]

theorem EventDescriptor.mapM_build_expand (h : aliases.Means meaning)
    (events : List EventDescriptor) :
    (events.map (·.expand meaning)).mapM (·.build ∅) = events.mapM (·.build aliases) := by
  simp only [List.mapM_map, Function.comp_def, EventDescriptor.build_expand h]

end

namespace MetadataDescriptor

theorem map_build {d : MetadataDescriptor} {aliases : Aliases}
    (h : buildAliases ∅ d.aliases = .ok aliases) :
    (fun m => (m.packetContext, m.events)) <$> d.build = (do
      let packetContext ← buildPart aliases d.packetContext
      let events ← d.events.mapM (·.build aliases)
      return (packetContext, events)) := by
  unfold build
  rw [h]
  simp only [map_bind, map_pure]
  rfl

/-- The context of the packets and the events of a stream are built from their descriptions alone,
or are refused for the same reason, once the names in them are written out. -/
theorem build_written_out (d : MetadataDescriptor) {aliases : Aliases}
    (h : buildAliases ∅ d.aliases = .ok aliases) :
    (fun m => (m.packetContext, m.events)) <$> d.expand.build =
      (fun m => (m.packetContext, m.events)) <$> d.build := by
  have hmeans := Aliases.means_empty.buildAliases h
  have hempty : buildAliases ∅ d.expand.aliases = .ok ∅ := rfl
  rw [map_build h, map_build hempty]
  simp only [expand, buildPart_expand hmeans, EventDescriptor.mapM_build_expand hmeans]

theorem build_written_out_redefined :
    let byte : Descriptor := .integer ⟨8, false, .big, none, none, none, none⟩
    let word : Descriptor := .integer ⟨16, false, .big, none, none, none, none⟩
    let pair : Descriptor := .array 2 (.reference "size")
    let d : MetadataDescriptor := ⟨[("size", byte), ("pair", pair), ("size", word)],
      some ⟨0, [("n", .reference "size"), ("rest", .reference "pair")]⟩, []⟩
    let written : StructDescriptor := ⟨0, [("n", word), ("rest", .array 2 byte)]⟩
    (∃ aliases, buildAliases ∅ d.aliases = .ok aliases) ∧ d.expand = ⟨[], some written, []⟩ ∧
      (fun m => (m.packetContext, m.events)) <$> d.build =
        .ok (some ⟨0, [("n", .integer (.plain 16 false .big (by decide))),
          ("rest", .array 2 (.integer .uint8))]⟩, []) := by
  intro byte word pair d written
  have h : ∃ aliases, buildAliases ∅ d.aliases = .ok aliases := ⟨_, by
    dsimp only [d, byte, word, pair]
    cbv⟩
  obtain ⟨aliases, haliases⟩ := h
  have hbuild := build_written_out d haliases
  refine ⟨⟨aliases, haliases⟩, rfl, hbuild.symm.trans ?_⟩
  dsimp only [d, byte, word, pair]
  cbv

end MetadataDescriptor

end TraceFormat
