import Mathlib
import TraceFormat.Event
import TraceFormat.Proofs.Definition.Ways

/-! # Two contexts as one

The context of the stream and that of the event are looked at as one (`MergedContext`).  Put into
one list, the fields of the event come first and those of the stream follow, as far as the event has
none of the same name (`MergedContext.fields`).

A lookup does not go through this list but through the event and then, if nothing is found, through
the stream.  Either way a name leads to the field that its first part names and from there on with
the rest.  The two ways part where the event has this field but nothing in it under the rest: the
list has nothing then, and the lookup goes on to a field of the same name in the stream
(`MergedContext.Leaks`).  Other than that they agree (`MergedContext.lookup?_eq_resolve_iff`).  A
name that leaks is found below a field that the lookup itself does not find
(`MergedContext.found_below_hidden`). -/

namespace TraceFormat

/-- Whether fields have names of their own without dots. -/
structure Definition.PlainNames (fields : List Definition) : Prop where
  nodup : (fields.map Definition.name).Nodup
  dotFree : ∀ x ∈ fields, '.' ∉ x.name.toList

theorem DottedName.ofText_of_dotFree {name : String} (h : '.' ∉ name.toList) :
    ofText name = ⟨name, []⟩ := by
  simp [ofText, split_of_not_mem h]

namespace Definition

variable {fields more : List Definition} {name : String}

/-- What the parts of a name that follow the name of a value find in it. -/
def beneath (x : Definition) : List String → Option Definition
  | [] => some x
  | part :: parts => resolveParts x.inside part parts

theorem resolve_eq_bind_beneath (h : ∀ x ∈ fields, '.' ∉ x.name.toList) (name : String) :
    resolve fields name =
      (named? fields (DottedName.ofText name).head).bind (·.beneath (DottedName.ofText name).rest) := by
  unfold resolve
  generalize DottedName.ofText name = parts
  obtain ⟨head, rest⟩ := parts
  cases rest with
  | nil => exact (Option.bind_fun_some _).symm
  | cons part parts =>
      dsimp only
      rw [resolveParts, named?_join_of_dotFree h]
      cases named? fields head <;> rfl

theorem resolve_of_dotFree (h : '.' ∉ name.toList) : resolve fields name = named? fields name := by
  rw [resolve, DottedName.ofText_of_dotFree h, resolveParts]

theorem named?_eq_none_iff : named? fields name = none ↔ name ∉ fields.map Definition.name := by
  simp [named?, List.find?_eq_none]

theorem named?_append_filter (fields more : List Definition) (name : String) :
    named? (fields ++ more.filter (·.name ∉ fields.map Definition.name)) name =
      (named? fields name).or (named? more name) := by
  rw [named?, List.find?_append, ← named?, ← named?]
  cases hname : named? fields name with
  | some x => rw [Option.some_or, Option.some_or]
  | none =>
      have hfields := named?_eq_none_iff.mp hname
      rw [Option.none_or, Option.none_or, named?, named?, List.find?_filter]
      congr 1
      funext x
      by_cases hx : x.name = name
      · simp [hx, hfields]
      · simp [hx]

end Definition

namespace MergedContext

def streamFields (c : MergedContext) : List Definition := (c.stream.map (·.fields)).getD []

def eventFields (c : MergedContext) : List Definition := (c.event.map (·.fields)).getD []

/-- All fields of the event context and then those of the stream context that have other names. -/
def fields (c : MergedContext) : List Definition :=
  c.eventFields ++ c.streamFields.filter (·.name ∉ c.eventFields.map Definition.name)

/-- Whether the event context has a field of the first part of a name, but nothing under the name,
and the stream context has something. -/
def Leaks (c : MergedContext) (name : String) : Prop :=
  (DottedName.ofText name).head ∈ c.eventFields.map Definition.name ∧
    Definition.resolve c.eventFields name = none ∧
    Definition.resolve c.streamFields name ≠ none

variable {c : MergedContext} {name : String}

/-! ### Names -/

theorem eraseDups_eq_self {l : List String} (h : l.Nodup) : l.eraseDups = l := by
  induction l with
  | nil => rfl
  | cons a l ih =>
      rw [List.nodup_cons] at h
      rw [List.eraseDups_cons, List.filter_eq_self.mpr, ih h.2]
      intro b hb
      simpa using ne_of_mem_of_not_mem hb h.1

theorem names_eq (hstream : Definition.PlainNames c.streamFields)
    (hevent : Definition.PlainNames c.eventFields) :
    c.names = c.streamFields.map Definition.name ++
      (c.eventFields.map Definition.name).filter (· ∉ c.streamFields.map Definition.name) := by
  have hnames : c.names =
      (c.streamFields.map Definition.name ++ c.eventFields.map Definition.name).eraseDups := by
    obtain ⟨stream, event⟩ := c
    cases stream <;> cases event <;>
      simp [names, streamFields, eventFields, StructDefinition.names]
  rw [hnames, List.eraseDups_append, eraseDups_eq_self hstream.nodup, List.removeAll,
    eraseDups_eq_self (hevent.nodup.filter _)]
  congr 2
  funext name
  rw [List.elem_eq_mem, decide_not]

theorem nodup_names (hstream : Definition.PlainNames c.streamFields)
    (hevent : Definition.PlainNames c.eventFields) : c.names.Nodup := by
  rw [names_eq hstream hevent]
  refine hstream.nodup.append (hevent.nodup.filter _) fun name hname hother => ?_
  exact of_decide_eq_true (List.mem_filter.mp hother).2 hname

/-! ### Lookups -/

theorem lookup?_eq_or (c : MergedContext) (name : String) :
    c.lookup? name =
      (Definition.resolve c.eventFields name).or (Definition.resolve c.streamFields name) := by
  have hnil : Definition.resolve [] name = none := Definition.resolve_eq_bind_beneath (by simp) name
  obtain ⟨stream, event⟩ := c
  cases stream <;> cases event <;>
    simp [lookup?, streamFields, eventFields, StructDefinition.lookup?, hnil]

theorem resolve_eq_none_of_not_mem {fields : List Definition}
    (h : ∀ x ∈ fields, '.' ∉ x.name.toList)
    (hname : (DottedName.ofText name).head ∉ fields.map Definition.name) :
    Definition.resolve fields name = none := by
  rw [Definition.resolve_eq_bind_beneath h, Definition.named?_eq_none_iff.mpr hname,
    Option.bind_none]

/-- In the one list a name is looked up in the context that the field of its first part is from. -/
theorem resolve_fields (hstream : Definition.PlainNames c.streamFields)
    (hevent : Definition.PlainNames c.eventFields) (name : String) :
    Definition.resolve c.fields name =
      if (DottedName.ofText name).head ∈ c.eventFields.map Definition.name
      then Definition.resolve c.eventFields name else Definition.resolve c.streamFields name := by
  have hdotFree : ∀ x ∈ c.fields, '.' ∉ x.name.toList := by
    intro x hx
    rcases List.mem_append.mp hx with hx | hx
    · exact hevent.dotFree x hx
    · exact hstream.dotFree x (List.mem_of_mem_filter hx)
  rw [Definition.resolve_eq_bind_beneath hdotFree, fields, Definition.named?_append_filter,
    Definition.resolve_eq_bind_beneath hevent.dotFree,
    Definition.resolve_eq_bind_beneath hstream.dotFree]
  split_ifs with hmem
  · cases hfield : Definition.named? c.eventFields (DottedName.ofText name).head with
    | none => exact absurd hmem (Definition.named?_eq_none_iff.mp hfield)
    | some x => rw [Option.some_or]
  · rw [Definition.named?_eq_none_iff.mpr hmem, Option.none_or]

theorem lookup?_eq_iff (hstream : Definition.PlainNames c.streamFields)
    (hevent : Definition.PlainNames c.eventFields) (name : String) :
    c.lookup? name = Definition.resolve c.fields name ↔ ¬ c.Leaks name := by
  rw [lookup?_eq_or, resolve_fields hstream hevent, Leaks]
  split_ifs with hmem
  · cases Definition.resolve c.eventFields name <;> simp [hmem]
  · rw [resolve_eq_none_of_not_mem hevent.dotFree hmem]
    simp [hmem]

theorem not_leaks_of_dotFree (hname : '.' ∉ name.toList) : ¬ c.Leaks name := by
  rintro ⟨hmem, hnone, -⟩
  rw [DottedName.ofText_of_dotFree hname] at hmem
  rw [Definition.resolve_of_dotFree hname] at hnone
  exact Definition.named?_eq_none_iff.mp hnone hmem

/-- Where a name leaks, no list of fields without dots in their names has under all names what the
lookup finds. -/
theorem Leaks.exists_ne (h : c.Leaks name) (hevent : Definition.PlainNames c.eventFields)
    {fields : List Definition} (hfields : ∀ x ∈ fields, '.' ∉ x.name.toList) :
    ∃ other, c.lookup? other ≠ Definition.resolve fields other := by
  by_contra! hall
  obtain ⟨hmem, hnone, hsome⟩ := h
  have hname := hall name
  have hhead := hall (DottedName.ofText name).head
  generalize hparts : DottedName.ofText name = parts at hmem hhead
  have hdotFree : '.' ∉ parts.head.toList := by
    obtain ⟨x, hx, hxname⟩ := List.mem_map.mp hmem
    exact hxname ▸ hevent.dotFree x hx
  cases hfield : Definition.named? c.eventFields parts.head with
  | none => exact Definition.named?_eq_none_iff.mp hfield hmem
  | some x =>
      -- the first part finds the field of the event, under which there is nothing
      rw [lookup?_eq_or, Definition.resolve_of_dotFree hdotFree, hfield, Option.some_or,
        Definition.resolve_of_dotFree hdotFree] at hhead
      rw [Definition.resolve_eq_bind_beneath hevent.dotFree, hparts, hfield] at hnone
      rw [lookup?_eq_or, Definition.resolve_eq_bind_beneath hevent.dotFree, hparts, hfield, hnone,
        Option.none_or, Definition.resolve_eq_bind_beneath hfields, hparts, ← hhead, hnone] at hname
      exact hsome hname

/-- The names are those of the stream context in order and then those of the event context that it
has not, each once.  A lookup finds what the one list of fields has, unless the name leaks: then
the list has nothing under the name, and the lookup finds what the stream context has, as it would
not in any list of fields.  Names without dots do not leak. -/
theorem lookup?_eq_resolve_iff (hstream : Definition.PlainNames c.streamFields)
    (hevent : Definition.PlainNames c.eventFields) :
    (c.names = c.streamFields.map Definition.name ++
      (c.eventFields.map Definition.name).filter (· ∉ c.streamFields.map Definition.name) ∧
      c.names.Nodup) ∧
    ∀ name, (c.lookup? name = Definition.resolve c.fields name ↔ ¬ c.Leaks name) ∧
      (c.Leaks name → Definition.resolve c.fields name = none ∧
        c.lookup? name = Definition.resolve c.streamFields name ∧
        ∀ fields, (∀ x ∈ fields, '.' ∉ x.name.toList) →
          ∃ other, c.lookup? other ≠ Definition.resolve fields other) ∧
      ('.' ∉ name.toList → ¬ c.Leaks name) := by
  refine ⟨⟨names_eq hstream hevent, nodup_names hstream hevent⟩, fun name =>
    ⟨lookup?_eq_iff hstream hevent name, fun hleaks => ?_, not_leaks_of_dotFree⟩⟩
  refine ⟨?_, ?_, fun fields hfields => hleaks.exists_ne hevent hfields⟩
  · rw [resolve_fields hstream hevent, if_pos hleaks.1, hleaks.2.1]
  · rw [lookup?_eq_or, hleaks.2.1, Option.none_or]

/-- Both contexts have a field `ctx` with a member `cpu`: that of the event is found. -/
theorem lookup?_eq_resolve_iff_shared :
    let byte (lead name : String) (value : BitVec 64) : Definition :=
      .integer .uint8 ⟨lead, name⟩ value
    let inner : Members := [("cpu", .integer .uint8)]
    let ctx (lead : String) (cpu : Definition) : Definition := .struct ⟨1, inner⟩ ⟨lead, "ctx"⟩ [cpu]
    let streamType : StructType := ⟨1, [("pid", .integer .uint8), ("ctx", .struct 1 inner)]⟩
    let eventType : StructType := ⟨1, [("ctx", .struct 1 inner), ("tid", .integer .uint8)]⟩
    let c : MergedContext :=
      ⟨some ⟨streamType, .root "s", [byte "s." "pid" 1, ctx "s." (byte "s.ctx." "cpu" 2)]⟩,
        some ⟨eventType, .root "e", [ctx "e." (byte "e.ctx." "cpu" 3), byte "e." "tid" 4]⟩⟩
    Definition.PlainNames c.streamFields ∧ Definition.PlainNames c.eventFields ∧
      c.names = ["pid", "ctx", "tid"] ∧ ¬ c.Leaks "ctx.cpu" ∧
      c.lookup? "ctx.cpu" = Definition.resolve c.fields "ctx.cpu" ∧
      c.lookup? "ctx.cpu" = some (byte "e.ctx." "cpu" 3) := by
  intro byte inner ctx streamType eventType c
  have hstream : Definition.PlainNames c.streamFields := ⟨by decide, by decide⟩
  have hevent : Definition.PlainNames c.eventFields := ⟨by decide, by decide⟩
  obtain ⟨⟨hnames, -⟩, hlookup⟩ := lookup?_eq_resolve_iff hstream hevent
  have hfound : Definition.resolve c.eventFields "ctx.cpu" = some (byte "e.ctx." "cpu" 3) := rfl
  have hleaks : ¬ c.Leaks "ctx.cpu" := by
    rintro ⟨-, hnone, -⟩
    rw [hfound] at hnone
    cases hnone
  exact ⟨hstream, hevent, hnames.trans (by decide), hleaks, (hlookup "ctx.cpu").1.mpr hleaks, rfl⟩

/-- Both contexts have a field `ctx`, and only in that of the stream there is a `tid`: it is found,
although `ctx` finds the field of the event. -/
theorem found_below_hidden :
    let tids : Members := [("tid", .integer .uint8)]
    let cpus : Members := [("cpu", .integer .uint8)]
    let tid : Definition := .integer .uint8 ⟨"stream.event.context.ctx.", "tid"⟩ 1
    let own : Definition := .struct ⟨0, cpus⟩ ⟨"event.context.", "ctx"⟩
      [.integer .uint8 ⟨"event.context.ctx.", "cpu"⟩ 2]
    let stream : StructDefinition :=
      ⟨⟨0, [("ctx", .struct 0 tids)]⟩, LexicalRoot.streamEventContext.path,
        [.struct ⟨0, tids⟩ ⟨"stream.event.context.", "ctx"⟩ [tid]]⟩
    let event : StructDefinition :=
      ⟨⟨0, [("ctx", .struct 0 cpus)]⟩, LexicalRoot.eventContext.path, [own]⟩
    let c : MergedContext := ⟨some stream, some event⟩
    Definition.PlainNames c.streamFields ∧ Definition.PlainNames c.eventFields ∧
      c.lookup? "ctx" = some own ∧ c.lookup? "ctx.tid" = some tid ∧
      Definition.resolve c.fields "ctx.tid" = none := by
  intro tids cpus tid own stream event c
  exact ⟨⟨by decide, by decide⟩, ⟨by decide, by decide⟩, rfl, rfl, rfl⟩

end MergedContext

end TraceFormat
