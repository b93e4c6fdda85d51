import Mathlib
import TraceFormat.Proofs.Definition.Ways
import TraceFormat.Proofs.Event.InOrder
import TraceFormat.Proofs.Text.Numeral

/-! # The timestamp that an event shows

The text of an event has a line for the timestamp, and exactly one text stands there
(`Event.showsTimestamp_iff`).  It is made from storage alone: by then the type of the field in the
header is no longer at hand, and the storage is read with a sign.  The header shows the same storage
as its type says.

Both show one number unless the type has no sign and the highest of its 64 bits is set, where the
line of the timestamp is `2 ^ 64` less (`EventType.timestamp_shown`); so what has 63 bits or fewer
is shown as it is.  The greatest timestamp is shown as minus one
(`EventType.timestamp_shown_negative`). -/

namespace TraceFormat

open Text.Numeral (decimal render)

/-! ### One line of a text -/

/-- Whether nothing of a line is left in a text, which is empty or begins with a line break. -/
def EndsLine (text : String) : Prop := text.toList.takeWhile (· != '\n') = []

theorem EndsLine.append {s t : String} (hs : EndsLine s) (ht : EndsLine t) : EndsLine (s ++ t) := by
  unfold EndsLine at hs ht ⊢
  rw [String.toList_append, List.takeWhile_append, hs, ht]
  split_ifs with hlength
  · rw [List.append_nil, List.length_eq_zero_iff.mp hlength.symm]
  · rfl

/-- A text that goes on with the end of a line settles what is on the line. -/
theorem EndsLine.eq_of_append_eq {a b r s : String} (hr : EndsLine r) (hs : EndsLine s)
    (ha : '\n' ∉ a.toList) (hb : '\n' ∉ b.toList) (h : a ++ r = b ++ s) : a = b := by
  have hline : ∀ {l m : String}, '\n' ∉ l.toList → EndsLine m →
      (l ++ m).toList.takeWhile (· != '\n') = l.toList := by
    intro l m hl hm
    have hall : ∀ x ∈ l.toList, (x != '\n') = true := fun x hx => by
      simpa using ne_of_mem_of_not_mem hx hl
    rw [String.toList_append, List.takeWhile_append_of_pos hall, hm, List.append_nil]
  rw [← String.toList_inj, ← hline ha hr, h, hline hb hs]

namespace Event

/-- What an event shows in front of the timestamp. -/
def timestampTitle (e : Event) : String :=
  "Event type: " ++ e.type.name.getD "null" ++ "\nTimestamp: "

/-- Whether a text is what stands in the line of the timestamp. -/
def ShowsTimestamp (e : Event) (shown : String) : Prop :=
  '\n' ∉ shown.toList ∧ ∃ rest, e.text = e.timestampTitle ++ (shown ++ rest) ∧ EndsLine rest

/-- What follows the timestamp. -/
def partTexts (e : Event) : String :=
  partText "Header" e.header ++ partText "Packet context" e.packetContext
    ++ partText "Stream context" e.streamContext ++ partText "Event context" e.eventContext
    ++ partText "Fields" e.fields

theorem text_eq (e : Event) :
    e.text = e.timestampTitle ++ (decimal e.timestamp.toInt ++ e.partTexts) := by
  unfold text timestampTitle partTexts
  simp only [String.append_assoc]

theorem endsLine_partText (title : String) (part : Option StructDefinition) :
    EndsLine (partText title part) := by
  cases part with
  | none => rfl
  | some part => simp [EndsLine, partText]

theorem endsLine_partTexts (e : Event) : EndsLine e.partTexts :=
  ((((endsLine_partText _ _).append (endsLine_partText _ _)).append (endsLine_partText _ _)).append
    (endsLine_partText _ _)).append (endsLine_partText _ _)

/-- In the line of the timestamp there is the number of the storage, read with a sign. -/
theorem showsTimestamp_iff {e : Event} {shown : String} :
    e.ShowsTimestamp shown ↔ shown = decimal e.timestamp.toInt := by
  have hdecimal := Text.Numeral.newline_not_mem_decimal e.timestamp.toInt
  constructor
  · rintro ⟨hshown, rest, htext, hrest⟩
    have hafter := (String.append_right_inj _).mp (htext.symm.trans e.text_eq)
    exact hrest.eq_of_append_eq e.endsLine_partTexts hshown hdecimal hafter
  · rintro rfl
    exact ⟨hdecimal, e.partTexts, e.text_eq, e.endsLine_partTexts⟩

end Event

/-! ### The field in the header -/

namespace Declaration

variable {limits : Limits} {data : Array UInt8} {a : Arena} {scope : FrameId} {path : Path}
  {s e : Nat} {reads : List Read} {fields : List Definition} {members : Members} {name : String}
  {d : Declaration}

theorem exists_named?_of_find? (h : List.Forall₂ (Field path) fields members)
    (hd : members.find? name = some d) :
    ∃ field, Definition.named? fields name = some field ∧ field.declaration = d := by
  induction h with
  | nil => cases hd
  | @cons field member fields members hfield _ ih =>
      rw [Members.find?, List.find?_cons] at hd
      rw [Definition.named?, List.find?_cons, hfield.1]
      by_cases hmember : member.1 = name
      · rw [decide_eq_true hmember] at hd ⊢
        exact ⟨field, rfl, hfield.2.2.trans (Option.some.inj hd)⟩
      · rw [decide_eq_false hmember] at hd ⊢
        exact ih hd

theorem Decodes.exists_named? {t : StructType} {struct : StructDefinition}
    (h : Decodes limits data t.declaration a scope path s struct.definition reads e)
    (hd : t.members.find? name = some d) :
    ∃ field, Definition.named? struct.fields name = some field ∧
      ∃ a scope path s reads e, Decodes limits data d a scope path s field reads e := by
  have hfields : List.Forall₂ (Field struct.path) struct.fields struct.type.members := h.conforms
  have hmembers : struct.type.members = t.members := (Declaration.struct.inj h.declaration_eq).2
  rw [hmembers] at hfields
  obtain ⟨field, hfound, rfl⟩ := exists_named?_of_find? hfields hd
  obtain ⟨d', a', scope', path', s', reads', e', hfield⟩ :=
    h.exists_of_mem_parts (x := field) (List.mem_of_find?_eq_some hfound)
  rw [← hfield.declaration_eq] at hfield
  exact ⟨field, hfound, a', scope', path', s', reads', e', hfield⟩

end Declaration

namespace EventType

variable {limits : Limits} {t : EventType} {packet : Option StructDefinition} {cpu : Option Nat}
  {c c' : Cursor} {e : Event} {st : StructType}

theorem exists_header (h : t.decode limits packet cpu c = .ok e c') (hst : t.header = some st) :
    ∃ header, e.header = some header ∧ ∃ a scope path reads stop,
      Declaration.Decodes limits c.data st.declaration a scope path c.position header.definition
        reads stop := by
  obtain ⟨parts, hparts, hcomprises⟩ := decode_eq_ok_iff.mp h
  rw [EventType.parts, hst, decodeInOrder, bind_eq_ok_iff] at hparts
  obtain ⟨part, c₁, hpart, hrest⟩ := hparts
  obtain ⟨rest, c₂, -, hpure⟩ := bind_eq_ok_iff.mp hrest
  obtain ⟨header, c₃, hheader, hsome⟩ := bind_eq_ok_iff.mp hpart
  obtain ⟨rfl, rfl⟩ := pure_eq_ok_iff.mp hpure
  obtain ⟨rfl, rfl⟩ := pure_eq_ok_iff.mp hsome
  have heq := hcomprises.parts
  rw [Event.parts, List.cons.injEq] at heq
  -- the surroundings are those of a frame, in which the decode is one with an arena
  obtain ⟨scope, a, -, hshows⟩ := outermost_apply packet
  have hfollows := st.follows_decodeAt limits hshows LexicalRoot.streamEventHeader.path c
  rw [hheader] at hfollows
  obtain ⟨header', a', hdecode, rfl, rfl⟩ := hfollows
  have hdeclaration : Declaration.decodeAt limits st.declaration scope
      LexicalRoot.streamEventHeader.path ⟨⟨c.data, c.position⟩, a'⟩ =
        .ok header'.definition ⟨c₃, a'⟩ := by
    rw [StructType.decodeAt_declaration]
    exact map_eq_ok_iff.mpr ⟨_, rfl, hdecode⟩
  obtain ⟨reads, stop, hdecodes, -⟩ :=
    Declaration.decodes_of_decodeAt hshows.live.next_ne_root hdeclaration
  exact ⟨header', heq.1, _, _, _, _, _, hdecodes⟩

end EventType

/-! ### Events with nothing but a timestamp -/

/-- An event type that declares only a header, and in it only the timestamp. -/
def EventType.ofTimestamp (name : String) (type : IntegerType) : EventType :=
  ⟨some name, none, some ⟨0, [(timestampName, .integer type)]⟩, none, none, none⟩

/-- An event of such a type. -/
def Event.ofTimestamp (name : String) (type : IntegerType) (storage : BitVec 64) : Event :=
  let path := LexicalRoot.streamEventHeader.path
  let header : StructDefinition :=
    ⟨⟨0, [(EventType.timestampName, .integer type)]⟩, path,
      [.integer type (path.child EventType.timestampName) storage]⟩
  ⟨.ofTimestamp name type, none, storage, some header, none, none, none, none⟩

theorem Event.timestampOf_ofTimestamp (name : String) (type : IntegerType) (storage : BitVec 64) :
    EventType.timestampOf (Event.ofTimestamp name type storage).header = storage := by
  rw [ofTimestamp, EventType.timestampOf, Option.bind_some, StructDefinition.lookup?,
    Definition.resolve_of_not_mem _ (by decide), Definition.named?, List.find?_cons]
  simp [Definition.name, Definition.path]

theorem EventType.decode_ofTimestamp (limits : Limits) (name : String) {type : IntegerType}
    {storage : BitVec 64} {data : Array UInt8} {c : Cursor}
    (h : type.read ⟨data, 0⟩ = .ok storage c) :
    (ofTimestamp name type).decode limits none none ⟨data, 0⟩ =
      .ok (Event.ofTimestamp name type storage) c := by
  let e := Event.ofTimestamp name type storage
  have hheader : decodePartWithin limits (ofTimestamp name type).header .streamEventHeader
      (Surroundings.after [none]) ⟨data, 0⟩ = .ok e.header c := by
    simp [e, ofTimestamp, Event.ofTimestamp, decodePartWithin, StructType.decodeWithin,
      Declaration.decodeFieldsWithin, Declaration.decodeWithin, DecodeM.ofRead, DecodeM.onCursor,
      alignTo, Cursor.alignTo, alignUp, bind, EStateM.bind, pure, EStateM.pure, h]
  refine decode_eq_ok_iff.mpr ⟨[e.header, none, none, none], ?_, rfl, rfl, rfl, rfl, ?_⟩
  · rw [parts, decodeInOrder, bind_eq_ok_iff]
    exact ⟨e.header, c, hheader, bind_eq_ok_iff.mpr ⟨[none, none, none], c, rfl, rfl⟩⟩
  · exact (Event.timestampOf_ofTimestamp name type storage).symm

/-! ### What is shown -/

theorem IntegerType.toInt_eq (type : IntegerType) (storage : BitVec 64) :
    storage.toInt =
      if type.signed = true ∨ type.value storage < 2 ^ 63 then type.value storage
      else type.value storage - 2 ^ 64 := by
  unfold value
  cases type.signed with
  | true => simp
  | false =>
      rw [BitVec.toInt_eq_toNat_cond]
      simp only [Bool.false_eq_true, false_or, if_false]
      split_ifs <;> omega

theorem IntegerType.value_lt {type : IntegerType} {storage : BitVec 64} (h : type.Holds storage)
    (hlength : type.length < 64) : type.value storage < 2 ^ 63 := by
  have hle : 2 ^ type.length ≤ 2 ^ 63 := Nat.pow_le_pow_right (by decide) (by omega)
  have hless : 2 ^ (type.length - 1) ≤ 2 ^ 63 := Nat.pow_le_pow_right (by decide) (by omega)
  have hmax := h.2
  unfold maxValue at hmax
  rw [Nat.one_shiftLeft, Nat.one_shiftLeft] at hmax
  split_ifs at hmax <;> omega

/-- What stands in the line of the timestamp of an event for the storage of an integer type. -/
structure Event.TimestampLine (e : Event) (type : IntegerType) (storage : BitVec 64) : Prop where
  render_eq : render storage 10 type.signed = decimal (type.value storage)
  shows_iff : e.ShowsTimestamp (render storage 10 type.signed) ↔
    type.signed = true ∨ type.value storage < 2 ^ 63
  shows_less : type.signed = false → 2 ^ 63 ≤ type.value storage →
    e.ShowsTimestamp (decimal (type.value storage - 2 ^ 64))
  shows_of_length_lt : type.length < 64 → e.ShowsTimestamp (render storage 10 type.signed)

theorem Event.timestampLine {e : Event} {type : IntegerType} {storage : BitVec 64}
    (h : e.timestamp = storage) (hholds : type.Holds storage) : e.TimestampLine type storage := by
  have hrender : render storage 10 type.signed = decimal (type.value storage) :=
    Text.Numeral.render_ten storage type.signed
  have hshows : e.ShowsTimestamp (render storage 10 type.signed) ↔
      type.signed = true ∨ type.value storage < 2 ^ 63 := by
    rw [showsTimestamp_iff, hrender, Text.Numeral.decimal_inj, h, type.toInt_eq]
    split_ifs with hsame
    · exact iff_of_true rfl hsame
    · exact iff_of_false (by omega) hsame
  constructor
  · exact hrender
  · exact hshows
  · intro hsigned hhigh
    rw [showsTimestamp_iff, h, type.toInt_eq, if_neg]
    rw [hsigned]
    simpa using hhigh
  · intro hlength
    exact hshows.mpr (.inr (IntegerType.value_lt hholds hlength))

namespace EventType

variable {limits : Limits} {t : EventType} {packet : Option StructDefinition} {cpu : Option Nat}
  {c c' : Cursor} {e : Event} {st : StructType} {type : IntegerType}

/-- The line of the timestamp shows the number of the field in the header, as its type says, unless
the type has no sign and the number is `2 ^ 63` or more. -/
theorem timestamp_shown (h : t.decode limits packet cpu c = .ok e c') (hst : t.header = some st)
    (hfield : st.members.find? timestampName = some (.integer type)) :
    ∃ header path storage start stop, e.header = some header ∧
      header.lookup? timestampName = some (.integer type path storage) ∧
      type.read ⟨c.data, start⟩ = .ok storage ⟨c.data, stop⟩ ∧ e.TimestampLine type storage := by
  obtain ⟨header, hheader, _, _, _, _, _, hstruct⟩ := exists_header h hst
  obtain ⟨field, hnamed, a, scope, path, s, reads, stop, hdecodes⟩ :=
    hstruct.exists_named? hfield
  have hlookup : header.lookup? timestampName = some field := by
    rw [StructDefinition.lookup?, Definition.resolve_of_not_mem _ (by decide), hnamed]
  cases hdecodes with
  | @integer _ _ _ _ _ _ storage hread =>
      have htime : e.timestamp = storage := by
        obtain ⟨parts, -, hcomprises⟩ := decode_eq_ok_iff.mp h
        rw [hcomprises.timestamp, timestampOf, hheader, Option.bind_some, hlookup]
      exact ⟨header, path, storage, s, stop, hheader, hlookup, hread,
        Event.timestampLine htime (type.holds_of_read hread)⟩

/-- A timestamp of 32 bits. -/
theorem timestamp_shown_word :
    let t := ofTimestamp "tick" (.uint32 .big)
    let e := Event.ofTimestamp "tick" (.uint32 .big) 256
    let header : StructType := ⟨0, [(timestampName, .integer (.uint32 .big))]⟩
    t.decode .standard none none ⟨#[0, 0, 1, 0], 0⟩ = .ok e ⟨#[0, 0, 1, 0], 32⟩ ∧
      t.header = some header ∧
      header.members.find? timestampName = some (.integer (.uint32 .big)) ∧
      e.ShowsTimestamp (render 256 10 false) := by
  intro t e header
  have hread : (IntegerType.uint32 .big).read ⟨#[0, 0, 1, 0], 0⟩ =
      .ok 256 ⟨#[0, 0, 1, 0], 32⟩ := by cbv
  have hdecode := decode_ofTimestamp .standard "tick" hread
  refine ⟨hdecode, rfl, rfl, ?_⟩
  obtain ⟨found, path, storage, start, stop, hheader, hlookup, -, hline⟩ :=
    timestamp_shown hdecode rfl rfl
  have hstorage : timestampOf e.header = storage := by
    rw [hheader, timestampOf, Option.bind_some, hlookup]
  rw [Event.timestampOf_ofTimestamp] at hstorage
  rw [hstorage]
  exact hline.shows_of_length_lt (by decide)

/-- The greatest timestamp without a sign is shown as minus one. -/
theorem timestamp_shown_negative :
    let e := Event.ofTimestamp "tick" (.uint64 .big) (-1)
    (ofTimestamp "tick" (.uint64 .big)).decode .standard none none ⟨.replicate 8 255, 0⟩ =
        .ok e ⟨.replicate 8 255, 64⟩ ∧
      render e.timestamp 10 false = "18446744073709551615" ∧
      e.ShowsTimestamp "-1" ∧ ¬ e.ShowsTimestamp "18446744073709551615" := by
  intro e
  have hread : (IntegerType.uint64 .big).read ⟨.replicate 8 255, 0⟩ =
      .ok (-1) ⟨.replicate 8 255, 64⟩ := by cbv
  have hrender : render (-1) 10 false = "18446744073709551615" := by cbv
  have hminus : decimal (-1) = "-1" := by cbv
  refine ⟨decode_ofTimestamp .standard "tick" hread, hrender, ?_, ?_⟩
  · exact Event.showsTimestamp_iff.mpr hminus.symm
  · intro h
    have hshown := Event.showsTimestamp_iff.mp h
    exact absurd (hshown.trans hminus) (by decide)

end EventType

end TraceFormat
