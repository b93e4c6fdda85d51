import Mathlib
import TraceFormat.Definition.Text
import TraceFormat.Proofs.Decode.Run

/-! # Characters alone and in a text

An array or a sequence of ASCII characters shows in two ways: as the text that all of it spells, and
element by element.  The one reads the bytes as ASCII, where a byte above 0x7F is no character and
becomes U+FFFD; the other takes each byte for a code point.  Both can be said of the bytes alone
(`Declaration.OfAscii.asText?_eq`, `Definition.joinedTexts_eq`), and byte for byte they agree below
0x80 and nowhere else (`Encoding.asciiChar_eq_iff`).

So the text is what its characters show one after the other exactly if no byte before the first NUL
is above 0x7F (`Declaration.characters_alike_iff`); `Declaration.characters_apart` has one that
is. -/

namespace TraceFormat

/-! ### One byte -/

/-- Below 0x80, and only there, a byte read as ASCII is the character with its code. -/
theorem Encoding.asciiChar_eq_iff {b : UInt8} :
    asciiChar b = Char.ofNat b.toNat ↔ b.toNat < 0x80 := by
  unfold asciiChar
  split_ifs with h
  · exact iff_of_true rfl h
  · refine iff_of_false (fun heq => ?_) h
    have hlt := b.toNat_lt
    have hcode := congrArg Char.toNat heq
    rw [Char.toNat_ofNat, if_pos (.inl (by omega))] at hcode
    have hreplacement : Text.Utf8.replacement.toNat = 0xFFFD := rfl
    omega

namespace Definition

/-- Whether a value holds a byte and shows as the character whose code the byte is. -/
structure ShowsByte (x : Definition) (b : UInt8) : Prop where
  byte?_eq : x.byte? = some b
  text_eq : x.text = String.singleton (Char.ofNat b.toNat)

/-- The texts of some values one after the other, up to the first value whose byte is zero. -/
def joinedTexts (xs : List Definition) : String :=
  String.join ((xs.takeWhile (·.byte? != some 0)).map text)

theorem showsByte_integer {type : IntegerType} (h : type.isCharacter = true) (path : Path)
    (storage : BitVec 64) :
    ShowsByte (.integer type path storage) (UInt8.ofNat storage.toNat) := by
  constructor
  · rfl
  · rw [text, IntegerType.valueText, if_pos h, IntegerType.character, UInt8.toNat_ofNat']

variable {xs : List Definition} {bytes : List UInt8}

theorem exists_bytes (h : ∀ x ∈ xs, ∃ b, x.ShowsByte b) :
    ∃ bytes, List.Forall₂ ShowsByte xs bytes := by
  induction xs with
  | nil => exact ⟨[], .nil⟩
  | cons x xs ih =>
      rw [List.forall_mem_cons] at h
      obtain ⟨b, hb⟩ := h.1
      obtain ⟨bytes, hbytes⟩ := ih h.2
      exact ⟨b :: bytes, .cons hb hbytes⟩

theorem map_byte?_eq (h : List.Forall₂ ShowsByte xs bytes) : xs.map byte? = bytes.map some := by
  induction h with
  | nil => rfl
  | cons hx _ ih => rw [List.map_cons, List.map_cons, hx.byte?_eq, ih]

theorem filterMap_byte?_eq (h : List.Forall₂ ShowsByte xs bytes) : xs.filterMap byte? = bytes := by
  have hbytes := congrArg (List.filterMap id) (map_byte?_eq h)
  simpa using hbytes

theorem joinedTexts_eq (h : List.Forall₂ ShowsByte xs bytes) :
    joinedTexts xs =
      String.ofList ((bytes.takeWhile (· != 0)).map fun b => Char.ofNat b.toNat) := by
  induction h with
  | nil => rfl
  | @cons x b xs bytes hx _ ih =>
      unfold joinedTexts at ih ⊢
      rw [List.takeWhile_cons, List.takeWhile_cons, hx.byte?_eq]
      -- the values and the bytes end at the same place
      by_cases hb : b = 0
      · simp [hb]
      · have hbyte : (some b != some (0 : UInt8)) = true := by simpa using hb
        have hne : (b != 0) = true := by simpa using hb
        rw [if_pos hbyte, if_pos hne, List.map_cons, String.join_cons, ih, hx.text_eq,
          List.map_cons, String.ofList_cons]

end Definition

/-! ### Arrays and sequences of characters -/

namespace Declaration

/-- An array or a sequence of characters in ASCII: of integers of 8 bits with this encoding. -/
inductive OfAscii : Declaration → Prop
  | array {n : Nat} {type : IntegerType} :
      type.length = 8 → type.encoding = .ascii → OfAscii (.array n (.integer type))
  | sequence {name : String} {type : IntegerType} :
      type.length = 8 → type.encoding = .ascii → OfAscii (.sequence name (.integer type))

theorem OfAscii.characterEncoding?_eq {d : Declaration} (h : d.OfAscii) :
    d.characterEncoding? = some .ascii := by
  cases h with
  | array hlength hencoding | sequence hlength hencoding =>
      simp [characterEncoding?, IntegerType.isCharacter, hlength, hencoding]

theorem OfAscii.asText?_eq {d : Declaration} (h : d.OfAscii) (path : Path) {xs : List Definition}
    {bytes : List UInt8} (hbytes : List.Forall₂ Definition.ShowsByte xs bytes) :
    (Definition.array d path xs).asText? =
      some (String.ofList ((bytes.takeWhile (· != 0)).map Encoding.asciiChar)) := by
  rw [Definition.asText?, Definition.spelling?, h.characterEncoding?_eq,
    Definition.filterMap_byte?_eq hbytes]
  rfl

variable {limits : Limits} {data : Array UInt8} {d : Declaration} {a : Arena} {scope : FrameId}
  {path : Path} {s e : Nat} {v : Definition} {reads : List Read}

theorem Decodes.showsByte {type : IntegerType} (hchar : type.isCharacter = true)
    (h : Decodes limits data (.integer type) a scope path s v reads e) : ∃ b, v.ShowsByte b := by
  cases h with
  | integer => exact ⟨_, Definition.showsByte_integer hchar _ _⟩

theorem exists_bytes_of_decodes {type : IntegerType} (hlength : type.length = 8)
    (hencoding : type.encoding = .ascii) {n : Nat} {pos : Nat → Nat} {v : Nat → Definition}
    {reads : Nat → List Read}
    (h : ∀ i < n, Decodes limits data (.integer type) a scope (path.element i) (pos i) (v i)
      (reads i) (pos (i + 1))) :
    ∃ bytes, List.Forall₂ Definition.ShowsByte ((List.range n).map v) bytes := by
  have hchar : type.isCharacter = true := by simp [IntegerType.isCharacter, hlength, hencoding]
  exact Definition.exists_bytes (List.forall_mem_map.mpr fun i hi =>
    (h i (List.mem_range.mp hi)).showsByte hchar)

theorem OfAscii.exists_bytes (hd : d.OfAscii)
    (h : Decodes limits data d a scope path s v reads e) :
    ∃ xs bytes, v = .array d path xs ∧ List.Forall₂ Definition.ShowsByte xs bytes := by
  cases hd with
  | array hlength hencoding =>
      cases h with
      | array _ hv =>
          obtain ⟨bytes, hbytes⟩ := exists_bytes_of_decodes hlength hencoding hv
          exact ⟨_, bytes, rfl, hbytes⟩
  | sequence hlength hencoding =>
      cases h with
      | sequence _ _ hv =>
          obtain ⟨bytes, hbytes⟩ := exists_bytes_of_decodes hlength hencoding hv
          exact ⟨_, bytes, rfl, hbytes⟩

/-- An array or a sequence of ASCII characters that was decoded spells what its characters show one
after the other, up to the first NUL, exactly if none of the bytes before it is above 0x7F.  What it
spells is the ASCII text of these bytes, and what the characters show has them for code points. -/
theorem characters_alike_iff {c : Cursor} {t : DecodeState} (root : a.Live .root)
    (hd : d.OfAscii) (h : decodeAt limits d scope path ⟨c, a⟩ = .ok v t) :
    ∃ (xs : List Definition) (bytes : List UInt8), v = .array d path xs ∧
      xs.map Definition.byte? = bytes.map some ∧
      v.asText? = some (String.ofList ((bytes.takeWhile (· != 0)).map Encoding.asciiChar)) ∧
      Definition.joinedTexts xs =
        String.ofList ((bytes.takeWhile (· != 0)).map fun b => Char.ofNat b.toNat) ∧
      (v.asText? = some (Definition.joinedTexts xs) ↔
        ∀ b ∈ bytes.takeWhile (· != 0), b.toNat < 0x80) := by
  obtain ⟨data, s⟩ := c
  obtain ⟨reads, e, hdecodes, -⟩ := decodes_of_decodeAt root.next_ne_root h
  obtain ⟨xs, bytes, rfl, hbytes⟩ := hd.exists_bytes hdecodes
  have hspelled := hd.asText?_eq path hbytes
  have hjoined := Definition.joinedTexts_eq hbytes
  refine ⟨xs, bytes, rfl, ?_, hspelled, hjoined, ?_⟩
  · exact Definition.map_byte?_eq hbytes
  · rw [hspelled, hjoined, Option.some.injEq, String.ofList_inj, List.map_inj_left]
    exact forall₂_congr fun _ _ => Encoding.asciiChar_eq_iff

/-- Two letters. -/
theorem characters_alike_letters :
    let char : IntegerType := { IntegerType.uint8 with encoding := .ascii }
    let d : Declaration := .array 2 (.integer char)
    let xs : List Definition := [.integer char ((Path.root "a").element 0) 0x48,
      .integer char ((Path.root "a").element 1) 0x69]
    Arena.empty.Live .root ∧ d.OfAscii ∧
      decodeAt .standard d .root (.root "a") ⟨⟨#[0x48, 0x69], 0⟩, .empty⟩ =
        .ok (.array d (.root "a") xs) ⟨⟨#[0x48, 0x69], 16⟩, .empty⟩ ∧
      (Definition.array d (.root "a") xs).asText? = some (Definition.joinedTexts xs) := by
  intro char d xs
  have root : Arena.empty.Live .root := Nat.zero_lt_one
  have hd : d.OfAscii := .array rfl rfl
  have hdecode : decodeAt .standard d .root (.root "a") ⟨⟨#[0x48, 0x69], 0⟩, .empty⟩ =
      .ok (.array d (.root "a") xs) ⟨⟨#[0x48, 0x69], 16⟩, .empty⟩ := by
    unfold xs d char
    cbv
  refine ⟨root, hd, hdecode, ?_⟩
  obtain ⟨found, bytes, hxs, hbytes, -, -, halike⟩ := characters_alike_iff root hd hdecode
  obtain ⟨-, -, rfl⟩ := Definition.array.inj hxs
  refine halike.mpr fun b hb => ?_
  have hmem : some b ∈ xs.map Definition.byte? :=
    hbytes ▸ List.mem_map_of_mem ((List.takeWhile_prefix _).subset hb)
  have hletters : xs.map Definition.byte? = [some 0x48, some 0x69] := rfl
  rw [hletters, List.mem_pair, Option.some.injEq, Option.some.injEq] at hmem
  rcases hmem with rfl | rfl <;> decide

/-- The byte 0xE9 shows alone as an e with an accent, but is no character of the text. -/
theorem characters_apart :
    let char : IntegerType := { IntegerType.uint8 with encoding := .ascii }
    let d : Declaration := .array 2 (.integer char)
    let xs : List Definition := [.integer char ((Path.root "a").element 0) 0x41,
      .integer char ((Path.root "a").element 1) 0xE9]
    let v : Definition := .array d (.root "a") xs
    d.OfAscii ∧
      decodeAt .standard d .root (.root "a") ⟨⟨#[0x41, 0xE9], 0⟩, .empty⟩ =
        .ok v ⟨⟨#[0x41, 0xE9], 16⟩, .empty⟩ ∧
      v.asText? = some "A\uFFFD" ∧ Definition.joinedTexts xs = "Aé" ∧
      v.asText? ≠ some (Definition.joinedTexts xs) := by
  intro char d xs v
  have htext : v.asText? = some "A\uFFFD" := by
    unfold v xs d char
    cbv
  have hjoined : Definition.joinedTexts xs = "Aé" := by
    unfold xs char
    cbv
  refine ⟨.array rfl rfl, ?_, htext, hjoined, ?_⟩
  · unfold v xs d char
    cbv
  · rw [htext, hjoined]
    decide

end Declaration

end TraceFormat
