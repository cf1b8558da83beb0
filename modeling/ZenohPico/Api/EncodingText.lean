import ZenohPico.Session.ResponseMessage
import Mathlib.Data.List.TakeWhile

/-!
Encodings as text (`src/api/encoding.c`).

A predefined encoding has a number and a name. A text names one when it is the name, alone or
followed by a separator and a schema. The source looks for the name with a comparison that stops
where the user's text does.
-/

namespace ZenohPico.Api

open Session List

/-! ### The table -/

/-- The bytes of a string literal -/
def asciiBytes (s : String) : List UInt8 := s.toList.map fun c ↦ UInt8.ofNat c.toNat

/-- `ENCODING_VALUES_ID_TO_STR` -/
def encodingValuesIdToStr : List (List UInt8) :=
  List.map asciiBytes
    ["zenoh/bytes", "zenoh/string", "zenoh/serialized", "application/octet-stream", "text/plain",
     "application/json", "text/json", "application/cdr", "application/cbor", "application/yaml",
     "text/yaml", "text/json5", "application/python-serialized-object", "application/protobuf",
     "application/java-serialized-object", "application/openmetrics-text", "image/png",
     "image/jpeg", "image/gif", "image/bmp", "image/webp", "application/xml",
     "application/x-www-form-urlencoded", "text/html", "text/xml", "text/css", "text/javascript",
     "text/markdown", "text/csv", "application/sql", "application/coap-payload",
     "application/json-patch+json", "application/json-seq", "application/jsonpath",
     "application/jwt", "application/mp4", "application/soap+xml", "application/yang",
     "audio/aac", "audio/flac", "audio/mp4", "audio/ogg", "audio/vorbis", "video/h261",
     "video/h263", "video/h264", "video/h265", "video/h266", "video/mp4", "video/ogg",
     "video/raw", "video/vp8", "video/vp9"]

/-- `ENCODING_SCHEMA_SEPARATOR` -/
def encodingSchemaSeparator : UInt8 := 0x3B

/-! ### From text -/

/-- `strncmp` of the bytes of a text with a name that a NUL byte ends, as far as the text goes:
whether it is zero. -/
def strncmpEq : List UInt8 → List UInt8 → Bool
  | [], _ => true
  | c :: _, [] => c == 0
  | c :: text, d :: name => c == d && (c == 0 || strncmpEq text name)

/-- `_z_encoding_values_str_to_int` -/
def encodingValuesStrToInt (schema : List UInt8) : UInt16 :=
  match encodingValuesIdToStr.findIdx? (strncmpEq schema) with
  | some i => .ofNat i
  | none => 0xFFFF

/-- The part of a text before its first separator -/
def idPart (s : List UInt8) : List UInt8 := s.takeWhile (· != encodingSchemaSeparator)

/-- `_z_encoding_convert_from_substr` where the copy of the schema finds memory -/
def encodingConvertFromSubstr (s : List UInt8) : Encoding :=
  let pos := (idPart s).length
  if pos ≠ 0 ∧ encodingValuesStrToInt (s.take pos) ≠ 0xFFFF then
    { id := encodingValuesStrToInt (s.take pos)
      schema := if pos + 1 < s.length then s.drop (pos + 1) else [] }
  else { id := 0, schema := s }

/-- `z_encoding_from_substr`; `none` is the null pointer. -/
def encodingFromSubstr : Option (List UInt8) → Encoding
  | none => .null
  | some s => encodingConvertFromSubstr s

/-- `z_encoding_from_str`: the text ends at its first NUL byte. -/
def encodingFromStr (s : Option (List UInt8)) : Encoding :=
  encodingFromSubstr (s.map fun s ↦ s.takeWhile (· != 0))

/-! ### To text -/

/-- `_z_encoding_convert_into_string`: the bytes before the NUL byte at the end. -/
def encodingConvertIntoString (encoding : Encoding) : List UInt8 :=
  let name := encodingValuesIdToStr.getD encoding.id.toNat []
  let hasSchema := 0 < encoding.schema.length
  name ++ if hasSchema then encodingSchemaSeparator :: encoding.schema.takeWhile (· != 0) else []

/-! ### Names -/

/-- A text is the name of the `i`-th predefined encoding, alone or followed by a schema. -/
def Names (s : List UInt8) (i : ℕ) (schema : List UInt8) : Prop :=
  ∃ name, encodingValuesIdToStr[i]? = some name ∧
    ((s = name ∧ schema = []) ∨ s = name ++ encodingSchemaSeparator :: schema)

/-- What the text is read as, is what it names, and without a name it is the schema. -/
def ReadAsNamed (s : List UInt8) : Prop :=
  (∀ i schema, Names s i schema →
    encodingFromSubstr (some s) = { id := .ofNat i, schema := schema }) ∧
    ((¬ ∃ i schema, Names s i schema) → encodingFromSubstr (some s) = { id := 0, schema := s })

/-- What stands before the first separator is nothing, a whole name, or nothing that compares
equal to a name as far as it goes. -/
def WholeName (s : List UInt8) : Prop :=
  idPart s = [] ∨ idPart s ∈ encodingValuesIdToStr ∨
    ∀ name ∈ encodingValuesIdToStr, strncmpEq (idPart s) name = false

instance (s : List UInt8) : Decidable (WholeName s) := inferInstanceAs (Decidable (_ ∨ _ ∨ _))

/-- Each name is found as itself: a name that extends another one comes after it. -/
theorem findIdx?_name : ∀ i : Fin 53, encodingValuesIdToStr.findIdx?
    (strncmpEq (encodingValuesIdToStr.getD i.val [])) = some i.val := by
  decide +kernel

theorem name_plain : ∀ name ∈ encodingValuesIdToStr,
    name ≠ [] ∧ encodingSchemaSeparator ∉ name ∧ (0 : UInt8) ∉ name := by
  decide +kernel

theorem length_encodingValuesIdToStr : encodingValuesIdToStr.length = 53 := by decide +kernel

section Table

variable {s name schema : List UInt8} {i : ℕ}

theorem findIdx?_of_name (h : encodingValuesIdToStr[i]? = some name) :
    encodingValuesIdToStr.findIdx? (strncmpEq name) = some i ∧ i < 53 := by
  obtain ⟨hlt, rfl⟩ := List.getElem?_eq_some_iff.mp h
  have hi : i < 53 := length_encodingValuesIdToStr ▸ hlt
  have hfind := findIdx?_name ⟨i, hi⟩
  rw [getD_eq_getElem _ _ hlt] at hfind
  exact ⟨hfind, hi⟩

theorem encodingValuesStrToInt_of_name (h : encodingValuesIdToStr[i]? = some name) :
    encodingValuesStrToInt name = .ofNat i ∧ (.ofNat i : UInt16) ≠ 0xFFFF := by
  obtain ⟨hfind, hlt⟩ := findIdx?_of_name h
  refine ⟨by rw [encodingValuesStrToInt, hfind], fun heq ↦ ?_⟩
  have hnat := congrArg UInt16.toNat heq
  rw [UInt16.toNat_ofNat_of_lt' (hlt.trans (by decide))] at hnat
  simp only [UInt16.reduceToNat] at hnat
  omega

/-! ### The two parts of a text -/

theorem idPart_append (hfree : encodingSchemaSeparator ∉ name) (rest : List UInt8) :
    idPart (name ++ encodingSchemaSeparator :: rest) = name := by
  rw [idPart, takeWhile_append_of_pos]
  · simp
  · intro c hc
    simpa using fun heq : c = encodingSchemaSeparator ↦ hfree (heq ▸ hc)

theorem idPart_of_not_mem (hfree : encodingSchemaSeparator ∉ s) : idPart s = s := by
  refine takeWhile_eq_self_iff.mpr fun c hc ↦ ?_
  simpa using fun heq : c = encodingSchemaSeparator ↦ hfree (heq ▸ hc)

theorem take_idPart (s : List UInt8) : s.take (idPart s).length = idPart s :=
  prefix_iff_eq_take.mp (List.takeWhile_prefix _) |>.symm

/-- What a text names starts with the name and ends with the schema. -/
theorem Names.parts (h : Names s i schema) : encodingValuesIdToStr[i]? = some (idPart s) ∧
    schema = if (idPart s).length + 1 < s.length then s.drop ((idPart s).length + 1) else [] := by
  obtain ⟨name, hname, ⟨rfl, rfl⟩ | rfl⟩ := h
  · obtain ⟨-, hfree, -⟩ := name_plain s (mem_of_getElem? hname)
    rw [idPart_of_not_mem hfree]
    exact ⟨hname, by simp⟩
  · obtain ⟨-, hfree, -⟩ := name_plain name (mem_of_getElem? hname)
    rw [idPart_append hfree]
    refine ⟨hname, ?_⟩
    cases schema with
    | nil => simp
    | cons c schema => simp [drop_append]

/-- A text that starts with a name and a separator, or is a name, names it. -/
theorem names_of_idPart (h : encodingValuesIdToStr[i]? = some (idPart s)) :
    ∃ schema, Names s i schema := by
  have hsplit : idPart s ++ s.dropWhile (· != encodingSchemaSeparator) = s :=
    takeWhile_append_dropWhile
  cases hrest : s.dropWhile (· != encodingSchemaSeparator) with
  | nil =>
    rw [hrest, append_nil] at hsplit
    exact ⟨[], _, h, .inl ⟨hsplit.symm, rfl⟩⟩
  | cons c schema =>
    have hc := head_dropWhile_not (· != encodingSchemaSeparator) (l := s) (by simp [hrest])
    simp only [hrest, head_cons, bne_eq_false_iff_eq] at hc
    rw [hrest, hc] at hsplit
    exact ⟨schema, _, h, .inr hsplit.symm⟩

/-- A name at the front is read, and the rest is its schema. -/
theorem encodingConvertFromSubstr_of_name (h : encodingValuesIdToStr[i]? = some (idPart s)) :
    encodingConvertFromSubstr s = { id := .ofNat i, schema :=
      if (idPart s).length + 1 < s.length then s.drop ((idPart s).length + 1) else [] } := by
  obtain ⟨hid, hne⟩ := encodingValuesStrToInt_of_name h
  have hpos := (name_plain _ (mem_of_getElem? h)).1
  rw [encodingConvertFromSubstr]
  rw [take_idPart, hid, if_pos ⟨fun hlen ↦ hpos (eq_nil_of_length_eq_zero hlen), hne⟩]

theorem encodingFromSubstr_of_names (h : Names s i schema) :
    encodingFromSubstr (some s) = { id := .ofNat i, schema := schema } := by
  obtain ⟨hname, hschema⟩ := h.parts
  rw [encodingFromSubstr, encodingConvertFromSubstr_of_name hname, ← hschema]

/-- A front that compares equal to a name is read as that name. -/
theorem encodingConvertFromSubstr_of_strncmpEq (hpos : idPart s ≠ [])
    (hmem : name ∈ encodingValuesIdToStr) (heq : strncmpEq (idPart s) name = true) :
    ∃ id, encodingConvertFromSubstr s = { id := id, schema :=
      if (idPart s).length + 1 < s.length then s.drop ((idPart s).length + 1) else [] } := by
  have hlen : (idPart s).length ≠ 0 := fun h ↦ hpos (eq_nil_of_length_eq_zero h)
  cases hfind : encodingValuesIdToStr.findIdx? (strncmpEq (idPart s)) with
  | none => exact absurd heq (by simp [List.findIdx?_eq_none_iff.mp hfind name hmem])
  | some i =>
    have hlt : i < 53 := by
      obtain ⟨hlt, -⟩ := List.findIdx?_eq_some_iff_getElem.mp hfind
      exact length_encodingValuesIdToStr ▸ hlt
    have hid : encodingValuesStrToInt (idPart s) = .ofNat i := by
      rw [encodingValuesStrToInt, hfind]
    have hne : (.ofNat i : UInt16) ≠ 0xFFFF := by
      intro h
      have hnat := congrArg UInt16.toNat h
      rw [UInt16.toNat_ofNat_of_lt' (hlt.trans (by decide))] at hnat
      simp only [UInt16.reduceToNat] at hnat
      omega
    refine ⟨.ofNat i, ?_⟩
    rw [encodingConvertFromSubstr]
    rw [take_idPart, hid, if_pos ⟨hlen, hne⟩]

/-- Where no name compares equal, the whole text is the schema. -/
theorem encodingConvertFromSubstr_of_forall
    (h : idPart s = [] ∨ ∀ name ∈ encodingValuesIdToStr, strncmpEq (idPart s) name = false) :
    encodingConvertFromSubstr s = { id := 0, schema := s } := by
  rw [encodingConvertFromSubstr]
  rw [take_idPart]
  obtain hempty | hnone := h
  · rw [if_neg fun hboth ↦ hboth.1 (by rw [hempty]; rfl)]
  · have hfind : encodingValuesIdToStr.findIdx? (strncmpEq (idPart s)) = none :=
      List.findIdx?_eq_none_iff.mpr hnone
    have hid : encodingValuesStrToInt (idPart s) = 0xFFFF := by
      rw [encodingValuesStrToInt, hfind]
    rw [if_neg fun hboth ↦ hboth.2 hid]

theorem not_names_of_not_mem (h : idPart s ∉ encodingValuesIdToStr) :
    ¬ ∃ i schema, Names s i schema := by
  rintro ⟨i, schema, hnames⟩
  exact h (mem_of_getElem? hnames.parts.1)

/-- A text is read as what it names exactly when its front is a whole name, or none at all. -/
theorem readAsNamed_iff (s : List UInt8) : ReadAsNamed s ↔ WholeName s := by
  constructor
  · intro hread
    by_contra hwhole
    obtain ⟨hpos, hmem, hsome⟩ : idPart s ≠ [] ∧ idPart s ∉ encodingValuesIdToStr ∧
        ∃ name ∈ encodingValuesIdToStr, strncmpEq (idPart s) name = true := by
      simpa [WholeName] using hwhole
    obtain ⟨name, hname, heq⟩ := hsome
    obtain ⟨id, hid⟩ := encodingConvertFromSubstr_of_strncmpEq hpos hname heq
    have hschema := congrArg Encoding.schema (hread.2 (not_names_of_not_mem hmem))
    rw [encodingFromSubstr, hid] at hschema
    -- the schema that is read is shorter than the text
    have hlen := congrArg List.length hschema
    have hfront := length_pos_iff.mpr hpos
    dsimp only at hlen
    split at hlen
    · rw [length_drop] at hlen
      omega
    · have hs : s = [] := eq_nil_of_length_eq_zero hlen.symm
      exact hpos (by rw [hs]; rfl)
  · intro hwhole
    refine ⟨fun i schema ↦ encodingFromSubstr_of_names, fun hnone ↦ ?_⟩
    refine encodingConvertFromSubstr_of_forall ?_
    obtain hempty | hmem | hall := hwhole
    · exact .inl hempty
    · obtain ⟨i, hi⟩ := mem_iff_getElem?.mp hmem
      obtain ⟨schema, hnames⟩ := names_of_idPart hi
      exact absurd ⟨i, schema, hnames⟩ hnone
    · exact .inr hall

end Table

/-! ### Round trip -/

theorem takeWhile_of_not_mem {s : List UInt8} (h : (0 : UInt8) ∉ s) : s.takeWhile (· != 0) = s := by
  refine takeWhile_eq_self_iff.mpr fun c hc ↦ ?_
  simpa using fun heq : c = 0 ↦ h (heq ▸ hc)

/-- The text of a predefined encoding names it. -/
theorem names_encodingConvertIntoString {e : Encoding} (hid : e.id.toNat < 53)
    (hschema : (0 : UInt8) ∉ e.schema) : Names (encodingConvertIntoString e) e.id.toNat e.schema ∧
      (0 : UInt8) ∉ encodingConvertIntoString e := by
  obtain ⟨name, hname⟩ : ∃ name, encodingValuesIdToStr[e.id.toNat]? = some name :=
    ⟨_, List.getElem?_eq_getElem (length_encodingValuesIdToStr ▸ hid)⟩
  obtain ⟨-, -, hfree⟩ := name_plain name (mem_of_getElem? hname)
  have htext : encodingConvertIntoString e = name ++
      if 0 < e.schema.length then encodingSchemaSeparator :: e.schema else [] := by
    rw [encodingConvertIntoString, takeWhile_of_not_mem hschema, getD_eq_getElem?_getD, hname,
      Option.getD_some]
  rw [htext]
  by_cases hempty : e.schema = []
  · rw [hempty, if_neg (by decide), append_nil]
    exact ⟨⟨name, hname, .inl ⟨rfl, rfl⟩⟩, hfree⟩
  · rw [if_pos (length_pos_iff.mpr hempty)]
    refine ⟨⟨name, hname, .inr rfl⟩, fun hmem ↦ ?_⟩
    obtain h | h := mem_append.mp hmem
    · exact hfree h
    · obtain h | h := mem_cons.mp h
      · exact absurd h (by decide)
      · exact hschema h

theorem encodingFromStr_convertIntoString {e : Encoding} (hid : e.id.toNat < 53)
    (hschema : (0 : UInt8) ∉ e.schema) :
    encodingFromStr (some (encodingConvertIntoString e)) = e := by
  obtain ⟨hnames, hfree⟩ := names_encodingConvertIntoString hid hschema
  rw [encodingFromStr, Option.map_some, takeWhile_of_not_mem hfree,
    encodingFromSubstr_of_names hnames, UInt16.ofNat_toNat]

/-- Text is read as the encoding it names exactly when no beginning of a name stands for the name,
and predefined encodings are read back from their text. -/
theorem encodingText_exact (s : List UInt8) : (ReadAsNamed s ↔ WholeName s) ∧
    ∀ e : Encoding, e.id.toNat < 53 → (0 : UInt8) ∉ e.schema →
      encodingFromStr (some (encodingConvertIntoString e)) = e :=
  ⟨readAsNamed_iff s, fun _ ↦ encodingFromStr_convertIntoString⟩

/-- The beginning of a name is taken for the name. -/
theorem not_readAsNamed_text_j : ¬ ReadAsNamed (asciiBytes "text/j") := by
  rw [readAsNamed_iff]
  decide +kernel

end ZenohPico.Api
