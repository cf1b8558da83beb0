import ZenohPico.Network.Message
import ZenohPico.Session.ZidFields

/-!
The parts that network messages share on the wire: headers, keys, chains of extensions that are
each there or not, and the extensions with the quality of service and with a timestamp.

An encoder writes the 'more' bit of an extension from what follows it; that makes the extensions it
writes a chain (`extChainEncode_optExt`), and a chain is read by its callback from the first
extension on (`extsDecode_chain`).
-/

namespace ZenohPico.Network

open Protocol Transport Session List

/-! ### Headers -/

/-- The id and the flags of a header -/
theorem header_flags {base : UInt8} (hbase : base &&& 0xE0 = 0) (m n z : Bool) :
    let header := base ||| (flagIf m 0x40 ||| flagIf n 0x20) ||| flagIf z 0x80
    mid header = base ∧ hasFlag header 0x40 = m ∧ hasFlag header 0x20 = n ∧
      hasFlag header 0x80 = z := by
  have hall : ∀ (k : Fin 256), UInt8.ofNat k.val &&& 0xE0 = 0 → ∀ m n z : Bool,
      let header := UInt8.ofNat k.val ||| (flagIf m 0x40 ||| flagIf n 0x20) ||| flagIf z 0x80
      mid header = UInt8.ofNat k.val ∧ hasFlag header 0x40 = m ∧ hasFlag header 0x20 = n ∧
        hasFlag header 0x80 = z := by
    decide +kernel
  have h := hall ⟨base.toNat, base.toNat_lt⟩
  rw [UInt8.ofNat_toNat] at h
  exact h hbase m n z

/-! ### Chains of extensions -/

/-- An extension whose header names the member of its union and has no 'more' bit -/
def ValidExt (ext : MsgExt) : Prop :=
  ext.header &&& 0x60 = ext.body.enc ∧ ext.header &&& 0x80 = 0 ∧
    ∀ val, ext.body = .zbuf val → val.length < 2 ^ 64

/-- An extension that may be left out -/
def optExt (present : Bool) (ext : MsgExt) : List MsgExt := if present then [ext] else []

variable {ext : MsgExt} {present : Bool} {header : UInt8}

theorem extFullId_validExt (h : ValidExt ext) : extFullId ext.header = ext.header :=
  extFullId_of_more h.2.1

theorem forall_mem_optExt {P : MsgExt → Prop} :
    (∀ e ∈ optExt present ext, P e) ↔ (present = true → P ext) := by
  cases present <;> simp [optExt]

theorem optExt_append_ne_nil (present : Bool) (ext : MsgExt) (exts : List MsgExt) :
    decide (optExt present ext ++ exts ≠ []) = (present || decide (exts ≠ [])) := by
  cases present <;> simp [optExt]

theorem optExt_ne_nil (present : Bool) (ext : MsgExt) :
    decide (optExt present ext ≠ []) = present := by
  cases present <;> simp [optExt]

/-- An extension in front of others is written with the 'more' bit if there are any. -/
theorem extChainEncode_optExt (h : ValidExt ext) (present : Bool) (exts : List MsgExt) :
    extChainEncode (optExt present ext ++ exts) =
      (if present then (ext.header ||| flagIf (exts ≠ []) 0x80) :: msgExtBodyEncode ext.body
        else []) ++ extChainEncode exts := by
  cases present with
  | true =>
    rw [optExt, if_pos rfl, if_pos rfl, singleton_append, extChainEncode, msgExtEncode,
      extFullId_validExt h]
    rfl
  | false => rfl

theorem extChainEncode_optExt_last (h : ValidExt ext) (present : Bool) :
    extChainEncode (optExt present ext) =
      if present then ext.header :: msgExtBodyEncode ext.body else [] := by
  have hchain := extChainEncode_optExt h present []
  rw [append_nil] at hchain
  rw [hchain]
  cases present <;> simp [extChainEncode, flagIf]

theorem exists_extensions_of_valid {exts : List MsgExt} (h : ∀ ext ∈ exts, ValidExt ext) :
    ∃ extensions : List Extension, extensions.map Extension.toMsgExt = exts := by
  induction exts with
  | nil => exact ⟨[], rfl⟩
  | cons ext exts ih =>
    rw [forall_mem_cons] at h
    obtain ⟨extensions, hmap⟩ := ih h.2
    exact ⟨⟨ext, h.1.1, h.1.2.1, h.1.2.2⟩ :: extensions, by rw [map_cons, hmap]⟩

section Chain

variable {σ : Type} {callback : MsgExt → σ → Except ZError σ} {context context' : σ}
  {exts : List MsgExt}

/-- The extensions behind a header are handed to the callback one by one. -/
theorem extsDecode_chain (hflag : hasFlag header 0x80 = decide (exts ≠ []))
    (hvalid : ∀ ext ∈ exts, ValidExt ext)
    (hfold : exts.foldlM (fun context ext ↦ callback ext context) context = .ok context')
    (zbf : List UInt8) :
    extsDecode header callback context (extChainEncode exts ++ zbf) = .ok (context', zbf) := by
  obtain ⟨extensions, rfl⟩ := exists_extensions_of_valid hvalid
  rw [extsDecode, fieldDecode, hflag]
  cases extensions with
  | nil =>
    obtain rfl : context = context' := Except.ok.inj hfold
    rfl
  | cons ext extensions =>
    rw [if_pos (by simp), msgExtDecodeIter_chain, hfold]
    rfl

/-- An extension that is there is taken, and one that is left out makes no difference. -/
theorem foldlM_optExt (htake : present = true → callback ext context = .ok context')
    (hskip : present = false → context = context') :
    (optExt present ext ++ exts).foldlM (fun context ext ↦ callback ext context) context =
      exts.foldlM (fun context ext ↦ callback ext context) context' := by
  cases present with
  | true =>
    rw [optExt, if_pos rfl, singleton_append, foldlM_cons, htake rfl]
    rfl
  | false =>
    rw [hskip rfl]
    rfl

theorem foldlM_optExt_last (htake : present = true → callback ext context = .ok context')
    (hskip : present = false → context = context') :
    (optExt present ext).foldlM (fun context ext ↦ callback ext context) context =
      .ok context' := by
  rw [← append_nil (optExt present ext), foldlM_optExt htake hskip]
  rfl

end Chain

/-! ### Keys -/

/-- The suffix of a key is a slice. -/
def KeyFormed (key : WireExpr) : Prop := key.suffix.length < 2 ^ 64

theorem keyDecode_encode {key : WireExpr} (h : KeyFormed key)
    (hsuffix : hasFlag header 0x20 = hasSuffix key) (hlocal : hasFlag header 0x40 = isLocal key)
    (zbf : List UInt8) :
    keyDecode header (wireexprEncode (hasSuffix key) key ++ zbf) = .ok (receivedKey key, zbf) := by
  have hread := wireexprDecode_fields h zbf
  rw [keyDecode, hsuffix, hlocal, wireexprEncode, append_assoc]
  simpa only [hasSuffix, isLocal, decide_eq_true_eq] using hread

/-- A header with the flags of a key: its id, its Z flag and the key behind it -/
theorem keyHeader {base : UInt8} (hbase : base &&& 0xE0 = 0) {key : WireExpr} (h : KeyFormed key)
    (z : Bool) :
    let header := base ||| keyFlags key ||| flagIf z 0x80
    mid header = base ∧ hasFlag header 0x80 = z ∧ ∀ zbf,
      keyDecode header (wireexprEncode (hasSuffix key) key ++ zbf) =
        .ok (receivedKey key, zbf) := by
  obtain ⟨hmid, hlocal, hsuffix, hexts⟩ := header_flags hbase (isLocal key) (hasSuffix key) z
  exact ⟨hmid, hexts, keyDecode_encode h hsuffix hlocal⟩

/-! ### Quality of service -/

/-- The extension with the quality of service -/
def qosExt (qos : UInt8) : MsgExt := ⟨0x21, .zint qos.toUInt64⟩

theorem validExt_zint (henc : header &&& 0x60 = 0x20) (hmore : header &&& 0x80 = 0) (val : UInt64) :
    ValidExt ⟨header, .zint val⟩ :=
  ⟨henc, hmore, fun _ hval ↦ by cases hval⟩

theorem validExt_zbuf (henc : header &&& 0x60 = 0x40) (hmore : header &&& 0x80 = 0)
    {val : List UInt8} (hlen : val.length < 2 ^ 64) : ValidExt ⟨header, .zbuf val⟩ :=
  ⟨henc, hmore, fun _ hval ↦ by cases hval; exact hlen⟩

theorem validExt_qos (qos : UInt8) : ValidExt (qosExt qos) :=
  validExt_zint (by decide) (by decide) _

/-- A quality of service without its top bit is the only byte of its number. -/
theorem zint64Encode_qos {qos : UInt8} (h : qos < 0x80) : zint64Encode qos.toUInt64 = [qos] := by
  have hlt : qos.toNat < 128 := UInt8.lt_iff_toNat_lt.mp h
  have hnat : qos.toUInt64 = .ofNat qos.toNat := by simp
  rw [hnat, zint64Encode_of_lt hlt, UInt8.ofNat_toNat]

/-! ### Timestamps -/

/-- A timestamp that is there has an id. -/
def TimestampFormed (ts : Timestamp) : Prop := ts.valid = true → 0 < idLen ts.id

/-- The bytes of a timestamp -/
def timestampBytes (ts : Timestamp) : List UInt8 :=
  zint64Encode ts.time ++ sliceEncode (ts.id.id.take (idLen ts.id))

/-- The extension with a timestamp -/
def timestampExt (ts : Timestamp) : MsgExt := ⟨0x42, .zbuf (timestampBytes ts)⟩

theorem validExt_timestamp (ts : Timestamp) : ValidExt (timestampExt ts) := by
  refine validExt_zbuf (by decide) (by decide) ?_
  have hle := idLen_le ts.id
  have htime := length_zint64Encode_le ts.time
  rw [timestampBytes, length_append, sliceEncode, length_take_idLen,
    zint64Encode_of_lt (by omega), length_append, length_singleton, length_take_idLen]
  omega

theorem timestampEncodeExt_formed {ts : Timestamp} (h : TimestampFormed ts) :
    fieldEncode ts.valid (timestampEncodeExt ts) =
      .ok (if ts.valid then sliceEncode (timestampBytes ts) else []) := by
  unfold fieldEncode
  split_ifs with hvalid
  · have hok : timestampEncode ts = .ok (timestampBytes ts) := by
      rw [timestampEncode, idEncodeAsSlice, if_pos (h hvalid).ne']
      rfl
    cases hext : timestampEncodeExt ts with
    | error e =>
      rw [timestampEncodeExt, hok] at hext
      cases hext
    | ok bytes => rw [timestampEncodeExt_eq_ok hext, timestampBytes]
  · rfl

theorem timestampDecode_ext {ts : Timestamp} (h : ts.valid = true) :
    timestampDecode (timestampBytes ts) = .ok (ts.received, []) := by
  have hread := timestampDecode_bytes ts []
  rw [append_nil] at hread
  rw [timestampBytes, hread, Timestamp.received, if_pos h, ← h]

theorem timestamp_received_of_invalid {ts : Timestamp} (h : ts.valid = false) :
    ts.received = .null := by
  rw [Timestamp.received, h, if_neg Bool.false_ne_true]

/-- A field of a timestamp that is written behind its header when it is there -/
theorem ite_timestampField (valid : Bool) (header : UInt8) (bytes : List UInt8) :
    (if valid then header :: (if valid then bytes else []) else []) =
      if valid then header :: bytes else [] := by
  cases valid <;> rfl

/-- The quality of service and the timestamp of a message -/
def commonExts (qos : UInt8) (ts : Timestamp) : List MsgExt :=
  optExt (qos ≠ 5) (qosExt qos) ++ optExt ts.valid (timestampExt ts)

theorem validExt_common (qos : UInt8) (ts : Timestamp) :
    ∀ ext ∈ commonExts qos ts, ValidExt ext := by
  rw [commonExts, forall_mem_append, forall_mem_optExt, forall_mem_optExt]
  exact ⟨fun _ ↦ validExt_qos qos, fun _ ↦ validExt_timestamp ts⟩

theorem commonExts_ne_nil (qos : UInt8) (ts : Timestamp) :
    decide (commonExts qos ts ≠ []) = (decide (qos ≠ 5) || ts.valid) := by
  rw [commonExts, optExt_append_ne_nil, optExt_ne_nil]

theorem extChainEncode_common (qos : UInt8) (ts : Timestamp) : extChainEncode (commonExts qos ts) =
      (if qos ≠ 5 then (0x21 ||| flagIf ts.valid 0x80) :: zint64Encode qos.toUInt64 else []) ++
        if ts.valid then 0x42 :: sliceEncode (timestampBytes ts) else [] := by
  rw [commonExts, extChainEncode_optExt (validExt_qos qos),
    extChainEncode_optExt_last (validExt_timestamp ts), optExt_ne_nil]
  simp only [decide_eq_true_eq]
  rfl

section Common

variable {σ : Type} {setQos : UInt64 → σ → Except ZError σ} {setTimestamp : Timestamp → σ → σ}
  {other : MsgExt → σ → Except ZError σ} {qos : UInt8} {ts : Timestamp}

theorem commonDecodeExt_qos (context : σ) :
    commonDecodeExt setQos setTimestamp other (qosExt qos) context =
      setQos qos.toUInt64 context := by
  have hid : extFullId 0x21 = 0x21 := by decide
  rw [commonDecodeExt, qosExt, if_pos hid, MsgExtBody.val]

theorem commonDecodeExt_timestamp (h : ts.valid = true) (context : σ) :
    commonDecodeExt setQos setTimestamp other (timestampExt ts) context =
      .ok (setTimestamp ts.received context) := by
  have hqos : ¬ extFullId 0x42 = 0x21 := by decide
  have hid : extFullId 0x42 = 0x42 := by decide
  rw [commonDecodeExt, timestampExt, if_neg hqos, if_pos hid, MsgExtBody.bytes,
    timestampDecode_ext h]
  rfl

/-- Another extension -/
theorem commonDecodeExt_other (hqos : ¬ extFullId ext.header = 0x21)
    (hts : ¬ extFullId ext.header = 0x42) (context : σ) :
    commonDecodeExt setQos setTimestamp other ext context = other ext context := by
  rw [commonDecodeExt, if_neg hqos, if_neg hts]

/-- Both are read where they are there, into a message that has neither. -/
theorem foldlM_common {start : σ} (middle : σ) (hqos : setQos qos.toUInt64 start = .ok middle)
    (hdefault : qos = 5 → start = middle) (hnull : setTimestamp .null middle = middle) :
    (commonExts qos ts).foldlM
        (fun context ext ↦ commonDecodeExt setQos setTimestamp other ext context) start =
      .ok (setTimestamp ts.received middle) := by
  rw [commonExts, foldlM_optExt (fun _ ↦ (commonDecodeExt_qos start).trans hqos)
    fun h ↦ hdefault (by simpa using h)]
  exact foldlM_optExt_last (fun h ↦ commonDecodeExt_timestamp h middle)
    fun h ↦ by rw [timestamp_received_of_invalid h, hnull]

end Common

end ZenohPico.Network
