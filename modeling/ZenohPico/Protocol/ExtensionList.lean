import ZenohPico.Protocol.Codec

/-!
Writing and reading a whole vector of extensions (`_z_msg_ext_vec_encode` and
`_z_msg_ext_vec_decode` of `src/protocol/codec/ext.c`).

A single extension is read back with its 'more' bit (`msgExtDecode_encode`). The encoder of a
vector sets the bit in every element, the last one included, so the reader goes on into what
follows the vector (`msgExtVecDecode_encode`); and the reader wants an extension where the
encoder of an empty vector has written nothing. No vector is read back from its own bytes.
-/

open List

namespace ZenohPico.Protocol

/-! ### One extension -/

/-- `_z_msg_ext_make_unit` -/
def msgExtMakeUnit (id : UInt8) : MsgExt := { header := (id &&& 0x0F) ||| 0x00, body := .unit }

/-- The encoding bits `_Z_MSG_EXT_ENC_*` of the header of a body. -/
def MsgExtBody.enc : MsgExtBody → UInt8
  | .unit => 0x00
  | .zint _ => 0x20
  | .zbuf _ => 0x40

/-- An extension of one of the three kinds, with the member of the union that its header names
and no 'more' bit of its own. -/
structure Extension extends MsgExt where
  enc_header : header &&& 0x60 = body.enc
  more_header : header &&& 0x80 = 0
  length_lt : ∀ val, body = .zbuf val → val.length < 2 ^ 64

/-- `_z_msg_ext_encode_unit`, `_z_msg_ext_encode_zint` and `_z_msg_ext_encode_zbuf` -/
def msgExtBodyEncode : MsgExtBody → List UInt8
  | .unit => []
  | .zint val => zint64Encode val
  | .zbuf val => sliceEncode val

/-- `_z_msg_ext_encode` -/
def msgExtEncode (ext : MsgExt) (hasNext : Bool) : List UInt8 :=
  (extFullId ext.header ||| (if hasNext then 0x80 else 0)) :: msgExtBodyEncode ext.body

theorem header_bits (header : UInt8) (hasNext : Bool) :
    let sent := extFullId header ||| (if hasNext then 0x80 else 0)
    sent &&& 0x60 = header &&& 0x60 ∧ extFullId sent = extFullId header ∧
      ((sent &&& 0x80) != 0) = hasNext := by
  have hall : ∀ (k : Fin 256) (b : Bool),
      let sent := extFullId (UInt8.ofNat k.val) ||| (if b then 0x80 else 0)
      sent &&& 0x60 = UInt8.ofNat k.val &&& 0x60 ∧
        extFullId sent = extFullId (UInt8.ofNat k.val) ∧ ((sent &&& 0x80) != 0) = b := by
    decide +kernel
  have h := hall ⟨header.toNat, header.toNat_lt⟩ hasNext
  rwa [UInt8.ofNat_toNat] at h

/-- A header without the 'more' bit is its own full id. -/
theorem extFullId_of_more {header : UInt8} (h : header &&& 0x80 = 0) :
    extFullId header = header := by
  have hall : ∀ k : Fin 256, UInt8.ofNat k.val &&& 0x80 = 0 →
      extFullId (UInt8.ofNat k.val) = UInt8.ofNat k.val := by
    decide +kernel
  have hheader := hall ⟨header.toNat, header.toNat_lt⟩
  rw [UInt8.ofNat_toNat] at hheader
  exact hheader h

theorem msgExtUnknownBodyDecode_encode {body : MsgExtBody}
    (hlength : ∀ val, body = .zbuf val → val.length < 2 ^ 64) (zbf : List UInt8) :
    msgExtUnknownBodyDecode body.enc (msgExtBodyEncode body ++ zbf) = .ok (body, zbf) := by
  cases body with
  | unit => rfl
  | zint val =>
    change (zint64Decode >>= fun val ↦ pure (MsgExtBody.zint val)) (zint64Encode val ++ zbf) = _
    rw [Decoder.bind_of_ok (zint64Decode_encode val zbf)]
    rfl
  | zbuf val =>
    change (sliceDecode >>= fun val ↦ pure (MsgExtBody.zbuf val)) (sliceEncode val ++ zbf) = _
    rw [Decoder.bind_of_ok (sliceDecode_encode (hlength val rfl) zbf)]
    rfl

/-- An extension is read back together with its 'more' bit, and exactly its bytes are
consumed. -/
theorem msgExtDecode_encode (ext : Extension) (hasNext : Bool) (zbf : List UInt8) :
    msgExtDecode (msgExtEncode ext.toMsgExt hasNext ++ zbf) =
      .ok ((ext.toMsgExt, hasNext), zbf) := by
  obtain ⟨henc, hid, hmore⟩ := header_bits ext.header hasNext
  have hbody := msgExtUnknownBodyDecode_encode ext.length_lt zbf
  rw [← ext.enc_header, ← henc] at hbody
  rw [msgExtDecode, msgExtEncode, cons_append, Decoder.bind_of_ok (uint8Decode_cons _ _),
    Decoder.bind_of_ok hbody, hid, hmore, extFullId_of_more ext.more_header]
  rfl

variable {σ : Type} {callback : MsgExt → σ → Except ZError σ} {context : σ} {zbf rest : List UInt8}

/-- A chain whose first extension the callback refuses -/
theorem msgExtDecodeIter_refused {extension : MsgExt} {hasNext : Bool} {e : ZError}
    (hdecode : msgExtDecode zbf = .ok ((extension, hasNext), rest))
    (hcallback : callback extension context = .error e) :
    msgExtDecodeIter callback context zbf = .error e := by
  rw [msgExtDecodeIter]
  split
  · next e₂ he =>
    rw [hdecode] at he
    cases he
  · next extension₂ hasNext₂ rest₂ he =>
    rw [hdecode] at he
    cases he
    rw [hcallback]

/-! ### A vector of extensions -/

/-- `_z_msg_ext_vec_encode`: the elements before the last one, then the last one. -/
def msgExtVecEncode (extensions : List MsgExt) : List UInt8 :=
  if 0 < extensions.length then
    extensions.dropLast.flatMap (fun ext ↦ msgExtEncode ext true) ++
      (extensions.getLast?.map fun ext ↦ msgExtEncode ext true).getD []
  else []

/-- `_z_msg_ext_vec_push_callback`: the extension read is copied to an allocation that nothing
keeps, and what is appended is the caller's own, which has just been reset. -/
def msgExtVecPushCallback (_ : MsgExt) (extensions : List MsgExt) : Except ZError (List MsgExt) :=
  .ok (extensions ++ [msgExtMakeUnit 0])

/-- `_z_msg_ext_vec_decode` -/
def msgExtVecDecode : Decoder (List MsgExt) := msgExtDecodeIter msgExtVecPushCallback []

/-- Both writes of the encoder are the same one. -/
theorem msgExtVecEncode_eq (extensions : List MsgExt) :
    msgExtVecEncode extensions = extensions.flatMap fun ext ↦ msgExtEncode ext true := by
  rcases eq_nil_or_concat extensions with rfl | ⟨front, last, rfl⟩
  · rfl
  · simp [msgExtVecEncode]

/-- A chain read by the callback of a vector takes a byte at least. -/
theorem msgExtDecodeIter_length {context' : σ}
    (h : msgExtDecodeIter callback context zbf = .ok (context', rest)) :
    rest.length < zbf.length := by
  induction hlen : zbf.length using Nat.strong_induction_on generalizing context zbf with
  | _ n ih =>
    subst hlen
    rw [msgExtDecodeIter] at h
    split at h
    · cases h
    · next extension hasNext left hdecode =>
      have hleft := msgExtDecode_length hdecode
      split at h
      · cases h
      · split_ifs at h with hnext
        · exact (ih left.length hleft h rfl).trans hleft
        · cases h
          exact hleft

/-- The reader of a vector takes the whole encoding of one, keeps a reset extension for each
element and goes on with what follows. -/
theorem msgExtVecDecode_encode (extensions : List Extension) (kept : List MsgExt)
    (zbf : List UInt8) : msgExtDecodeIter msgExtVecPushCallback kept
        (msgExtVecEncode (extensions.map Extension.toMsgExt) ++ zbf) =
      msgExtDecodeIter msgExtVecPushCallback
        (kept ++ List.replicate extensions.length (msgExtMakeUnit 0)) zbf := by
  rw [msgExtVecEncode_eq]
  induction extensions generalizing kept with
  | nil => simp
  | cons ext extensions ih =>
    have hdecode := msgExtDecode_encode ext true
      ((extensions.map Extension.toMsgExt).flatMap (fun ext ↦ msgExtEncode ext true) ++ zbf)
    rw [map_cons, flatMap_cons, append_assoc,
      msgExtDecodeIter_of_ok hdecode rfl, if_pos rfl, ih, length_cons, replicate_succ,
      append_assoc, singleton_append]

/-- No vector of extensions is read back from its own bytes, whatever follows them: the reader
takes more than these bytes, or fails. -/
theorem msgExtVecDecode_encode_ne (extensions : List Extension) (zbf : List UInt8) :
    msgExtVecDecode (msgExtVecEncode (extensions.map Extension.toMsgExt) ++ zbf) ≠
      .ok (extensions.map Extension.toMsgExt, zbf) := by
  intro h
  rw [msgExtVecDecode, msgExtVecDecode_encode] at h
  exact absurd (msgExtDecodeIter_length h) (lt_irrefl _)

/-- One unit extension: the byte written asks for another one. -/
theorem msgExtVecDecode_encode_unit : msgExtVecEncode [msgExtMakeUnit 1] = [0x81] ∧
      msgExtVecDecode (msgExtVecEncode [msgExtMakeUnit 1]) = .error .messageDeserializationFailed ∧
      msgExtVecDecode (msgExtVecEncode [msgExtMakeUnit 1]) ≠ .ok ([msgExtMakeUnit 1], []) := by
  have hone : msgExtVecDecode (msgExtVecEncode [msgExtMakeUnit 1]) =
      .error .messageDeserializationFailed := by
    have hdecode : msgExtDecode [0x81] = .ok ((msgExtMakeUnit 1, true), []) := rfl
    have hbytes : msgExtVecEncode [msgExtMakeUnit 1] = [0x81] := rfl
    rw [hbytes, msgExtVecDecode, msgExtDecodeIter_of_ok hdecode rfl, if_pos rfl]
    exact msgExtDecodeIter_of_error rfl
  refine ⟨rfl, hone, ?_⟩
  rw [hone]
  simp

/-! ### A chain of extensions -/

/-- A message writes its extensions one by one, each with the 'more' bit but the last one. -/
def extChainEncode : List MsgExt → List UInt8
  | [] => []
  | ext :: extensions => msgExtEncode ext (extensions ≠ []) ++ extChainEncode extensions

/-- The extensions of a chain are handed to the callback one by one, and exactly the bytes of the
chain are consumed. -/
theorem msgExtDecodeIter_chain {σ : Type} {callback : MsgExt → σ → Except ZError σ} (ext : Extension)
    (extensions : List Extension) (context : σ) (zbf : List UInt8) :
    msgExtDecodeIter callback context
        (extChainEncode ((ext :: extensions).map Extension.toMsgExt) ++ zbf) =
      (((ext :: extensions).map Extension.toMsgExt).foldlM
        (fun context ext ↦ callback ext context) context).map (fun context ↦ (context, zbf)) := by
  induction extensions generalizing ext context with
  | nil =>
    have hdecode : msgExtDecode
        (msgExtEncode ext.toMsgExt (decide (([] : List MsgExt) ≠ [])) ++ zbf) =
          .ok ((ext.toMsgExt, false), zbf) := msgExtDecode_encode ext false zbf
    rw [map_singleton, extChainEncode, extChainEncode, append_nil, foldlM_cons]
    cases hcallback : callback ext.toMsgExt context with
    | error e =>
      rw [msgExtDecodeIter_refused hdecode hcallback]
      rfl
    | ok context' =>
      rw [msgExtDecodeIter_of_ok hdecode hcallback]
      rfl
  | cons next extensions ih =>
    have hdecode := msgExtDecode_encode ext true
      (extChainEncode ((next :: extensions).map Extension.toMsgExt) ++ zbf)
    rw [map_cons, extChainEncode, append_assoc, foldlM_cons]
    cases hcallback : callback ext.toMsgExt context with
    | error e =>
      rw [map_cons] at hdecode ⊢
      exact msgExtDecodeIter_refused hdecode hcallback
    | ok context' =>
      rw [map_cons] at hdecode
      exact (msgExtDecodeIter_of_ok hdecode hcallback).trans (ih next context')

/-- What every callback keeps, a chain keeps. -/
theorem msgExtDecodeIter_keeps {P : σ → Prop}
    (hkeeps : ∀ ext context context', callback ext context = .ok context' → P context → P context')
    {context' : σ} (hcontext : P context)
    (h : msgExtDecodeIter callback context zbf = .ok (context', rest)) : P context' := by
  induction hlen : zbf.length using Nat.strong_induction_on generalizing context zbf with
  | _ n ih =>
    subst hlen
    rw [msgExtDecodeIter] at h
    split at h
    · cases h
    · next extension hasNext left hdecode =>
      split at h
      · cases h
      · next next hcallback =>
        have hnext := hkeeps _ _ _ hcallback hcontext
        split_ifs at h with hmore
        · exact ih left.length (msgExtDecode_length hdecode) hnext h rfl
        · cases h
          exact hnext

end ZenohPico.Protocol
