import ZenohPico.Network.Message

/-!
The place of the extensions in a message, and what unknown extensions do to it.

A decoder reads the fields of its message, then the chain of extensions behind the Z flag of the
header, then the rest. `ExtPoint` is a decoder in these three parts, and `Tolerant` says that its
callback skips an extension that it does not know, or refuses it where it is mandatory.
-/

open List

namespace ZenohPico.Network

open Protocol Transport Session

/-! ### Headers -/

/-- A header with the Z flag -/
def flagged (header : UInt8) : UInt8 := header ||| 0x80

theorem flagged_bits (header : UInt8) : hasFlag (flagged header) 0x80 = true ∧
    hasFlag (flagged header) 0x40 = hasFlag header 0x40 ∧
    hasFlag (flagged header) 0x20 = hasFlag header 0x20 ∧
    flagged header &&& 0x60 = header &&& 0x60 ∧ mid (flagged header) = mid header := by
  have hall : ∀ k : Fin 256, hasFlag (flagged (UInt8.ofNat k.val)) 0x80 = true ∧
      hasFlag (flagged (UInt8.ofNat k.val)) 0x40 = hasFlag (UInt8.ofNat k.val) 0x40 ∧
      hasFlag (flagged (UInt8.ofNat k.val)) 0x20 = hasFlag (UInt8.ofNat k.val) 0x20 ∧
      flagged (UInt8.ofNat k.val) &&& 0x60 = UInt8.ofNat k.val &&& 0x60 ∧
      mid (flagged (UInt8.ofNat k.val)) = mid (UInt8.ofNat k.val) := by
    decide +kernel
  have h := hall ⟨header.toNat, header.toNat_lt⟩
  rwa [UInt8.ofNat_toNat] at h

@[simp]
theorem hasFlag_flagged_z (header : UInt8) : hasFlag (flagged header) 0x80 = true :=
  (flagged_bits header).1

@[simp]
theorem hasFlag_flagged_m (header : UInt8) : hasFlag (flagged header) 0x40 = hasFlag header 0x40 :=
  (flagged_bits header).2.1

@[simp]
theorem hasFlag_flagged_n (header : UInt8) : hasFlag (flagged header) 0x20 = hasFlag header 0x20 :=
  (flagged_bits header).2.2.1

@[simp]
theorem flagged_and_enc (header : UInt8) : flagged header &&& 0x60 = header &&& 0x60 :=
  (flagged_bits header).2.2.2.1

@[simp]
theorem mid_flagged (header : UInt8) : mid (flagged header) = mid header :=
  (flagged_bits header).2.2.2.2

/-! ### A decoder with a chain of extensions -/

/-- The parts of a decoder: the fields, the known extensions with the callback for them, and the
rest of the message -/
structure ExtPoint (M : Type) where
  Fields : Type
  Ctx : Type
  fields : UInt8 → Decoder Fields
  context : Fields → Ctx
  known : List UInt8
  callback : MsgExt → Ctx → Except ZError Ctx
  rest : UInt8 → Fields → Ctx → Decoder M

namespace ExtPoint

variable {M : Type} (p : ExtPoint M)

/-- The decoder -/
def decode (header : UInt8) : Decoder M := do
  let fields ← p.fields header
  let context ← extsDecode header p.callback (p.context fields)
  p.rest header fields context

/-- The message knows the extension. -/
def knows (ext : Extension) : Bool := extFullId ext.header ∈ p.known

/-- The extension is unknown and mandatory. -/
def refuses (ext : Extension) : Bool := !p.knows ext && msgExtIsMandatory ext.header

/-- An unknown extension is skipped, or refused where it is mandatory, and the Z flag says only
that extensions follow. -/
structure Tolerant : Prop where
  unknown : ∀ (ext : Extension) (context : p.Ctx), p.knows ext = false →
    p.callback ext.toMsgExt context = unknownExt ext.toMsgExt context
  fields : ∀ header, p.fields (flagged header) = p.fields header
  rest : ∀ header fields context, p.rest (flagged header) fields context =
    p.rest header fields context

/-- The extensions of a chain given to the callback -/
def foldChain (chain : List Extension) (context : p.Ctx) : Except ZError p.Ctx :=
  (chain.map Extension.toMsgExt).foldlM (fun context ext ↦ p.callback ext context) context

variable {p} {header : UInt8} {front tail : List UInt8} {fields : p.Fields} {context : p.Ctx}
  {chain : List Extension}

theorem foldChain_cons (ext : Extension) (chain : List Extension) (context : p.Ctx) :
    p.foldChain (ext :: chain) context =
      p.callback ext.toMsgExt context >>= p.foldChain chain := rfl

/-- Unknown extensions that are not mandatory leave what the known ones give. -/
theorem foldChain_filter (h : p.Tolerant) (hskip : ∀ ext ∈ chain, p.refuses ext = false)
    (context : p.Ctx) : p.foldChain chain context = p.foldChain (chain.filter p.knows) context := by
  induction chain generalizing context with
  | nil => rfl
  | cons ext chain ih =>
    obtain ⟨hext, hrest⟩ := forall_mem_cons.mp hskip
    cases hknows : p.knows ext with
    | true =>
      rw [filter_cons_of_pos hknows, foldChain_cons, foldChain_cons]
      exact bind_congr fun context ↦ ih hrest context
    | false =>
      have hoptional : msgExtIsMandatory ext.header = false := by
        rwa [refuses, hknows, Bool.not_false, Bool.true_and] at hext
      rw [filter_cons_of_neg (by rw [hknows]; exact Bool.false_ne_true), foldChain_cons,
        h.unknown ext context hknows, unknownExt, hoptional, if_neg Bool.false_ne_true]
      exact ih hrest context

/-- A chain with a mandatory extension that is unknown is refused. -/
theorem foldChain_error (h : p.Tolerant) (hrefused : ∃ ext ∈ chain, p.refuses ext = true)
    (context : p.Ctx) : ∃ e, p.foldChain chain context = .error e := by
  induction chain generalizing context with
  | nil =>
    obtain ⟨ext, hmem, -⟩ := hrefused
    exact absurd hmem not_mem_nil
  | cons ext chain ih =>
    rw [foldChain_cons]
    cases hfirst : p.callback ext.toMsgExt context with
    | error e => exact ⟨e, rfl⟩
    | ok context' =>
      have hrest : ∃ ext ∈ chain, p.refuses ext = true := by
        obtain ⟨ext', hmem, hext'⟩ := hrefused
        rcases mem_cons.mp hmem with rfl | hmem
        · have hboth := hext'
          rw [refuses, Bool.and_eq_true, Bool.not_eq_true'] at hboth
          rw [h.unknown _ context hboth.1, unknownExt, if_pos hboth.2] at hfirst
          cases hfirst
        · exact ⟨ext', hmem, hext'⟩
      exact ih hrest context'

/-- The header of a message with this chain -/
def chainHeader (header : UInt8) (chain : List Extension) : UInt8 :=
  if chain = [] then header else flagged header

/-- The bytes of a message with this chain -/
def chainBytes (front tail : List UInt8) (chain : List Extension) : List UInt8 :=
  front ++ (extChainEncode (chain.map Extension.toMsgExt) ++ tail)

/-- The chain of a message is folded over what the fields give. -/
theorem decode_chain (hfields : p.fields (flagged header) = p.fields header)
    (hrest : ∀ fields context, p.rest (flagged header) fields context =
      p.rest header fields context) (hplain : hasFlag header 0x80 = false)
    (hreads : ∀ zbf, p.fields header (front ++ zbf) = .ok (fields, zbf)) (chain : List Extension) :
    p.decode (chainHeader header chain) (chainBytes front tail chain) =
      p.foldChain chain (p.context fields) >>= fun context ↦ p.rest header fields context tail := by
  cases chain with
  | nil =>
    rw [decode, chainHeader, if_pos rfl, chainBytes, Decoder.bind_of_ok (hreads _), extsDecode,
      fieldDecode, hplain]
    rfl
  | cons ext chain =>
    rw [decode, chainHeader, if_neg (cons_ne_nil ext chain), chainBytes, hfields,
      Decoder.bind_of_ok (hreads _), extsDecode, fieldDecode, hasFlag_flagged_z, if_pos rfl]
    have hiter : msgExtDecodeIter p.callback (p.context fields)
        (extChainEncode ((ext :: chain).map Extension.toMsgExt) ++ tail) =
        (p.foldChain (ext :: chain) (p.context fields)).map fun context ↦ (context, tail) :=
      msgExtDecodeIter_chain ext chain _ tail
    cases hfold : p.foldChain (ext :: chain) (p.context fields) with
    | error e =>
      rw [hfold] at hiter
      exact Decoder.bind_of_error hiter _
    | ok context =>
      rw [hfold] at hiter
      rw [Decoder.bind_of_ok hiter, hrest]
      rfl

end ExtPoint

/-! ### The messages that have extensions -/

/-- The fields of a message whose callback has the message itself as its context -/
def messagePoint {M : Type} (fields : UInt8 → Decoder M) (known : List UInt8)
    (callback : MsgExt → M → Except ZError M) (rest : UInt8 → M → Decoder M) : ExtPoint M where
  Fields := M
  Ctx := M
  fields := fields
  context := id
  known := known
  callback := callback
  rest header _ msg := rest header msg

/-- A message that knows no extensions -/
def skippingPoint {F M : Type} (fields : UInt8 → Decoder F) (rest : F → Decoder M) :
    ExtPoint M where
  Fields := F
  Ctx := Unit
  fields := fields
  context _ := ()
  known := []
  callback := msgExtSkipNonMandatory
  rest _ fields _ := rest fields

theorem decode_messagePoint {M : Type} {fields : UInt8 → Decoder M} {known : List UInt8}
    {callback : MsgExt → M → Except ZError M} {rest : UInt8 → M → Decoder M} (header : UInt8) :
    (messagePoint fields known callback rest).decode header =
      (fields header >>= fun msg ↦ extsDecode header callback msg >>= rest header) := rfl

theorem decode_skippingPoint {F M : Type} {fields : UInt8 → Decoder F} {rest : F → Decoder M}
    (header : UInt8) : (skippingPoint fields rest).decode header =
      (fields header >>= fun f ↦ extsDecode header msgExtSkipNonMandatory () >>= fun _ ↦ rest f) :=
  rfl

theorem messagePoint_tolerant {M : Type} {fields : UInt8 → Decoder M} {known : List UInt8}
    {callback : MsgExt → M → Except ZError M} {rest : UInt8 → M → Decoder M}
    (hunknown : ∀ (ext : MsgExt) (msg : M), extFullId ext.header ∉ known →
      callback ext msg = unknownExt ext msg)
    (hfields : ∀ header, fields (flagged header) = fields header)
    (hrest : ∀ header msg, rest (flagged header) msg = rest header msg) :
    (messagePoint fields known callback rest).Tolerant where
  unknown ext msg hknows := hunknown ext.toMsgExt msg (of_decide_eq_false hknows)
  fields := hfields
  rest header _ msg := hrest header msg

theorem skippingPoint_tolerant {F M : Type} {fields : UInt8 → Decoder F} {rest : F → Decoder M}
    (hfields : ∀ header, fields (flagged header) = fields header) :
    (skippingPoint fields rest).Tolerant where
  unknown _ _ _ := rfl
  fields := hfields
  rest _ _ _ := rfl

theorem commonDecodeExt_of_unknown {σ : Type} {setQos : UInt64 → σ → Except ZError σ}
    {setTimestamp : Timestamp → σ → σ} {other : MsgExt → σ → Except ZError σ} {ext : MsgExt}
    {context : σ} (hqos : extFullId ext.header ≠ 0x21) (htimestamp : extFullId ext.header ≠ 0x42) :
    commonDecodeExt setQos setTimestamp other ext context = other ext context := by
  rw [commonDecodeExt, if_neg hqos, if_neg htimestamp]

def joinPoint (fragmentation : Bool) : ExtPoint TMsgJoin :=
  messagePoint
    (fun header ↦ do
      let version ← uint8Decode
      let cbyte ← uint8Decode
      let zid ← zidDecode cbyte
      let (seqNumRes, reqIdRes, batchSize) ← sizesDecode header 0x40 defaultMulticastBatchSize
      let lease ← zint64Decode
      let reliable ← zint64Decode
      let bestEffort ← zint64Decode
      pure
        { zid, batchSize, reqIdRes, seqNumRes, version
          lease := if hasFlag header 0x20 then lease * 1000 else lease
          nextSn := ConduitSnList.ofPlain ⟨reliable, bestEffort⟩
          whatami := whatamiFromUint8 cbyte
          patch := noPatch })
    (if fragmentation then [0x51, 0x27] else [0x51]) (joinDecodeExt fragmentation) fun _ ↦ pure

theorem decode_joinPoint (fragmentation : Bool) :
    (joinPoint fragmentation).decode = joinDecode fragmentation := by
  funext header
  simp only [joinPoint, joinDecode, decode_messagePoint, extsDecode, fieldDecode, bind_assoc,
    pure_bind, bind_pure]

theorem joinPoint_tolerant (fragmentation : Bool) : (joinPoint fragmentation).Tolerant := by
  refine messagePoint_tolerant (fun ext msg hknown ↦ ?_) (fun header ↦ ?_) fun _ _ ↦ rfl
  · cases fragmentation with
    | true =>
      rw [if_pos rfl, mem_cons, mem_singleton, not_or] at hknown
      rw [joinDecodeExt, if_neg hknown.1, if_neg fun hand ↦ hknown.2 hand.2]
      rfl
    | false =>
      rw [if_neg Bool.false_ne_true, mem_singleton] at hknown
      rw [joinDecodeExt, if_neg hknown, if_neg fun hand ↦ Bool.false_ne_true hand.1]
      rfl
  · simp only [sizesDecode, hasFlag_flagged_m, hasFlag_flagged_n]

def initPoint (fragmentation : Bool) : ExtPoint TMsgInit :=
  messagePoint
    (fun header ↦ do
      let version ← uint8Decode
      let cbyte ← uint8Decode
      let zid ← zidDecode cbyte
      let (seqNumRes, reqIdRes, batchSize) ← sizesDecode header 0x40 defaultUnicastBatchSize
      let cookie ← cookieDecode (hasFlag header 0x20)
      pure
        { zid, cookie, batchSize, reqIdRes, seqNumRes, version
          whatami := whatamiFromUint8 cbyte
          patch := noPatch })
    (if fragmentation then [0x27] else []) (initDecodeExt fragmentation) fun _ ↦ pure

theorem decode_initPoint (fragmentation : Bool) :
    (initPoint fragmentation).decode = initDecode fragmentation := by
  funext header
  simp only [initPoint, initDecode, decode_messagePoint, extsDecode, fieldDecode, bind_assoc,
    pure_bind, bind_pure]

theorem initPoint_tolerant (fragmentation : Bool) : (initPoint fragmentation).Tolerant := by
  refine messagePoint_tolerant (fun ext msg hknown ↦ ?_) (fun header ↦ ?_) fun _ _ ↦ rfl
  · cases fragmentation with
    | true =>
      rw [if_pos rfl, mem_singleton] at hknown
      rw [initDecodeExt, if_neg fun hand ↦ hknown hand.2]
      rfl
    | false =>
      rw [initDecodeExt, if_neg fun hand ↦ Bool.false_ne_true hand.1]
      rfl
  · simp only [sizesDecode, hasFlag_flagged_m, hasFlag_flagged_n]

def openPoint : ExtPoint TMsgOpen :=
  skippingPoint
    (fun header ↦ do
      let lease ← zint64Decode
      let initialSn ← zint64Decode
      let cookie ← cookieDecode (!hasFlag header 0x20)
      pure
        { lease := if hasFlag header 0x40 then lease * 1000 else lease
          initialSn, cookie })
    pure

theorem decode_openPoint : openPoint.decode = openDecode := by
  funext header
  simp only [openPoint, openDecode, decode_skippingPoint, extensionsDecode,
    msgExtSkipNonMandatories, extsDecode, fieldDecode, bind_assoc, pure_bind]

theorem openPoint_tolerant : openPoint.Tolerant :=
  skippingPoint_tolerant fun header ↦ by simp only [hasFlag_flagged_m, hasFlag_flagged_n]

/-- The fields of a CLOSE, with the extensions that its format has behind them -/
def closePoint : ExtPoint TMsgClose := skippingPoint (fun _ ↦ closeDecode) pure

def keepAlivePoint : ExtPoint Unit := skippingPoint (fun _ ↦ pure ()) pure

theorem decode_keepAlivePoint : keepAlivePoint.decode = keepAliveDecode := by
  funext header
  simp only [keepAlivePoint, keepAliveDecode, decode_skippingPoint, extensionsDecode,
    msgExtSkipNonMandatories, extsDecode, fieldDecode, pure_bind]
  exact bind_pure_unit

def framePoint : ExtPoint TMsgFrame :=
  skippingPoint (fun _ ↦ zint64Decode) fun sn ↦ do
    let payload ← get
    pure { sn, payload }

theorem decode_framePoint : framePoint.decode = frameDecode := by
  funext header
  simp only [framePoint, frameDecode, decode_skippingPoint, extensionsDecode,
    msgExtSkipNonMandatories, extsDecode, fieldDecode]

def fragmentPoint : ExtPoint TMsgFragment :=
  messagePoint
    (fun _ ↦ do
      let sn ← zint64Decode
      pure { sn, payload := [], first := false, drop := false })
    [0x02, 0x03] fragmentDecodeExt fun _ msg ↦ do
      let payload ← get
      set ([] : List UInt8)
      pure { msg with payload }

theorem decode_fragmentPoint : fragmentPoint.decode = fragmentDecode := by
  funext header
  simp only [fragmentPoint, fragmentDecode, decode_messagePoint, fragmentMarkersDecode,
    extsDecode, fieldDecode, bind_assoc, pure_bind]

theorem fragmentPoint_tolerant : fragmentPoint.Tolerant := by
  refine messagePoint_tolerant (fun ext msg hknown ↦ ?_) (fun _ ↦ rfl) fun _ _ ↦ rfl
  rw [mem_cons, mem_singleton, not_or] at hknown
  rw [fragmentDecodeExt, if_neg hknown.1, if_neg hknown.2]
  rfl

def pushPoint : ExtPoint PushMessage :=
  messagePoint
    (fun header ↦ do
      let key ← keyDecode header
      pure ⟨key, .null, 5, ⟨false, .null⟩⟩)
    [0x21, 0x42] pushDecodeExt fun _ msg ↦ do
      let msgheader ← uint8Decode
      let body ← pushBodyDecode msgheader
      pure { msg with body }

theorem decode_pushPoint : pushPoint.decode = pushDecode := by
  funext header
  simp only [pushPoint, pushDecode, decode_messagePoint, extsDecode, fieldDecode, bind_assoc,
    pure_bind]

theorem pushPoint_tolerant : pushPoint.Tolerant := by
  refine messagePoint_tolerant (fun ext msg hknown ↦ ?_) (fun header ↦ ?_) fun _ _ ↦ rfl
  · rw [mem_cons, mem_singleton, not_or] at hknown
    exact commonDecodeExt_of_unknown hknown.1 hknown.2
  · simp only [keyDecode, hasFlag_flagged_m, hasFlag_flagged_n]

def requestPoint : ExtPoint RequestMessage :=
  messagePoint
    (fun header ↦ do
      let rid ← zint64Decode
      let key ← keyDecode header
      pure ⟨rid, key, .null, 5, .bestMatching, 0, 0,
        .query ⟨[], false, none, .null, ⟨[], .null⟩, []⟩⟩)
    [0x21, 0x42, 0x34, 0x25, 0x26] requestDecodeExt fun _ msg ↦ do
      let zheader ← uint8Decode
      let body ← requestBodyDecode zheader
      pure { msg with body }

theorem decode_requestPoint : requestPoint.decode = requestDecode := by
  funext header
  simp only [requestPoint, requestDecode, decode_messagePoint, extsDecode, fieldDecode,
    bind_assoc, pure_bind]

theorem requestPoint_tolerant : requestPoint.Tolerant := by
  refine messagePoint_tolerant (fun ext msg hknown ↦ ?_) (fun header ↦ ?_) fun _ _ ↦ rfl
  · simp only [mem_cons, not_mem_nil, or_false, not_or] at hknown
    obtain ⟨hqos, htimestamp, htarget, hbudget, htimeout⟩ := hknown
    refine (commonDecodeExt_of_unknown hqos htimestamp).trans ?_
    rw [if_neg htarget, if_neg hbudget, if_neg htimeout]
  · simp only [keyDecode, hasFlag_flagged_m, hasFlag_flagged_n]

def responsePoint : ExtPoint ResponseMessage :=
  messagePoint
    (fun header ↦ do
      let requestId ← zint64Decode
      let key ← wireexprDecode (hasFlag header 0x20) (hasFlag header 0x40)
      pure ⟨requestId, key, 5, .null, ⟨.ofBytes [], 0⟩, .err ⟨.null, .null, []⟩⟩)
    [0x21, 0x42, 0x43] responseDecodeExt fun _ msg ↦ do
      let innerHeader ← uint8Decode
      let body ← responseBodyDecode innerHeader
      pure { msg with body }

theorem decode_responsePoint : responsePoint.decode = responseDecode := by
  funext header
  simp only [responsePoint, responseDecode, decode_messagePoint, extsDecode, fieldDecode,
    bind_assoc, pure_bind]

theorem responsePoint_tolerant : responsePoint.Tolerant := by
  refine messagePoint_tolerant (fun ext msg hknown ↦ ?_) (fun header ↦ ?_) fun _ _ ↦ rfl
  · simp only [mem_cons, not_mem_nil, or_false, not_or] at hknown
    rw [responseDecodeExt, if_neg hknown.1, if_neg hknown.2.1, if_neg hknown.2.2]
    rfl
  · simp only [hasFlag_flagged_m, hasFlag_flagged_n]

def responseFinalPoint : ExtPoint ResponseFinalMessage :=
  skippingPoint (fun _ ↦ zint64Decode) fun requestId ↦ pure ⟨requestId⟩

theorem decode_responseFinalPoint : responseFinalPoint.decode = responseFinalDecode := by
  funext header
  simp only [responseFinalPoint, responseFinalDecode, decode_skippingPoint, extsDecode, fieldDecode]

def declarePoint : ExtPoint DeclareMessage :=
  messagePoint
    (fun header ↦ do
      let interestId ← fieldDecode (hasFlag header 0x20) (some <$> zint32Decode) none
      pure ⟨.declFinal, .null, 5, interestId⟩)
    [0x21, 0x42] declareDecodeExt fun _ msg ↦ do
      let decl ← declarationDecode
      pure { msg with decl }

theorem decode_declarePoint : declarePoint.decode = declareDecode := by
  funext header
  simp only [declarePoint, declareDecode, decode_messagePoint, extsDecode, fieldDecode,
    bind_assoc, pure_bind]

theorem declarePoint_tolerant : declarePoint.Tolerant := by
  refine messagePoint_tolerant (fun ext msg hknown ↦ ?_) (fun header ↦ ?_) fun _ _ ↦ rfl
  · rw [mem_cons, mem_singleton, not_or] at hknown
    exact commonDecodeExt_of_unknown hknown.1 hknown.2
  · simp only [hasFlag_flagged_n]

def interestPoint : ExtPoint InterestMessage :=
  skippingPoint
    (fun header ↦ do
      let current := hasFlag header 0x20
      let future := hasFlag header 0x40
      let headerFlags := flagIf current 0x20 ||| flagIf future 0x40
      let id ← zint32Decode
      if !current && !future then pure ⟨wireexprNull, id, headerFlags, false⟩
      else do
        let flags ← uint8Decode
        let keyexpr ← fieldDecode (hasFlag flags 0x10) (keyDecode flags) wireexprNull
        pure ⟨keyexpr, id, headerFlags ||| (flags &&& 0x9F), false⟩)
    pure

theorem decode_interestPoint : interestPoint.decode = interestDecode := by
  funext header
  simp only [interestDecode, interestBodyDecode, interestPoint, decode_skippingPoint, bind_assoc,
    pure_bind]
  refine bind_congr fun id ↦ ?_
  split_ifs
  · simp only [pure_bind]
  · simp only [bind_assoc, pure_bind]

theorem interestPoint_tolerant : interestPoint.Tolerant :=
  skippingPoint_tolerant fun header ↦ by simp only [hasFlag_flagged_m, hasFlag_flagged_n]

def oamPoint : ExtPoint OamMessage :=
  messagePoint
    (fun _ ↦ do
      let id ← zint16Decode
      pure ⟨id, .null, 5, .unit⟩)
    [0x21, 0x42] oamDecodeExt fun header oam ↦ do
      let body ← oamBodyDecode (header &&& 0x60)
      pure { oam with body }

theorem decode_oamPoint : oamPoint.decode = oamDecode := by
  funext header
  simp only [oamPoint, oamDecode, decode_messagePoint, extsDecode, fieldDecode, bind_assoc,
    pure_bind]

theorem oamPoint_tolerant : oamPoint.Tolerant := by
  refine messagePoint_tolerant (fun ext msg hknown ↦ ?_) (fun _ ↦ rfl) fun header _ ↦ ?_
  · rw [mem_cons, mem_singleton, not_or] at hknown
    exact commonDecodeExt_of_unknown hknown.1 hknown.2
  · rw [flagged_and_enc]

/-- The PUT and the DEL, by the id in the header -/
def pushBodyPoint : ExtPoint PushBody :=
  messagePoint
    (fun header ↦
      if mid header = 0x01 then do
        let timestamp ← fieldDecode (hasFlag header 0x20) timestampDecode .null
        let encoding ← fieldDecode (hasFlag header 0x40) encodingDecode .null
        pure ⟨true, { MsgPut.null with timestamp, encoding }⟩
      else if mid header = 0x02 then do
        let timestamp ← fieldDecode (hasFlag header 0x20) timestampDecode .null
        pure ⟨false, { MsgPut.null with timestamp }⟩
      else throw .messageZenohUnknown)
    [0x41, 0x43] pushBodyDecodeExt fun header pshb ↦
      if mid header = 0x01 then do
        let payload ← sliceDecode
        pure { pshb with put := { pshb.put with payload } }
      else pure pshb

theorem decode_pushBodyPoint : pushBodyPoint.decode = pushBodyDecode := by
  funext header
  simp only [pushBodyDecode, pushBodyPoint, decode_messagePoint, pushBodyExtsDecode, extsDecode]
  split_ifs with hput hdel
  · simp only [bind_assoc, pure_bind]
  · simp only [bind_assoc, pure_bind, bind_pure]
  · rfl

theorem pushBodyPoint_tolerant : pushBodyPoint.Tolerant := by
  refine messagePoint_tolerant (fun ext msg hknown ↦ ?_) (fun header ↦ ?_) fun header _ ↦ ?_
  · rw [mem_cons, mem_singleton, not_or] at hknown
    rw [pushBodyDecodeExt, if_neg hknown.1, if_neg hknown.2]
    rfl
  · simp only [mid_flagged, hasFlag_flagged_m, hasFlag_flagged_n]
  · rw [mid_flagged]

def queryPoint : ExtPoint MsgQuery :=
  messagePoint
    (fun header ↦ do
      let consolidation ← fieldDecode (hasFlag header 0x20) (some <$> uint8Decode) none
      let parameters ← fieldDecode (hasFlag header 0x40) sliceDecode []
      pure ⟨parameters, false, consolidation, .null, ⟨[], .null⟩, []⟩)
    [0x41, 0x43, 0x45] queryDecodeExt fun _ ↦ pure

theorem decode_queryPoint : queryPoint.decode = queryDecode := by
  funext header
  simp only [queryPoint, queryDecode, decode_messagePoint, extsDecode, fieldDecode, bind_assoc,
    pure_bind, bind_pure]

theorem queryPoint_tolerant : queryPoint.Tolerant := by
  refine messagePoint_tolerant (fun ext msg hknown ↦ ?_) (fun header ↦ ?_) fun _ _ ↦ rfl
  · simp only [mem_cons, not_mem_nil, or_false, not_or] at hknown
    rw [queryDecodeExt, if_neg hknown.1, if_neg hknown.2.1, if_neg hknown.2.2]
    rfl
  · simp only [hasFlag_flagged_m, hasFlag_flagged_n]

/-- The fields of a reply. Its callback knows no extension. -/
def replyPoint : ExtPoint MsgReply where
  Fields := Option UInt8
  Ctx := Unit
  fields header := fieldDecode (hasFlag header 0x20) (some <$> uint8Decode) none
  context _ := ()
  known := []
  callback := replyDecodeExt
  rest _ consolidation _ := do
    let putHeader ← uint8Decode
    let body ← pushBodyDecode putHeader
    pure ⟨consolidation, body⟩

theorem decode_replyPoint : replyPoint.decode = replyDecode := by
  funext header
  simp only [replyPoint, replyDecode, ExtPoint.decode, extsDecode, fieldDecode]

def errPoint : ExtPoint MsgErr :=
  messagePoint
    (fun header ↦ do
      let encoding ← fieldDecode (hasFlag header 0x40) encodingDecode .null
      pure ⟨encoding, .null, []⟩)
    [0x41] errDecodeExt fun _ err ↦ do
      let payload ← sliceDecode
      pure { err with payload }

theorem decode_errPoint : errPoint.decode = errDecode := by
  funext header
  simp only [errPoint, errDecode, decode_messagePoint, extsDecode, fieldDecode, bind_assoc,
    pure_bind]

theorem errPoint_tolerant : errPoint.Tolerant := by
  refine messagePoint_tolerant (fun ext msg hknown ↦ ?_) (fun header ↦ ?_) fun _ _ ↦ rfl
  · rw [mem_singleton] at hknown
    rw [errDecodeExt, if_neg hknown]
    rfl
  · simp only [hasFlag_flagged_m]

def declKexprPoint : ExtPoint Declaration :=
  skippingPoint
    (fun header ↦ do
      let id ← zint16Decode
      let keyexpr ← wireexprDecode (hasFlag header 0x20) true
      pure (.declKexpr id keyexpr))
    pure

theorem decode_declKexprPoint : declKexprPoint.decode = declKexprDecode := by
  funext header
  simp only [declKexprPoint, declKexprDecode, decode_skippingPoint, extsDecode, fieldDecode,
    bind_assoc, pure_bind]

theorem declKexprPoint_tolerant : declKexprPoint.Tolerant :=
  skippingPoint_tolerant fun header ↦ by simp only [hasFlag_flagged_n]

def undeclKexprPoint : ExtPoint Declaration :=
  skippingPoint (fun _ ↦ zint16Decode) fun id ↦ pure (.undeclKexpr id)

theorem decode_undeclKexprPoint : undeclKexprPoint.decode = undeclKexprDecode := by
  funext header
  simp only [undeclKexprPoint, undeclKexprDecode, decode_skippingPoint, extsDecode, fieldDecode]

def declTrivialPoint : ExtPoint (UInt32 × WireExpr) := skippingPoint declCommonsDecode pure

theorem decode_declTrivialPoint : declTrivialPoint.decode = declTrivialDecode := by
  funext header
  simp only [declTrivialPoint, declTrivialDecode, decode_skippingPoint, extsDecode, fieldDecode]

theorem declCommonsDecode_flagged (header : UInt8) :
    declCommonsDecode (flagged header) = declCommonsDecode header := by
  simp only [declCommonsDecode, keyDecode, hasFlag_flagged_m, hasFlag_flagged_n]

theorem declTrivialPoint_tolerant : declTrivialPoint.Tolerant :=
  skippingPoint_tolerant declCommonsDecode_flagged

def undeclTrivialPoint : ExtPoint (UInt32 × WireExpr) where
  Fields := UInt32
  Ctx := WireExpr
  fields _ := zint32Decode
  context _ := wireexprNull
  known := [0x5F]
  callback := undeclDecodeExt
  rest _ id ke := pure (id, ke)

theorem decode_undeclTrivialPoint : undeclTrivialPoint.decode = undeclTrivialDecode := by
  funext header
  simp only [undeclTrivialPoint, undeclTrivialDecode, ExtPoint.decode, extsDecode, fieldDecode]

/-- The callback looks at the whole header, which has no bit beside the id. -/
theorem header_ne_of_knows {M : Type} {p : ExtPoint M} {id : UInt8} (hknown : p.known = [id])
    {ext : Extension} (hknows : p.knows ext = false) : ext.header ≠ id := by
  have hnot := of_decide_eq_false hknows
  rwa [hknown, mem_singleton, extFullId_of_more ext.more_header] at hnot

theorem undeclTrivialPoint_tolerant : undeclTrivialPoint.Tolerant where
  unknown _ _ hknows := if_neg (header_ne_of_knows rfl hknows)
  fields _ := rfl
  rest _ _ _ := rfl

def declQueryablePoint : ExtPoint Declaration where
  Fields := UInt32 × WireExpr
  Ctx := Bool × UInt16
  fields := declCommonsDecode
  context _ := (false, 0)
  known := [0x21]
  callback := declQueryableDecodeExt
  rest _ fields info := pure (.declQueryable fields.1 fields.2 info.1 info.2)

theorem decode_declQueryablePoint : declQueryablePoint.decode = declQueryableDecode := by
  funext header
  simp only [declQueryablePoint, declQueryableDecode, ExtPoint.decode, extsDecode, fieldDecode]

theorem declQueryablePoint_tolerant : declQueryablePoint.Tolerant where
  unknown _ _ hknows := if_neg (header_ne_of_knows rfl hknows)
  fields := declCommonsDecode_flagged
  rest _ _ _ := rfl

/-- `_z_decl_final_decode`, with the tag -/
def declFinalDecode (header : UInt8) : Decoder Declaration := do
  extsDecode header msgExtSkipNonMandatory ()
  pure .declFinal

def declFinalPoint : ExtPoint Declaration :=
  skippingPoint (fun _ ↦ pure ()) fun _ ↦ pure .declFinal

theorem decode_declFinalPoint : declFinalPoint.decode = declFinalDecode := by
  funext header
  simp only [declFinalPoint, declFinalDecode, decode_skippingPoint, extsDecode, fieldDecode,
    pure_bind]

end ZenohPico.Network
