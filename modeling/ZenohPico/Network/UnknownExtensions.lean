import ZenohPico.Network.ExtensionPoints

/-!
Unknown extensions in the messages of the transport and of the network.

A chain is put behind the fields of a message that is valid without its unknown extensions. Every
decoder skips them, and refuses those that are mandatory, but two: that of a CLOSE does not look for
extensions, and that of a reply refuses all of them.
-/

open List

namespace ZenohPico.Network

open Protocol Transport Session

/-! ### The messages -/

/-- The messages of the transport and of the network and the parts of these that have a Z flag -/
inductive ExtKind
  | join (fragmentation : Bool)
  | init (fragmentation : Bool)
  | opening
  | close
  | keepAlive
  | frame
  | fragment
  | push
  | request
  | response
  | responseFinal
  | declare
  | interest
  | oam
  | pushBody
  | query
  | reply
  | err
  | declKexpr
  | undeclKexpr
  | declTrivial
  | undeclTrivial
  | declQueryable
  | declFinal
deriving DecidableEq

namespace ExtKind

/-- What is decoded -/
def Msg : ExtKind → Type
  | join _ => TMsgJoin
  | init _ => TMsgInit
  | opening => TMsgOpen
  | close => TMsgClose
  | keepAlive => Unit
  | frame => TMsgFrame
  | fragment => TMsgFragment
  | push => PushMessage
  | request => RequestMessage
  | response => ResponseMessage
  | responseFinal => ResponseFinalMessage
  | declare => DeclareMessage
  | interest => InterestMessage
  | oam => OamMessage
  | pushBody => PushBody
  | query => MsgQuery
  | reply => MsgReply
  | err => MsgErr
  | declKexpr | undeclKexpr | declQueryable | declFinal => Declaration
  | declTrivial | undeclTrivial => UInt32 × WireExpr

/-- The decoder, behind the header -/
def decode : (k : ExtKind) → UInt8 → Decoder k.Msg
  | join fragmentation => joinDecode fragmentation
  | init fragmentation => initDecode fragmentation
  | opening => openDecode
  | close => fun _ ↦ closeDecode
  | keepAlive => keepAliveDecode
  | frame => frameDecode
  | fragment => fragmentDecode
  | push => pushDecode
  | request => requestDecode
  | response => responseDecode
  | responseFinal => responseFinalDecode
  | declare => declareDecode
  | interest => interestDecode
  | oam => oamDecode
  | pushBody => pushBodyDecode
  | query => queryDecode
  | reply => replyDecode
  | err => errDecode
  | declKexpr => declKexprDecode
  | undeclKexpr => undeclKexprDecode
  | declTrivial => declTrivialDecode
  | undeclTrivial => undeclTrivialDecode
  | declQueryable => declQueryableDecode
  | declFinal => declFinalDecode

/-- The parts of the message -/
def point : (k : ExtKind) → ExtPoint k.Msg
  | join fragmentation => joinPoint fragmentation
  | init fragmentation => initPoint fragmentation
  | opening => openPoint
  | close => closePoint
  | keepAlive => keepAlivePoint
  | frame => framePoint
  | fragment => fragmentPoint
  | push => pushPoint
  | request => requestPoint
  | response => responsePoint
  | responseFinal => responseFinalPoint
  | declare => declarePoint
  | interest => interestPoint
  | oam => oamPoint
  | pushBody => pushBodyPoint
  | query => queryPoint
  | reply => replyPoint
  | err => errPoint
  | declKexpr => declKexprPoint
  | undeclKexpr => undeclKexprPoint
  | declTrivial => declTrivialPoint
  | undeclTrivial => undeclTrivialPoint
  | declQueryable => declQueryablePoint
  | declFinal => declFinalPoint

/-- The decoder of every message but a CLOSE is made of these parts. -/
theorem decode_eq (k : ExtKind) (hclose : k ≠ close) : k.decode = k.point.decode := by
  cases k with
  | join fragmentation => exact (decode_joinPoint fragmentation).symm
  | init fragmentation => exact (decode_initPoint fragmentation).symm
  | opening => exact decode_openPoint.symm
  | close => exact absurd rfl hclose
  | keepAlive => exact decode_keepAlivePoint.symm
  | frame => exact decode_framePoint.symm
  | fragment => exact decode_fragmentPoint.symm
  | push => exact decode_pushPoint.symm
  | request => exact decode_requestPoint.symm
  | response => exact decode_responsePoint.symm
  | responseFinal => exact decode_responseFinalPoint.symm
  | declare => exact decode_declarePoint.symm
  | interest => exact decode_interestPoint.symm
  | oam => exact decode_oamPoint.symm
  | pushBody => exact decode_pushBodyPoint.symm
  | query => exact decode_queryPoint.symm
  | reply => exact decode_replyPoint.symm
  | err => exact decode_errPoint.symm
  | declKexpr => exact decode_declKexprPoint.symm
  | undeclKexpr => exact decode_undeclKexprPoint.symm
  | declTrivial => exact decode_declTrivialPoint.symm
  | undeclTrivial => exact decode_undeclTrivialPoint.symm
  | declQueryable => exact decode_declQueryablePoint.symm
  | declFinal => exact decode_declFinalPoint.symm

/-- Every callback but the one of a reply is tolerant. -/
theorem point_tolerant (k : ExtKind) (hreply : k ≠ reply) : k.point.Tolerant := by
  cases k with
  | join fragmentation => exact joinPoint_tolerant fragmentation
  | init fragmentation => exact initPoint_tolerant fragmentation
  | opening => exact openPoint_tolerant
  | close => exact skippingPoint_tolerant fun _ ↦ rfl
  | keepAlive => exact skippingPoint_tolerant fun _ ↦ rfl
  | frame => exact skippingPoint_tolerant fun _ ↦ rfl
  | fragment => exact fragmentPoint_tolerant
  | push => exact pushPoint_tolerant
  | request => exact requestPoint_tolerant
  | response => exact responsePoint_tolerant
  | responseFinal => exact skippingPoint_tolerant fun _ ↦ rfl
  | declare => exact declarePoint_tolerant
  | interest => exact interestPoint_tolerant
  | oam => exact oamPoint_tolerant
  | pushBody => exact pushBodyPoint_tolerant
  | query => exact queryPoint_tolerant
  | reply => exact absurd rfl hreply
  | err => exact errPoint_tolerant
  | declKexpr => exact declKexprPoint_tolerant
  | undeclKexpr => exact skippingPoint_tolerant fun _ ↦ rfl
  | declTrivial => exact declTrivialPoint_tolerant
  | undeclTrivial => exact undeclTrivialPoint_tolerant
  | declQueryable => exact declQueryablePoint_tolerant
  | declFinal => exact skippingPoint_tolerant fun _ ↦ rfl

theorem point_fields (k : ExtKind) (header : UInt8) :
    k.point.fields (flagged header) = k.point.fields header := by
  by_cases hreply : k = reply
  · subst hreply
    change fieldDecode _ _ _ = fieldDecode _ _ _
    rw [hasFlag_flagged_n]
  · exact (k.point_tolerant hreply).fields header

theorem point_rest (k : ExtKind) (header : UInt8) (fields : k.point.Fields)
    (context : k.point.Ctx) :
    k.point.rest (flagged header) fields context = k.point.rest header fields context := by
  by_cases hreply : k = reply
  · subst hreply
    rfl
  · exact (k.point_tolerant hreply).rest header fields context

end ExtKind

/-! ### Chains with unknown extensions -/

/-- A message with a chain of extensions that is valid without the unknown ones: its fields are
read from `front`, whatever follows, and with the known extensions alone it is decoded. -/
structure ChainedMessage (k : ExtKind) where
  header : UInt8
  plain : hasFlag header 0x80 = false
  front : List UInt8
  fields : k.point.Fields
  reads : ∀ zbf, k.point.fields header (front ++ zbf) = .ok (fields, zbf)
  chain : List Extension
  tail : List UInt8
  msg : k.Msg
  left : List UInt8
  valid : k.decode (ExtPoint.chainHeader header (chain.filter k.point.knows))
    (ExtPoint.chainBytes front tail (chain.filter k.point.knows)) = .ok (msg, left)

namespace ChainedMessage

variable {k : ExtKind}

/-- What the decoder gives for the message with the whole chain -/
def decoded (m : ChainedMessage k) : Except ZError (k.Msg × List UInt8) :=
  k.decode (ExtPoint.chainHeader m.header m.chain) (ExtPoint.chainBytes m.front m.tail m.chain)

/-- Unknown extensions that are not mandatory change nothing, and the whole chain is consumed. One
that is mandatory makes the message one that is not decoded. -/
def Survives (m : ChainedMessage k) : Prop :=
  ((∀ ext ∈ m.chain, k.point.refuses ext = false) → m.decoded = .ok (m.msg, m.left)) ∧
    ((∃ ext ∈ m.chain, k.point.refuses ext = true) → ∃ e, m.decoded = .error e)

/-- The chain has no unknown extension, or the message is not a CLOSE, and where it is a reply an
unknown extension is mandatory. -/
def Handled (m : ChainedMessage k) : Prop :=
  (∀ ext ∈ m.chain, k.point.knows ext = true) ∨
    k ≠ .close ∧ (k = .reply → ∃ ext ∈ m.chain, k.point.refuses ext = true)

theorem decoded_eq (hclose : k ≠ .close) (m : ChainedMessage k) : m.decoded =
    k.point.foldChain m.chain (k.point.context m.fields) >>= fun context ↦
      k.point.rest m.header m.fields context m.tail := by
  rw [decoded, k.decode_eq hclose]
  exact ExtPoint.decode_chain (k.point_fields _) (k.point_rest _) m.plain m.reads m.chain

/-- A tolerant callback takes every chain. -/
theorem survives_of_tolerant (hclose : k ≠ .close) (hreply : k ≠ .reply) (m : ChainedMessage k) :
    m.Survives := by
  have htolerant := k.point_tolerant hreply
  have hvalid := m.valid
  rw [k.decode_eq hclose, ExtPoint.decode_chain (k.point_fields _) (k.point_rest _) m.plain
    m.reads] at hvalid
  refine ⟨fun hskip ↦ ?_, fun hrefused ↦ ?_⟩
  · rw [m.decoded_eq hclose, ExtPoint.foldChain_filter htolerant hskip, hvalid]
  · obtain ⟨e, he⟩ := ExtPoint.foldChain_error htolerant hrefused (k.point.context m.fields)
    refine ⟨e, ?_⟩
    rw [m.decoded_eq hclose, he]
    rfl

/-- Without extensions there is nothing to take or to refuse. -/
theorem survives_of_nil {m : ChainedMessage k} (hchain : m.chain = []) : m.Survives := by
  have hvalid := m.valid
  rw [hchain, filter_nil] at hvalid
  refine ⟨fun _ ↦ ?_, fun hrefused ↦ ?_⟩
  · rw [decoded, hchain]
    exact hvalid
  · obtain ⟨ext, hmem, -⟩ := hrefused
    rw [hchain] at hmem
    exact absurd hmem not_mem_nil

/-- A reply refuses every extension. -/
theorem survives_reply_iff (m : ChainedMessage .reply) :
    m.Survives ↔ m.chain = [] ∨ ∃ ext ∈ m.chain, ExtKind.reply.point.refuses ext = true := by
  cases hchain : m.chain with
  | nil => exact iff_of_true (survives_of_nil hchain) (.inl rfl)
  | cons ext chain =>
    have herror : m.decoded = .error .messageExtensionMandatoryAndUnknown := by
      rw [m.decoded_eq (by decide), hchain]
      rfl
    rw [← hchain]
    refine ⟨fun h ↦ .inr ?_, fun h ↦ ⟨fun hskip ↦ ?_, fun _ ↦ ⟨_, herror⟩⟩⟩
    · by_contra hnone
      have hok := h.1 fun ext hmem ↦ Bool.eq_false_of_not_eq_true fun hrefused ↦
        hnone ⟨ext, hmem, hrefused⟩
      rw [herror] at hok
      cases hok
    · rcases h with hnil | ⟨ext, hmem, hrefused⟩
      · rw [hchain] at hnil
        cases hnil
      · rw [hskip ext hmem] at hrefused
        cases hrefused

/-- A CLOSE leaves its extensions where they are. -/
theorem survives_close_iff (m : ChainedMessage .close) : m.Survives ↔ m.chain = [] := by
  refine ⟨fun h ↦ ?_, survives_of_nil⟩
  have hdecoded : m.decoded = .ok (m.fields,
      extChainEncode (m.chain.map Extension.toMsgExt) ++ m.tail) := m.reads _
  have hnone : m.chain.filter ExtKind.close.point.knows = [] := filter_eq_nil_iff.mpr
    fun ext _ hknows ↦ not_mem_nil (of_decide_eq_true hknows)
  have hvalid := m.valid
  rw [hnone] at hvalid
  have hleft : (Except.ok (m.fields, m.tail) : Except ZError _) = .ok (m.msg, m.left) :=
    (m.reads _).symm.trans hvalid
  by_cases hrefused : ∃ ext ∈ m.chain, ExtKind.close.point.refuses ext = true
  · obtain ⟨e, he⟩ := h.2 hrefused
    rw [hdecoded] at he
    cases he
  · have hok := h.1 fun ext hmem ↦ Bool.eq_false_of_not_eq_true fun htrue ↦
      hrefused ⟨ext, hmem, htrue⟩
    have hsame : extChainEncode (m.chain.map Extension.toMsgExt) ++ m.tail = m.tail :=
      congrArg Prod.snd (Except.ok.inj (hdecoded.symm.trans (hok.trans hleft.symm)))
    have hempty := append_left_eq_self.mp hsame
    cases hchain : m.chain with
    | nil => rfl
    | cons ext chain =>
      rw [hchain] at hempty
      cases hempty

/-- Of a message that knows no extension, a chain is known where it is empty. -/
theorem all_known_iff {m : ChainedMessage k} (hknown : k.point.known = []) :
    (∀ ext ∈ m.chain, k.point.knows ext = true) ↔ m.chain = [] := by
  have hnone : ∀ ext, k.point.knows ext ≠ true := fun ext hknows ↦ by
    rw [ExtPoint.knows, hknown] at hknows
    exact not_mem_nil (of_decide_eq_true hknows)
  constructor
  · exact fun hall ↦ eq_nil_iff_forall_not_mem.mpr fun ext hmem ↦ hnone ext (hall ext hmem)
  · intro hchain ext hmem
    rw [hchain] at hmem
    exact absurd hmem not_mem_nil

/-- Unknown extensions are taken as they should be just where they are not in a CLOSE, nor in a
reply without a mandatory one among them. -/
theorem survives_iff_handled (m : ChainedMessage k) : m.Survives ↔ m.Handled := by
  by_cases hclose : k = .close
  · subst hclose
    rw [survives_close_iff, Handled, all_known_iff rfl]
    exact (or_iff_left fun hand ↦ hand.1 rfl).symm
  by_cases hreply : k = .reply
  · subst hreply
    rw [survives_reply_iff, Handled, all_known_iff rfl]
    exact or_congr_right ⟨fun h ↦ ⟨by decide, fun _ ↦ h⟩, fun h ↦ h.2 rfl⟩
  · exact iff_of_true (survives_of_tolerant hclose hreply m)
      (.inr ⟨hclose, fun heq ↦ absurd heq hreply⟩)

/-- An extension that is not mandatory, with an id that neither a CLOSE nor a reply knows -/
def optionalUnit : Extension := ⟨⟨0x01, .unit⟩, rfl, rfl, fun _ h ↦ nomatch h⟩

def closeWithOptional : ChainedMessage .close where
  header := 0x03
  plain := rfl
  front := [0x00]
  fields := (⟨0⟩ : TMsgClose)
  reads _ := rfl
  chain := [optionalUnit]
  tail := []
  msg := (⟨0⟩ : TMsgClose)
  left := []
  valid := rfl

def replyWithOptional : ChainedMessage .reply where
  header := 0x04
  plain := rfl
  front := []
  fields := (none : Option UInt8)
  reads _ := rfl
  chain := [optionalUnit]
  tail := [0x01, 0x00]
  msg := (⟨none, ⟨true, MsgPut.null⟩⟩ : MsgReply)
  left := []
  valid := rfl

/-- An optional extension is left in the bytes of a CLOSE, and makes a reply one that is not
decoded. -/
theorem not_survives_optionalUnit :
    ¬ closeWithOptional.Survives ∧ ¬ replyWithOptional.Survives := by
  constructor
  · rw [survives_close_iff]
    exact cons_ne_nil _ _
  · rw [survives_reply_iff]
    rintro (hnil | ⟨ext, hmem, hrefused⟩)
    · exact absurd hnil (cons_ne_nil _ _)
    · obtain rfl := mem_singleton.mp hmem
      exact absurd hrefused (by decide)

end ChainedMessage

/-! ### Whole messages -/

namespace ExtKind

/-- The id of a message of the network, and its tag -/
def network : (k : ExtKind) → Option (UInt8 × (k.Msg → NetworkMessage))
  | declare => some (0x1E, NetworkMessage.declare)
  | push => some (0x1D, NetworkMessage.push)
  | request => some (0x1C, NetworkMessage.request)
  | response => some (0x1B, NetworkMessage.response)
  | responseFinal => some (0x1A, NetworkMessage.responseFinal)
  | interest => some (0x19, NetworkMessage.interest)
  | oam => some (0x1F, NetworkMessage.oam)
  | _ => none

variable {k : ExtKind} {header : UInt8}

theorem networkMessageDecode_of_mid {tag : k.Msg → NetworkMessage}
    (hk : k.network = some (mid header, tag)) (zbf : List UInt8) :
    networkMessageDecode (header :: zbf) = (tag <$> k.decode header) zbf := by
  rw [networkMessageDecode, Decoder.bind_of_ok (uint8Decode_cons _ _)]
  cases k with
  | declare | push | request | response | responseFinal | interest | oam =>
    obtain ⟨hmid, rfl⟩ := Prod.mk.inj (Option.some.inj hk)
    rw [← hmid]
    rfl
  | _ => cases hk

end ExtKind

namespace ChainedMessage

variable {k : ExtKind}

/-- The Z flag does not change the id. -/
theorem mid_chainHeader (m : ChainedMessage k) :
    mid (ExtPoint.chainHeader m.header m.chain) = mid m.header := by
  rw [ExtPoint.chainHeader]
  split_ifs
  · rfl
  · exact mid_flagged m.header

/-- A message of the network with unknown extensions is decoded as the one without them, or it is
not decoded where one of them is mandatory. -/
theorem networkMessageDecode_chain (m : ChainedMessage k) {tag : k.Msg → NetworkMessage}
    (hk : k.network = some (mid m.header, tag)) :
    let bytes := ExtPoint.chainHeader m.header m.chain :: ExtPoint.chainBytes m.front m.tail m.chain
    ((∀ ext ∈ m.chain, k.point.refuses ext = false) →
        networkMessageDecode bytes = .ok (tag m.msg, m.left)) ∧
      ((∃ ext ∈ m.chain, k.point.refuses ext = true) →
        ∃ e, networkMessageDecode bytes = .error e) := by
  have hclose : k ≠ .close := by
    rintro rfl
    cases hk
  have hreply : k ≠ .reply := by
    rintro rfl
    cases hk
  obtain ⟨hsame, hrefused⟩ := survives_of_tolerant hclose hreply m
  rw [← m.mid_chainHeader] at hk
  dsimp only
  rw [ExtKind.networkMessageDecode_of_mid hk]
  refine ⟨fun hskip ↦ Decoder.map_of_ok (hsame hskip) tag, fun hsome ↦ ?_⟩
  obtain ⟨e, he⟩ := hrefused hsome
  exact ⟨e, Decoder.map_of_error he tag⟩

def responseFinalWithOptional : ChainedMessage .responseFinal where
  header := 0x1A
  plain := rfl
  front := [0x05]
  fields := (5 : UInt64)
  reads _ := rfl
  chain := [optionalUnit]
  tail := []
  msg := (⟨5⟩ : ResponseFinalMessage)
  left := []
  valid := rfl

theorem networkMessageDecode_chain_responseFinal :
    networkMessageDecode [0x9A, 0x05, 0x01] = .ok (.responseFinal ⟨5⟩, []) :=
  (networkMessageDecode_chain responseFinalWithOptional rfl).1 fun ext hext ↦ by
    obtain rfl := mem_singleton.mp hext
    rfl

end ChainedMessage

end ZenohPico.Network
