import ZenohPico.Transport.Handshake
import ZenohPico.Transport.Receive

/-!
The constructors of the transport messages (`src/protocol/definitions/transport.c`) and what becomes
of their messages on the other side of a link (`src/protocol/codec/transport.c`).

The flags of a header are set by the constructor, and decide what the encoder writes and what the
decoder looks for. A decoded message is the one that was made; the payload of a FRAME is left in
the buffer, where the handler of the frame reads the network messages from.
-/

namespace ZenohPico.Transport

open Protocol
open List (append_assoc append_nil cons_append cons_ne_nil length_append length_cons
  length_singleton)

/-! ### Constructors -/

/-- The body of `_z_t_msg_make_join`, with the build's `Z_BATCH_MULTICAST_SIZE` -/
def joinBody (cfg : BuildConfig) (batchMulticastSize : UInt16) (whatami : WhatAmI)
    (lease : UInt64) (zid : ZenohId) (nextSn : ConduitSnList) : TMsgJoin where
  zid := zid
  lease := lease
  nextSn := nextSn
  batchSize := batchMulticastSize
  whatami := whatami
  reqIdRes := cfg.reqResolution
  seqNumRes := cfg.snResolution
  version := cfg.protoVersion
  patch := if cfg.fragmentation then Protocol.currentPatch else noPatch

/-- `_z_t_msg_make_join` -/
def makeJoin (cfg : BuildConfig) (batchMulticastSize : UInt16) (whatami : WhatAmI)
    (lease : UInt64) (zid : ZenohId) (nextSn : ConduitSnList) : TransportMessage where
  header := 0x07 ||| flagIf (lease % 1000 == 0) 0x20 |||
    flagIf (batchMulticastSize != defaultMulticastBatchSize ||
      cfg.snResolution != defaultResolutionSize ||
      cfg.reqResolution != defaultResolutionSize) 0x40 |||
    flagIf (nextSn.isQos || (cfg.fragmentation && (Protocol.currentPatch != noPatch))) 0x80
  body := .join (joinBody cfg batchMulticastSize whatami lease zid nextSn)

/-- `_z_t_msg_make_close` -/
def makeClose (reason : UInt8) (linkOnly : Bool) : TransportMessage where
  header := 0x03 ||| flagIf (!linkOnly) 0x20
  body := .close { reason }

/-- `_z_t_msg_make_keep_alive` -/
def makeKeepAlive : TransportMessage where
  header := 0x04
  body := .keepAlive

/-- `_z_t_msg_make_frame` -/
def makeFrame (sn : UInt64) (payload : List UInt8) (reliability : Reliability) :
    TransportMessage where
  header := 0x05 ||| flagIf (reliability == .reliable) 0x20
  body := .frame { sn, payload }

/-- `_z_t_msg_make_frame_header` -/
def makeFrameHeader (sn : UInt64) (reliability : Reliability) : TransportMessage where
  header := 0x05 ||| flagIf (reliability == .reliable) 0x20
  body := .frame { sn, payload := [] }

/-- `_z_t_msg_make_fragment` -/
def makeFragment (sn : UInt64) (payload : List UInt8) (reliability : Reliability)
    (isLast first drop : Bool) : TransportMessage where
  header := 0x06 ||| flagIf (!isLast) 0x40 ||| flagIf (reliability == .reliable) 0x20 |||
    flagIf (first || drop) 0x80
  body := .fragment { sn, payload, first, drop }

/-- `_z_t_msg_make_fragment_header` -/
def makeFragmentHeader (sn : UInt64) (reliability : Reliability) (isLast first drop : Bool) :
    TransportMessage :=
  makeFragment sn [] reliability isLast first drop

/-- The messages that the constructors of a build make. Roles are those that have an enumerator,
and a slice has a length of 64 bits. -/
inductive Made (cfg : BuildConfig) (batchMulticastSize : UInt16) : TransportMessage → Prop
  | join (whatami : WhatAmI) (lease : UInt64) (zid : ZenohId) (nextSn : ConduitSnList)
      (hwhatami : whatami ≠ .reserved) (hzid : 0 < idLen zid) :
      Made cfg batchMulticastSize (makeJoin cfg batchMulticastSize whatami lease zid nextSn)
  | initSyn (whatami : WhatAmI) (zid : ZenohId) (hwhatami : whatami ≠ .reserved)
      (hzid : 0 < idLen zid) : Made cfg batchMulticastSize (makeInitSyn cfg whatami zid)
  | initAck (whatami : WhatAmI) (zid : ZenohId) (cookie : List UInt8)
      (hwhatami : whatami ≠ .reserved) (hzid : 0 < idLen zid)
      (hcookie : cookie.length < UInt64.size) :
      Made cfg batchMulticastSize (makeInitAck cfg whatami zid cookie)
  | openSyn (lease initialSn : UInt64) (cookie : List UInt8)
      (hcookie : cookie.length < UInt64.size) :
      Made cfg batchMulticastSize (makeOpenSyn lease initialSn cookie)
  | openAck (lease initialSn : UInt64) : Made cfg batchMulticastSize (makeOpenAck lease initialSn)
  | close (reason : UInt8) (linkOnly : Bool) :
      Made cfg batchMulticastSize (makeClose reason linkOnly)
  | keepAlive : Made cfg batchMulticastSize makeKeepAlive
  | frame (sn : UInt64) (payload : List UInt8) (reliability : Reliability) :
      Made cfg batchMulticastSize (makeFrame sn payload reliability)
  | frameHeader (sn : UInt64) (reliability : Reliability) :
      Made cfg batchMulticastSize (makeFrameHeader sn reliability)
  | fragment (sn : UInt64) (payload : List UInt8) (reliability : Reliability)
      (isLast first drop : Bool) :
      Made cfg batchMulticastSize (makeFragment sn payload reliability isLast first drop)
  | fragmentHeader (sn : UInt64) (reliability : Reliability) (isLast first drop : Bool) :
      Made cfg batchMulticastSize (makeFragmentHeader sn reliability isLast first drop)

/-! ### Lengths of integers -/

/-- The `VLE_LEN` masks -/
def vleLenMask (k : ℕ) : UInt64 := (0xFFFFFFFFFFFFFFFF : UInt64) <<< UInt64.ofNat (7 * k)

/-- `_z_zint_len`, from the mask of `k` bytes on, with the number of masks that are left -/
def zintLenFrom (v : UInt64) (k : ℕ) : ℕ → ℕ
  | 0 => k
  | n + 1 => if v &&& vleLenMask k = 0 then k else zintLenFrom v (k + 1) n

/-- `_z_zint_len` -/
def zintLen (v : UInt64) : ℕ := zintLenFrom v 1 8

theorem and_vleLenMask_eq_zero_iff (v : UInt64) {k : ℕ} (hk : k ≤ 8) :
    v &&& vleLenMask k = 0 ↔ v.toNat < 2 ^ (7 * k) := by
  have hmask : ∀ j : Fin 9, (vleLenMask j.val).toNat = 2 ^ 64 - (2 ^ (7 * j.val) - 1 + 1) := by
    decide +kernel
  have hpow : 2 ^ (7 * k) - 1 < 2 ^ 64 :=
    (Nat.sub_le _ _).trans_lt (Nat.pow_lt_pow_right (by decide) (by omega))
  have hand : (v &&& vleLenMask k).toNat = (v.toNat >>> (7 * k)) <<< (7 * k) := by
    rw [UInt64.toNat_and, hmask ⟨k, Nat.lt_succ_of_le hk⟩]
    apply Nat.eq_of_testBit_eq
    intro i
    rw [Nat.testBit_and, Nat.testBit_two_pow_sub_succ hpow, Nat.testBit_shiftLeft,
      Nat.testBit_shiftRight, Nat.testBit_two_pow_sub_one]
    by_cases hi : 7 * k ≤ i
    · have hsub : 7 * k + (i - 7 * k) = i := by omega
      rw [hsub]
      by_cases hbig : i < 64
      · simp [hi, hbig]
      · have hzero : v.toNat.testBit i = false :=
          Nat.testBit_lt_two_pow (v.toNat_lt.trans_le (Nat.pow_le_pow_right (by decide)
            (Nat.le_of_not_lt hbig)))
        simp [hzero]
    · simp [hi, Nat.lt_of_not_le hi]
  rw [← UInt64.toNat_inj, hand, Nat.shiftLeft_eq, Nat.shiftRight_eq_div_pow, UInt64.toNat_zero,
    Nat.mul_eq_zero, Nat.div_eq_zero_iff]
  simp

/-- The encoder writes one byte for each group of seven bits, but never a tenth one. -/
theorem length_zint64EncodeFrom {n : ℕ} :
    ∀ {k : ℕ} {v lv : UInt64}, k + n = 8 → lv.toNat = v.toNat / 2 ^ (7 * k) →
      (zint64EncodeFrom lv k).length + k = zintLenFrom v (k + 1) n := by
  induction n with
  | zero =>
    intro k v lv hk hlv
    obtain rfl : k = 8 := hk
    have hlt : lv.toNat < 256 := by
      rw [hlv]
      exact Nat.div_lt_of_lt_mul (v.toNat_lt.trans_eq (by decide))
    rw [zintLenFrom]
    rcases Nat.lt_or_ge lv.toNat 128 with hsmall | hle
    · rw [zint64EncodeFrom_of_lt hsmall, if_pos (by decide)]
      rfl
    · have hone : (lv >>> 7).toNat < 128 := by
        rw [toNat_shiftRight_seven]
        omega
      rw [zint64EncodeFrom_of_le hle, zint64EncodeFrom_of_lt hone, if_neg (by decide)]
      rfl
  | succ n ih =>
    intro k v lv hk hlv
    have hiff : v &&& vleLenMask (k + 1) = 0 ↔ lv.toNat < 128 := by
      rw [and_vleLenMask_eq_zero_iff v (by omega), hlv, Nat.div_lt_iff_lt_mul (Nat.two_pow_pos _),
        Nat.mul_succ, Nat.pow_add, Nat.mul_comm]
    rw [zintLenFrom]
    rcases Nat.lt_or_ge lv.toNat 128 with hsmall | hle
    · rw [zint64EncodeFrom_of_lt hsmall, if_pos (by omega), if_pos (hiff.mpr hsmall),
        length_singleton, Nat.add_comm]
    · have hnext : (zint64EncodeFrom (lv >>> 7) (k + 1)).length + (k + 1) =
          zintLenFrom v (k + 1 + 1) n := by
        refine ih (by omega) ?_
        rw [toNat_shiftRight_seven, hlv, Nat.div_div_eq_div_mul, Nat.mul_add 7 k 1, Nat.pow_add]
      rw [zint64EncodeFrom_of_le hle, if_neg (fun hzero ↦ absurd (hiff.mp hzero) (by omega)),
        length_cons, ← hnext]
      omega

/-- `_z_zint_len` is the number of bytes that `_z_zint64_encode` writes. -/
theorem length_zint64Encode (v : UInt64) : (zint64Encode v).length = zintLen v :=
  length_zint64EncodeFrom (n := 8) (k := 0) rfl (Nat.div_one _).symm

theorem zintLenFrom_le (v : UInt64) (n : ℕ) : ∀ k, zintLenFrom v k n ≤ k + n := by
  induction n with
  | zero => exact fun k ↦ le_rfl
  | succ n ih =>
    intro k
    rw [zintLenFrom]
    split
    · omega
    · exact (ih (k + 1)).trans (by omega)

theorem length_zint64Encode_le (v : UInt64) : (zint64Encode v).length ≤ 9 := by
  rw [length_zint64Encode]
  exact zintLenFrom_le v 8 1

/-! ### Reading a JOIN back -/

theorem conduitSnsDecode_encode {n : ℕ} (sns : Vector ConduitSn n) (zbf : List UInt8) :
    conduitSnsDecode n (conduitSnsEncode sns.toList ++ zbf) = .ok (sns, zbf) := by
  induction n generalizing zbf with
  | zero =>
    obtain rfl : sns = #v[] := Vector.eq_empty
    rfl
  | succ n ih =>
    have hwritten : conduitSnsEncode sns.toList = conduitSnsEncode sns.pop.toList ++
        (zint64Encode sns.back.reliable ++ zint64Encode sns.back.bestEffort) := by
      conv_lhs => rw [← Vector.push_pop_back sns, Vector.toList_push]
      simp [conduitSnsEncode]
    rw [hwritten, append_assoc, append_assoc, conduitSnsDecode,
      Decoder.bind_of_ok (ih sns.pop _), Decoder.bind_of_ok (zint64Decode_encode _ _),
      Decoder.bind_of_ok (zint64Decode_encode _ _), Decoder.pure_apply, Vector.push_pop_back]

theorem length_conduitSnsEncode_le (sns : List ConduitSn) :
    (conduitSnsEncode sns).length ≤ 18 * sns.length := by
  induction sns with
  | nil => exact le_rfl
  | cons sn sns ih =>
    have hreliable := length_zint64Encode_le sn.reliable
    have hbestEffort := length_zint64Encode_le sn.bestEffort
    have hcons : conduitSnsEncode (sn :: sns) =
        zint64Encode sn.reliable ++ zint64Encode sn.bestEffort ++ conduitSnsEncode sns := rfl
    rw [hcons, length_append, length_append, length_cons]
    omega

theorem msgExtDecode_joinQos (more : Bool) {body : List UInt8} (hlen : body.length < 2 ^ 64)
    (zbf : List UInt8) : msgExtDecode ((0x51 ||| flagIf more 0x80) :: (sliceEncode body ++ zbf)) =
      .ok (({ header := 0x51, body := .zbuf body }, more), zbf) := by
  have hflags : extFullId (0x51 ||| flagIf more 0x80) = 0x51 ∧
      ((0x51 ||| flagIf more 0x80) &&& 0x60 : UInt8) = 0x40 ∧
      (((0x51 ||| flagIf more 0x80) &&& 0x80 : UInt8) != 0) = more := by
    cases more <;> decide
  rw [msgExtDecode_zbuf hflags.2.1 hlen, hflags.1, hflags.2.2]

theorem joinDecodeExt_qos (fragmentation : Bool) (sns : Vector ConduitSn 8) (msg : TMsgJoin) :
    joinDecodeExt fragmentation { header := 0x51, body := .zbuf (conduitSnsEncode sns.toList) }
      msg = .ok { msg with nextSn := { qos := sns, isQos := true } } := by
  have hid : extFullId 0x51 = 0x51 := by decide
  have hread := conduitSnsDecode_encode sns []
  rw [append_nil] at hread
  rw [joinDecodeExt, if_pos hid, MsgExtBody.bytes, hread]

theorem joinDecodeExt_patch (fragmentation : Bool) (patch : UInt8) (msg : TMsgJoin) :
    joinDecodeExt fragmentation { header := 0x27, body := .zint patch.toUInt64 } msg =
      .ok (if fragmentation then { msg with patch } else msg) := by
  have hqos : ¬ (extFullId 0x27 = 0x51) := by decide
  have hid : extFullId 0x27 = 0x27 := by decide
  have hoptional : msgExtIsMandatory 0x27 = false := by decide
  rw [joinDecodeExt, if_neg hqos]
  cases fragmentation with
  | true => simp [hid, MsgExtBody.val]
  | false => simp [hoptional]

/-- What the receiver reads of a JOIN in front of the extensions -/
def joinRead (header : UInt8) (msg : TMsgJoin) : TMsgJoin :=
  { msg with
    seqNumRes := if hasFlag header 0x40 then msg.seqNumRes &&& 0x03 else defaultResolutionSize
    reqIdRes := if hasFlag header 0x40 then msg.reqIdRes &&& 0x03 else defaultResolutionSize
    batchSize := if hasFlag header 0x40 then msg.batchSize else defaultMulticastBatchSize
    lease := if hasFlag header 0x20 then msg.lease / 1000 * 1000 else msg.lease
    nextSn := ConduitSnList.ofPlain msg.nextSn.plain
    patch := noPatch }

/-- The part of a JOIN in front of the extensions -/
def joinFields (header : UInt8) (msg : TMsgJoin) : List UInt8 :=
  zidEncode msg.version msg.whatami msg.zid ++
    (if hasFlag header 0x40 then sizesEncode msg.seqNumRes msg.reqIdRes msg.batchSize else []) ++
    zint64Encode (if hasFlag header 0x20 then msg.lease / 1000 else msg.lease) ++
    (zint64Encode msg.nextSn.plain.reliable ++ zint64Encode msg.nextSn.plain.bestEffort)

variable {msg : TMsgJoin} {fragmentation : Bool} {header : UInt8}

theorem joinDecode_fields (fragmentation : Bool) (header : UInt8) (hzid : 0 < idLen msg.zid)
    (hwhatami : msg.whatami ≠ .reserved) (zbf : List UInt8) :
    joinDecode fragmentation header (joinFields header msg ++ zbf) =
      if hasFlag header 0x80 then
        msgExtDecodeIter (joinDecodeExt fragmentation) (joinRead header msg) zbf
      else .ok (joinRead header msg, zbf) := by
  have hrole := whatamiFromUint8_cbyte hwhatami hzid (idLen_le msg.zid)
  rw [← zidCbyte] at hrole
  have hsizes : ∀ rest, sizesDecode header 0x40 defaultMulticastBatchSize
      ((if hasFlag header 0x40 then sizesEncode msg.seqNumRes msg.reqIdRes msg.batchSize
        else []) ++ rest) = .ok (((joinRead header msg).seqNumRes, (joinRead header msg).reqIdRes,
        (joinRead header msg).batchSize), rest) := by
    intro rest
    cases hflag : hasFlag header 0x40 with
    | true => simpa [joinRead, hflag] using sizesDecode_encode hflag _ _ _ _ rest
    | false => simpa [joinRead, hflag] using sizesDecode_default hflag _ rest
  have hlease : (if hasFlag header 0x20 then
      (if hasFlag header 0x20 then msg.lease / 1000 else msg.lease) * 1000
      else (if hasFlag header 0x20 then msg.lease / 1000 else msg.lease)) =
      (joinRead header msg).lease := by
    simp only [joinRead]
    split <;> rfl
  simp only [joinDecode, joinFields, zidEncode, cons_append, append_assoc]
  rw [Decoder.bind_of_ok (uint8Decode_cons _ _), Decoder.bind_of_ok (uint8Decode_cons _ _),
    Decoder.bind_of_ok (zidDecode_take hzid _ _), Decoder.bind_of_ok (hsizes _),
    Decoder.bind_of_ok (zint64Decode_encode _ _), Decoder.bind_of_ok (zint64Decode_encode _ _),
    Decoder.bind_of_ok (zint64Decode_encode _ _), hrole, hlease]
  cases hasFlag header 0x80 <;> rfl

/-- The extensions of a JOIN: the QoS numbers, and the patch version of a build that has one -/
def joinExtensions (fragmentation : Bool) (msg : TMsgJoin) : List UInt8 :=
  (if msg.nextSn.isQos then
    (0x51 ||| flagIf (fragmentation && msg.patch != noPatch) 0x80) ::
      sliceEncode (conduitSnsEncode msg.nextSn.qos.toList) else []) ++
    (if fragmentation && msg.patch != noPatch then 0x27 :: zint64Encode msg.patch.toUInt64 else [])

theorem joinEncode_eq (fragmentation : Bool) (header : UInt8) (msg : TMsgJoin)
    (hflag : hasFlag header 0x80 = (msg.nextSn.isQos || (fragmentation && msg.patch != noPatch))) :
    joinEncode fragmentation header msg =
      .ok (joinFields header msg ++ joinExtensions fragmentation msg) := by
  have hqos : joinQosEncode (fragmentation && msg.patch != noPatch) header msg.nextSn =
      .ok (if msg.nextSn.isQos then
        (0x51 ||| flagIf (fragmentation && msg.patch != noPatch) 0x80) ::
          sliceEncode (conduitSnsEncode msg.nextSn.qos.toList) else []) := by
    rw [joinQosEncode, hflag]
    cases msg.nextSn.isQos <;> rfl
  have hpatch : patchEncode fragmentation header msg.patch =
      .ok (if fragmentation && msg.patch != noPatch then
        0x27 :: zint64Encode msg.patch.toUInt64 else []) := by
    rw [patchEncode, hflag]
    cases fragmentation && msg.patch != noPatch
    · rfl
    · rw [Bool.or_true]
      rfl
  rw [joinEncode, hqos, hpatch]
  exact congrArg Except.ok (append_assoc (joinFields header msg) _ _)

theorem joinExtensions_decode {fragmentation : Bool} {msg : TMsgJoin} (base : TMsgJoin)
    (hext : (msg.nextSn.isQos || (fragmentation && msg.patch != noPatch)) = true)
    (zbf : List UInt8) : msgExtDecodeIter (joinDecodeExt fragmentation) base
        (joinExtensions fragmentation msg ++ zbf) = .ok ({ base with
        nextSn := if msg.nextSn.isQos then msg.nextSn else base.nextSn
        patch := if fragmentation && msg.patch != noPatch then msg.patch else base.patch },
          zbf) := by
  have hlen : (conduitSnsEncode msg.nextSn.qos.toList).length < 2 ^ 64 :=
    (length_conduitSnsEncode_le _).trans_lt (by rw [Vector.length_toList]; decide)
  -- the patch version comes last
  have hpatch : ∀ base : TMsgJoin, (fragmentation && msg.patch != noPatch) = true →
      msgExtDecodeIter (joinDecodeExt fragmentation) base
        (0x27 :: (zint64Encode msg.patch.toUInt64 ++ zbf)) =
      .ok ({ base with patch := msg.patch }, zbf) := by
    intro base hhas
    obtain ⟨rfl, -⟩ := Bool.and_eq_true_iff.mp hhas
    rw [msgExtDecodeIter_of_ok (msgExtDecode_patch msg.patch zbf) (joinDecodeExt_patch _ _ _)]
    rfl
  cases hqos : msg.nextSn.isQos with
  | false =>
    rw [hqos, Bool.false_or] at hext
    have hlast := hpatch base hext
    simpa [joinExtensions, hqos, hext] using hlast
  | true =>
    have hsame : { qos := msg.nextSn.qos, isQos := true : ConduitSnList } = msg.nextSn := by
      rw [← hqos]
    have hfirst : ∀ rest, msgExtDecodeIter (joinDecodeExt fragmentation) base
        ((0x51 ||| flagIf (fragmentation && msg.patch != noPatch) 0x80) ::
          (sliceEncode (conduitSnsEncode msg.nextSn.qos.toList) ++ rest)) =
        if fragmentation && msg.patch != noPatch then
          msgExtDecodeIter (joinDecodeExt fragmentation) { base with nextSn := msg.nextSn } rest
        else .ok ({ base with nextSn := msg.nextSn }, rest) := by
      intro rest
      have htaken := joinDecodeExt_qos fragmentation msg.nextSn.qos base
      rw [hsame] at htaken
      exact msgExtDecodeIter_of_ok (msgExtDecode_joinQos _ hlen rest) htaken
    simp only [joinExtensions, hqos, if_true, cons_append, append_assoc]
    rw [hfirst]
    cases hhas : fragmentation && msg.patch != noPatch with
    | false => simp
    | true => simpa [hhas] using hpatch { base with nextSn := msg.nextSn } hhas

/-- The numbers that a list holds: behind a plain pair there are none. -/
def ConduitSnList.active (sns : ConduitSnList) : ConduitSnList :=
  if sns.isQos then sns else ConduitSnList.ofPlain sns.plain

/-- A JOIN whose header carries the Z flag exactly when an extension is written is read back as
its header says. -/
theorem joinDecode_encode {bytes : List UInt8}
    (henc : joinEncode fragmentation header msg = .ok bytes) (hflag : hasFlag header 0x80 =
      (msg.nextSn.isQos || (fragmentation && msg.patch != noPatch))) (hzid : 0 < idLen msg.zid)
    (hwhatami : msg.whatami ≠ .reserved) (zbf : List UInt8) :
    joinDecode fragmentation header (bytes ++ zbf) = .ok ({ joinRead header msg with
        nextSn := ConduitSnList.active msg.nextSn
        patch := if fragmentation then msg.patch else noPatch }, zbf) := by
  rw [joinEncode_eq fragmentation header msg hflag] at henc
  cases henc
  rw [append_assoc, joinDecode_fields fragmentation header hzid hwhatami]
  have hnone : (fragmentation && msg.patch != noPatch) = false →
      (if fragmentation then msg.patch else noPatch) = noPatch := by
    cases fragmentation <;> simp
  cases hext : hasFlag header 0x80 with
  | false =>
    rw [hext] at hflag
    obtain ⟨hqos, hpatch⟩ := Bool.or_eq_false_iff.mp hflag.symm
    simp [joinExtensions, hqos, hpatch, hnone hpatch, joinRead, ConduitSnList.active]
  | true =>
    rw [hext] at hflag
    rw [if_pos rfl, joinExtensions_decode (joinRead header msg) hflag.symm]
    have hpatch : (if fragmentation && msg.patch != noPatch then msg.patch else noPatch) =
        if fragmentation then msg.patch else noPatch := by
      cases hhas : fragmentation && msg.patch != noPatch with
      | false => exact (hnone hhas).symm
      | true =>
        obtain ⟨rfl, -⟩ := Bool.and_eq_true_iff.mp hhas
        rfl
    rw [← hpatch]
    rfl

/-! ### Reading a fragment back -/

theorem msgExtDecode_marker {marker : UInt8} (hmarker : marker = 0x02 ∨ marker = 0x03)
    (more : Bool) (zbf : List UInt8) : msgExtDecode ((marker ||| flagIf more 0x80) :: zbf) =
      .ok (({ header := marker, body := .unit }, more), zbf) := by
  rcases hmarker with rfl | rfl <;> cases more <;> rfl

theorem fragmentDecode_encode (header : UInt8) (msg : TMsgFragment)
    (hflag : hasFlag header 0x80 = (msg.first || msg.drop)) :
    ∃ bytes, fragmentEncode header msg = .ok bytes ∧
      fragmentDecode header bytes = .ok (msg, []) := by
  have henc : fragmentEncode header msg = .ok (zint64Encode msg.sn ++
      (if msg.first then [0x02 ||| flagIf msg.drop 0x80] else []) ++
      (if msg.drop then [0x03] else []) ++ msg.payload) := by
    rw [fragmentEncode, hflag, Bool.and_not_self]
    rfl
  refine ⟨_, henc, ?_⟩
  rcases msg with ⟨sn, payload, first, drop⟩
  have hmarkers : fragmentMarkersDecode header ⟨sn, [], false, false⟩
      ((if first then [0x02 ||| flagIf drop 0x80] else []) ++
        ((if drop then [0x03] else []) ++ payload)) = .ok (⟨sn, [], first, drop⟩, payload) := by
    simp only at hflag
    rw [fragmentMarkersDecode, hflag]
    -- a marker is read as the field that it stands for
    have hlast : ∀ first, msgExtDecodeIter fragmentDecodeExt ⟨sn, [], first, false⟩
        (0x03 :: payload) = .ok (⟨sn, [], first, true⟩, payload) := fun first ↦
      msgExtDecodeIter_of_ok (msgExtDecode_marker (.inr rfl) false payload) rfl
    cases first with
    | false => cases drop with
      | false => rfl
      | true => exact hlast false
    | true => cases drop with
      | false => exact msgExtDecodeIter_of_ok (msgExtDecode_marker (.inl rfl) false payload) rfl
      | true =>
        exact (msgExtDecodeIter_of_ok (msgExtDecode_marker (.inl rfl) true _) rfl).trans
          (hlast true)
  rw [append_assoc, append_assoc, fragmentDecode,
    Decoder.bind_of_ok (zint64Decode_encode _ _), Decoder.bind_of_ok hmarkers]
  rfl

/-! ### Whole messages -/

/-- The message as it is received: only the numbers that the list of a JOIN holds are sent. -/
def received (msg : TransportMessage) : TransportMessage where
  header := msg.header
  body := match msg.body with
    | .join body => .join { body with nextSn := ConduitSnList.active body.nextSn }
    | body => body

/-- What is left in the buffer: the payload of a FRAME is read by its handler. -/
def unread (msg : TransportMessage) : List UInt8 :=
  match msg.body with
  | .frame body => body.payload
  | _ => []

/-- The message is read back from what is written of it. -/
def RoundTrips (fragmentation : Bool) (msg : TransportMessage) : Prop :=
  ∃ bytes, transportMessageEncode fragmentation msg = .ok bytes ∧
    transportMessageDecode fragmentation bytes = .ok (received msg, unread msg)

theorem transportMessageDecode_join (hmid : mid header = 0x07) (fragmentation : Bool)
    {zbf rest : List UInt8} (h : joinDecode fragmentation header zbf = .ok (msg, rest)) :
    transportMessageDecode fragmentation (header :: zbf) =
      .ok ({ header, body := .join msg }, rest) := by
  rw [transportMessageDecode, Decoder.bind_of_ok (uint8Decode_cons _ _), hmid]
  exact Decoder.bind_of_ok h _

theorem roundTrips_of_body {msg : TransportMessage} (body : List UInt8)
    (henc : transportMessageEncode fragmentation msg = .ok (msg.header :: body))
    (hdec : transportMessageDecode fragmentation (msg.header :: body) =
      .ok (received msg, unread msg)) : RoundTrips fragmentation msg :=
  ⟨_, henc, hdec⟩

/-- A lease that is a number of seconds is sent as one. -/
theorem lease_of_seconds (lease : UInt64) :
    (if (lease % 1000 == 0) = true then lease / 1000 * 1000 else lease) = lease := by
  split
  · next hzero =>
    have hmod : lease.toNat % 1000 = 0 := by
      have hcast := congrArg UInt64.toNat (beq_iff_eq.mp hzero)
      simpa using hcast
    apply UInt64.toNat_inj.mp
    have hlt := lease.toNat_lt
    rw [UInt64.toNat_mul, UInt64.toNat_div]
    simp only [UInt64.reduceToNat]
    omega
  · rfl

/-- A build announces that it has a patch version where it has one to send. -/
theorem announces_patch (fragmentation : Bool) :
    (fragmentation && (Protocol.currentPatch != noPatch)) = (fragmentation &&
        ((if fragmentation then Protocol.currentPatch else noPatch) != noPatch)) := by
  cases fragmentation <;> rfl

theorem initSyn_flags (sizes ext : Bool) :
    let header : UInt8 := 0x01 ||| flagIf sizes 0x40 ||| flagIf ext 0x80
    mid header = 0x01 ∧ hasFlag header 0x20 = false ∧ hasFlag header 0x40 = sizes ∧
      hasFlag header 0x80 = ext := by
  cases sizes <;> cases ext <;> decide

theorem initAck_flags (sizes ext : Bool) :
    let header : UInt8 := 0x01 ||| 0x20 ||| flagIf sizes 0x40 ||| flagIf ext 0x80
    mid header = 0x01 ∧ hasFlag header 0x20 = true ∧ hasFlag header 0x40 = sizes ∧
      hasFlag header 0x80 = ext := by
  cases sizes <;> cases ext <;> decide

theorem openSyn_flags (seconds : Bool) :
    let header : UInt8 := 0x02 ||| flagIf seconds 0x40
    mid header = 0x02 ∧ hasFlag header 0x20 = false ∧ hasFlag header 0x40 = seconds ∧
      hasFlag header 0x80 = false := by
  cases seconds <;> decide

theorem openAck_flags (seconds : Bool) :
    let header : UInt8 := 0x02 ||| 0x20 ||| flagIf seconds 0x40
    mid header = 0x02 ∧ hasFlag header 0x20 = true ∧ hasFlag header 0x40 = seconds ∧
      hasFlag header 0x80 = false := by
  cases seconds <;> decide

theorem join_flags (seconds sizes ext : Bool) :
    let header : UInt8 := 0x07 ||| flagIf seconds 0x20 ||| flagIf sizes 0x40 ||| flagIf ext 0x80
    mid header = 0x07 ∧ hasFlag header 0x20 = seconds ∧ hasFlag header 0x40 = sizes ∧
      hasFlag header 0x80 = ext := by
  cases seconds <;> cases sizes <;> cases ext <;> decide

theorem fragment_flags (more reliable markers : Bool) :
    let header : UInt8 :=
      0x06 ||| flagIf more 0x40 ||| flagIf reliable 0x20 ||| flagIf markers 0x80
    mid header = 0x06 ∧ hasFlag header 0x80 = markers := by
  cases more <;> cases reliable <;> cases markers <;> decide

theorem and_three_of_le {res : UInt8} (h : res ≤ 0x03) : res &&& 0x03 = res := by
  apply UInt8.toNat_inj.mp
  have hle : res.toNat ≤ 3 := UInt8.le_iff_toNat_le.mp h
  have hand : res.toNat &&& (0x03 : UInt8).toNat = res.toNat % 2 ^ 2 :=
    Nat.and_two_pow_sub_one_eq_mod res.toNat 2
  rw [UInt8.toNat_and, hand]
  exact Nat.mod_eq_of_lt (by omega)

/-- A build that does not announce its sizes has the default ones. -/
theorem sizes_of_not_announced {cfg : BuildConfig} (h : cfg.announcesSizes = false) :
    cfg.batchUnicastSize = defaultUnicastBatchSize ∧ cfg.snResolution = defaultResolutionSize ∧
      cfg.reqResolution = defaultResolutionSize := by
  simpa [BuildConfig.announcesSizes, Bool.or_eq_false_iff, and_assoc] using h

section Builds

variable (cfg : BuildConfig) (batchMulticastSize : UInt16)

/-- Sizes are read as they are, whether they are announced or the default ones. -/
theorem read_sizes (flag : Bool) {batchSize default : UInt16}
    (hdefault : flag = false → batchSize = default ∧ cfg.snResolution = defaultResolutionSize ∧
      cfg.reqResolution = defaultResolutionSize) :
    (if flag then cfg.snResolution &&& 0x03 else defaultResolutionSize) = cfg.snResolution ∧
      (if flag then cfg.reqResolution &&& 0x03 else defaultResolutionSize) = cfg.reqResolution ∧
      (if flag then batchSize else default) = batchSize := by
  cases flag with
  | true => exact ⟨and_three_of_le cfg.snResolution_le, and_three_of_le cfg.reqResolution_le, rfl⟩
  | false =>
    obtain ⟨hbatch, hsn, hreq⟩ := hdefault rfl
    exact ⟨hsn.symm, hreq.symm, hbatch.symm⟩

theorem joinRead_joinBody {lease : UInt64} (hseconds : hasFlag header 0x20 = (lease % 1000 == 0))
    (hsizes : hasFlag header 0x40 = (batchMulticastSize != defaultMulticastBatchSize ||
      cfg.snResolution != defaultResolutionSize || cfg.reqResolution != defaultResolutionSize))
    (whatami : WhatAmI) (zid : ZenohId) (nextSn : ConduitSnList) :
    joinRead header (joinBody cfg batchMulticastSize whatami lease zid nextSn) =
      { joinBody cfg batchMulticastSize whatami lease zid nextSn with
        nextSn := ConduitSnList.ofPlain nextSn.plain
        patch := noPatch } := by
  have hlease := lease_of_seconds lease
  rw [← hseconds] at hlease
  obtain ⟨hsn, hreq, hbatch⟩ := read_sizes cfg (hasFlag header 0x40) fun hannounced ↦ by
    -- sizes that are not announced are the default ones
    rw [hsizes] at hannounced
    simp only [Bool.or_eq_false_iff, bne_eq_false_iff_eq] at hannounced
    exact ⟨hannounced.1.1, hannounced.1.2, hannounced.2⟩
  dsimp only [joinRead, joinBody]
  rw [hlease, hsn, hreq, hbatch]

variable {whatami : WhatAmI}

theorem makeJoin_roundTrips (lease : UInt64) {zid : ZenohId} (nextSn : ConduitSnList)
    (hwhatami : whatami ≠ .reserved) (hzid : 0 < idLen zid) : RoundTrips cfg.fragmentation
      (makeJoin cfg batchMulticastSize whatami lease zid nextSn) := by
  obtain ⟨hmid, hseconds, hsizes, hext⟩ := join_flags (lease % 1000 == 0) (batchMulticastSize !=
    defaultMulticastBatchSize || cfg.snResolution != defaultResolutionSize ||
      cfg.reqResolution != defaultResolutionSize)
    (nextSn.isQos || (cfg.fragmentation && (Protocol.currentPatch != noPatch)))
  replace hext := hext.trans (congrArg (nextSn.isQos || ·) (announces_patch cfg.fragmentation))
  have henc := joinEncode_eq cfg.fragmentation _
    (joinBody cfg batchMulticastSize whatami lease zid nextSn) hext
  have hdec := joinDecode_encode henc hext hzid hwhatami []
  have hpatch : (if cfg.fragmentation then
      (joinBody cfg batchMulticastSize whatami lease zid nextSn).patch else noPatch) =
      (joinBody cfg batchMulticastSize whatami lease zid nextSn).patch := by
    simp only [joinBody]
    split <;> rfl
  rw [append_nil, joinRead_joinBody cfg batchMulticastSize hseconds hsizes, hpatch] at hdec
  refine roundTrips_of_body _ ?_ (transportMessageDecode_join hmid _ hdec)
  simp only [makeJoin, transportMessageEncode]
  rw [henc]
  rfl

variable {cookie : List UInt8}

/-- An INIT is received as it was made. -/
theorem received_initBody {header : UInt8} {cookie : List UInt8}
    (hcookie : hasFlag header 0x20 = false → cookie = [])
    (hsizes : hasFlag header 0x40 = cfg.announcesSizes)
    (hext : hasFlag header 0x80 = (cfg.fragmentation && (Protocol.currentPatch != noPatch)))
    (whatami : WhatAmI) (zid : ZenohId) :
    (initBody cfg whatami zid cookie).received cfg.fragmentation header =
      initBody cfg whatami zid cookie := by
  obtain ⟨hsn, hreq, hbatch⟩ := read_sizes cfg (hasFlag header 0x40) fun hannounced ↦
    sizes_of_not_announced (hsizes ▸ hannounced)
  have hread : (if hasFlag header 0x20 then cookie else []) = cookie := by
    split
    · rfl
    · next hnone => exact (hcookie (Bool.not_eq_true _ ▸ hnone)).symm
  have hpatch : (if cfg.fragmentation && hasFlag header 0x80 then
      (initBody cfg whatami zid cookie).patch else noPatch) =
      (initBody cfg whatami zid cookie).patch := by
    rw [hext]
    simp only [initBody]
    cases cfg.fragmentation <;> rfl
  dsimp only [TMsgInit.received]
  rw [hpatch]
  dsimp only [initBody]
  rw [hsn, hreq, hbatch, hread]

/-- An INIT with the flags of its constructor goes through. -/
theorem init_roundTrips {msg : TransportMessage} {zid : ZenohId}
    (hbody : msg.body = .init (initBody cfg whatami zid cookie)) (hmid : mid msg.header = 0x01)
    (hcookie : hasFlag msg.header 0x20 = false → cookie = [])
    (hsizes : hasFlag msg.header 0x40 = cfg.announcesSizes) (hext : hasFlag msg.header 0x80 =
      (cfg.fragmentation && (Protocol.currentPatch != noPatch))) (hwhatami : whatami ≠ .reserved)
    (hzid : 0 < idLen zid) (hlen : cookie.length < 2 ^ 64) : RoundTrips cfg.fragmentation msg := by
  obtain ⟨header, body⟩ := msg
  obtain rfl := hbody
  have hflag := hext.trans (announces_patch cfg.fragmentation)
  obtain ⟨bytes, henc⟩ : ∃ bytes,
      initEncode cfg.fragmentation header (initBody cfg whatami zid cookie) = .ok bytes := by
    have hpatch : ∃ ext, patchEncode cfg.fragmentation header
        (initBody cfg whatami zid cookie).patch = .ok ext := by
      rw [patchEncode]
      split
      · next hhas => exact ⟨_, if_pos (hflag.trans hhas)⟩
      · exact ⟨[], rfl⟩
    obtain ⟨ext, hpatch⟩ := hpatch
    rw [initEncode, hpatch]
    exact ⟨_, rfl⟩
  have hdec := initDecode_encode henc hflag hzid hwhatami hlen cfg.fragmentation []
  rw [append_nil, received_initBody cfg hcookie hsizes hext] at hdec
  refine roundTrips_of_body _ ?_ (transportMessageDecode_init hmid _ hdec)
  simp only [transportMessageEncode]
  rw [henc]
  rfl

/-- An OPEN whose lease is in seconds where the header says so goes through. -/
theorem open_roundTrips (fragmentation : Bool) {msg : TransportMessage} {lease initialSn : UInt64}
    (hbody : msg.body = .opening { lease, initialSn, cookie }) (hmid : mid msg.header = 0x02)
    (hcookie : hasFlag msg.header 0x20 = true → cookie = [])
    (hseconds : hasFlag msg.header 0x40 = (lease % 1000 == 0))
    (hext : hasFlag msg.header 0x80 = false) (hlen : cookie.length < 2 ^ 64) :
    RoundTrips fragmentation msg := by
  obtain ⟨header, body⟩ := msg
  obtain rfl := hbody
  have hdec : openDecode header (openEncode header { lease, initialSn, cookie } ++ []) =
      .ok (TMsgOpen.received header { lease, initialSn, cookie }, []) :=
    openDecode_encode hext hlen []
  have hread : TMsgOpen.received header { lease, initialSn, cookie } =
      { lease, initialSn, cookie } := by
    have hlease := lease_of_seconds lease
    rw [← hseconds] at hlease
    have hsame : (if hasFlag header 0x20 then [] else cookie) = cookie := by
      split
      · next hack => exact (hcookie hack).symm
      · rfl
    dsimp only [TMsgOpen.received]
    rw [hlease, hsame]
  rw [append_nil, hread] at hdec
  exact roundTrips_of_body _ rfl (transportMessageDecode_opening hmid _ hdec)

theorem makeClose_roundTrips (fragmentation : Bool) (reason : UInt8) (linkOnly : Bool) :
    RoundTrips fragmentation (makeClose reason linkOnly) := by
  have hmid : mid (0x03 ||| flagIf (!linkOnly) 0x20) = 0x03 := by cases linkOnly <;> decide
  refine ⟨_, rfl, ?_⟩
  rw [transportMessageDecode, Decoder.bind_of_ok (uint8Decode_cons _ _), makeClose, hmid]
  rfl

theorem makeKeepAlive_roundTrips (fragmentation : Bool) :
    RoundTrips fragmentation makeKeepAlive := ⟨_, rfl, rfl⟩

/-- The payload of a frame is what is left in the buffer. -/
theorem makeFrame_roundTrips (fragmentation : Bool) (sn : UInt64) (payload : List UInt8)
    (reliability : Reliability) : RoundTrips fragmentation (makeFrame sn payload reliability) := by
  obtain ⟨hmid, hext⟩ : mid (0x05 ||| flagIf (reliability == .reliable) 0x20) = 0x05 ∧
      hasFlag (0x05 ||| flagIf (reliability == .reliable) 0x20) 0x80 = false := by
    cases reliability <;> exact ⟨by decide, by decide⟩
  have henc : frameEncode (0x05 ||| flagIf (reliability == .reliable) 0x20) { sn, payload } =
      .ok (zint64Encode sn ++ payload) := by
    rw [frameEncode, hext]
    rfl
  have hskip : extensionsDecode (0x05 ||| flagIf (reliability == .reliable) 0x20) payload =
      .ok ((), payload) := by
    rw [extensionsDecode, hext]
    rfl
  refine roundTrips_of_body (zint64Encode sn ++ payload) ?_ ?_
  · simp only [transportMessageEncode, makeFrame]
    rw [henc]
    rfl
  · rw [transportMessageDecode, Decoder.bind_of_ok (uint8Decode_cons _ _), makeFrame, hmid]
    have hdec : frameDecode (0x05 ||| flagIf (reliability == .reliable) 0x20)
        (zint64Encode sn ++ payload) = .ok ({ sn, payload }, payload) := by
      rw [frameDecode, Decoder.bind_of_ok (zint64Decode_encode _ _), Decoder.bind_of_ok hskip]
      rfl
    exact Decoder.bind_of_ok hdec _

theorem makeFragment_roundTrips (fragmentation : Bool) (sn : UInt64) (payload : List UInt8)
    (reliability : Reliability) (isLast first drop : Bool) :
    RoundTrips fragmentation (makeFragment sn payload reliability isLast first drop) := by
  obtain ⟨hmid, hext⟩ := fragment_flags (!isLast) (reliability == .reliable) (first || drop)
  obtain ⟨bytes, henc, hdec⟩ := fragmentDecode_encode _ { sn, payload, first, drop } hext
  refine roundTrips_of_body bytes ?_ ?_
  · simp only [transportMessageEncode, makeFragment]
    rw [henc]
    rfl
  · rw [transportMessageDecode, Decoder.bind_of_ok (uint8Decode_cons _ _), makeFragment, hmid]
    exact Decoder.bind_of_ok hdec _

end Builds

/-- Whatever a constructor makes is read back from what is written of it, and nothing else is
left of it than the payload of a FRAME. -/
theorem made_roundTrips (cfg : BuildConfig) (batchMulticastSize : UInt16)
    {msg : TransportMessage} (h : Made cfg batchMulticastSize msg) :
    RoundTrips cfg.fragmentation msg := by
  cases h with
  | join whatami lease zid nextSn hwhatami hzid =>
    exact makeJoin_roundTrips cfg batchMulticastSize lease nextSn hwhatami hzid
  | initSyn whatami zid hwhatami hzid =>
    obtain ⟨hmid, -, hsizes, hext⟩ := initSyn_flags cfg.announcesSizes
      (cfg.fragmentation && (Protocol.currentPatch != noPatch))
    exact init_roundTrips cfg rfl hmid (fun _ ↦ rfl) hsizes hext hwhatami hzid (by decide)
  | initAck whatami zid cookie hwhatami hzid hcookie =>
    obtain ⟨hmid, hack, hsizes, hext⟩ := initAck_flags cfg.announcesSizes
      (cfg.fragmentation && (Protocol.currentPatch != noPatch))
    exact init_roundTrips cfg rfl hmid (fun hnone ↦ absurd (hack.symm.trans hnone) (by decide))
      hsizes hext hwhatami hzid hcookie
  | openSyn lease initialSn cookie hcookie =>
    obtain ⟨hmid, hack, hseconds, hext⟩ := openSyn_flags (lease % 1000 == 0)
    exact open_roundTrips cfg.fragmentation rfl hmid
      (fun htrue ↦ absurd (hack.symm.trans htrue) (by decide)) hseconds hext hcookie
  | openAck lease initialSn =>
    obtain ⟨hmid, -, hseconds, hext⟩ := openAck_flags (lease % 1000 == 0)
    exact open_roundTrips cfg.fragmentation rfl hmid (fun _ ↦ rfl) hseconds hext (by decide)
  | close reason linkOnly => exact makeClose_roundTrips cfg.fragmentation reason linkOnly
  | keepAlive => exact makeKeepAlive_roundTrips cfg.fragmentation
  | frame sn payload reliability =>
    exact makeFrame_roundTrips cfg.fragmentation sn payload reliability
  | frameHeader sn reliability => exact makeFrame_roundTrips cfg.fragmentation sn [] reliability
  | fragment sn payload reliability isLast first drop =>
    exact makeFragment_roundTrips cfg.fragmentation sn payload reliability isLast first drop
  | fragmentHeader sn reliability isLast first drop =>
    exact makeFragment_roundTrips cfg.fragmentation sn [] reliability isLast first drop

theorem made_roundTrips_join :
    RoundTrips true (makeJoin ⟨9, 2, by decide, 1, by decide, 2048, 10000, true⟩ 8192 .peer 10000
      (.ofBytes [7]) ⟨Vector.replicate 8 ⟨3, 5⟩, true⟩) :=
  made_roundTrips ⟨9, 2, by decide, 1, by decide, 2048, 10000, true⟩ 8192
    (.join .peer 10000 (.ofBytes [7]) _ (by decide) (by decide))

/-- The payload of a frame is not consumed. -/
theorem frame_not_consumed :
    ¬ ∀ (cfg : BuildConfig) (batchMulticastSize : UInt16) (msg : TransportMessage),
      Made cfg batchMulticastSize msg →
      ∃ bytes, transportMessageEncode cfg.fragmentation msg = .ok bytes ∧
        transportMessageDecode cfg.fragmentation bytes = .ok (received msg, []) := by
  intro h
  obtain ⟨bytes, henc, hdec⟩ := h ⟨9, 2, by decide, 2, by decide, 2048, 10000, true⟩ 8192 _
    (.frame 0 [1] .reliable)
  obtain ⟨bytes', henc', hdec'⟩ := makeFrame_roundTrips true 0 [1] .reliable
  have hsame : bytes = bytes' := Except.ok.inj (henc.symm.trans henc')
  have hboth := hdec.symm.trans (hsame ▸ hdec')
  exact cons_ne_nil 1 [] (Prod.mk.inj (Except.ok.inj hboth)).2.symm

end ZenohPico.Transport
