import ZenohPico.Protocol.Codec

/-!
The transport messages (`include/zenoh-pico/protocol/definitions/transport.h`), their
constructors (`src/protocol/definitions/transport.c`) and their codec
(`src/protocol/codec/transport.c`).

The build's `Z_FEATURE_FRAGMENTATION` decides whether INIT and JOIN carry a patch version; it
is the argument `fragmentation` of the functions that depend on it, and a message of a build
without it has the patch version `_Z_NO_PATCH`.
-/

namespace ZenohPico.Protocol

/-! ### Identifiers and roles -/

/-- `_z_id_t` -/
structure ZenohId where
  id : List UInt8
  length_id : id.length = 16
deriving DecidableEq, Repr

/-- `_z_id_empty` with the first bytes overwritten -/
def ZenohId.ofBytes (bytes : List UInt8) : ZenohId where
  id := (bytes ++ List.replicate 16 0).take 16
  length_id := by simp

/-- The loop of `_z_id_len`, below the position `len`. -/
def idLenFrom (id : List UInt8) : ℕ → ℕ
  | 0 => 0
  | len + 1 => if id.getD len 0 ≠ 0 then len + 1 else idLenFrom id len

/-- `_z_id_len` -/
def idLen (zid : ZenohId) : ℕ := idLenFrom zid.id 16

/-- `z_whatami_t`, with the value of the reserved bit pattern -/
inductive WhatAmI
  | router
  | peer
  | client
  | reserved
deriving DecidableEq, Repr

/-- `_z_whatami_to_uint8` -/
def whatamiToUint8 : WhatAmI → UInt8
  | .router => 0
  | .peer => 1
  | .client => 2
  | .reserved => 0

/-- `_z_whatami_from_uint8` -/
def whatamiFromUint8 (b : UInt8) : WhatAmI :=
  if b &&& 0x03 = 0 then .router
  else if b &&& 0x03 = 1 then .peer
  else if b &&& 0x03 = 2 then .client
  else .reserved

/-! ### Messages -/

/-- `_Z_NO_PATCH` -/
def noPatch : UInt8 := 0x00

/-- `_Z_CURRENT_PATCH` -/
def currentPatch : UInt8 := 0x01

/-- `_z_coundit_sn_t` -/
structure ConduitSn where
  reliable : UInt64
  bestEffort : UInt64
deriving DecidableEq, Repr

/-- `_z_conduit_sn_list_t`: the plain pair of numbers lies over the first of the QoS pairs. -/
structure ConduitSnList where
  qos : Vector ConduitSn 8
  isQos : Bool
deriving DecidableEq, Repr

/-- The `_plain` member of the union -/
def ConduitSnList.plain (sns : ConduitSnList) : ConduitSn := sns.qos[0]

/-- A list of which only the plain pair was written -/
def ConduitSnList.ofPlain (sn : ConduitSn) : ConduitSnList where
  qos := (Vector.replicate 8 ⟨0, 0⟩).set 0 sn
  isQos := false

/-- `_z_t_msg_join_t` -/
structure TMsgJoin where
  zid : ZenohId
  lease : UInt64
  nextSn : ConduitSnList
  batchSize : UInt16
  whatami : WhatAmI
  reqIdRes : UInt8
  seqNumRes : UInt8
  version : UInt8
  patch : UInt8
deriving DecidableEq, Repr

/-- `_z_t_msg_init_t` -/
structure TMsgInit where
  zid : ZenohId
  cookie : List UInt8
  batchSize : UInt16
  whatami : WhatAmI
  reqIdRes : UInt8
  seqNumRes : UInt8
  version : UInt8
  patch : UInt8
deriving DecidableEq, Repr

/-- `_z_t_msg_open_t` -/
structure TMsgOpen where
  lease : UInt64
  initialSn : UInt64
  cookie : List UInt8
deriving DecidableEq, Repr

/-- `_z_t_msg_close_t` -/
structure TMsgClose where
  reason : UInt8
deriving DecidableEq, Repr

/-- `_z_t_msg_frame_t` -/
structure TMsgFrame where
  sn : UInt64
  payload : List UInt8
deriving DecidableEq, Repr

/-- `_z_t_msg_fragment_t` -/
structure TMsgFragment where
  sn : UInt64
  payload : List UInt8
  first : Bool
  drop : Bool
deriving DecidableEq, Repr

/-- The union `_z_transport_body_t`, by the member that was written -/
inductive TransportBody
  | join (msg : TMsgJoin)
  | init (msg : TMsgInit)
  | opening (msg : TMsgOpen)
  | close (msg : TMsgClose)
  | keepAlive
  | frame (msg : TMsgFrame)
  | fragment (msg : TMsgFragment)
deriving DecidableEq, Repr

/-- `_z_transport_message_t` -/
structure TransportMessage where
  header : UInt8
  body : TransportBody
deriving DecidableEq, Repr

/-- `_Z_MID` -/
def mid (header : UInt8) : UInt8 := header &&& 0x1F

/-- The build's `Z_PROTO_VERSION`, `Z_SN_RESOLUTION`, `Z_REQ_RESOLUTION`,
`Z_BATCH_UNICAST_SIZE`, `Z_TRANSPORT_LEASE` and `Z_FEATURE_FRAGMENTATION`. The valid
resolutions are the four values of two bits. -/
structure BuildConfig where
  protoVersion : UInt8
  snResolution : UInt8
  snResolution_le : snResolution ≤ 0x03
  reqResolution : UInt8
  reqResolution_le : reqResolution ≤ 0x03
  batchUnicastSize : UInt16
  transportLease : UInt64
  fragmentation : Bool
deriving DecidableEq, Repr

/-- `_Z_DEFAULT_RESOLUTION_SIZE` -/
def defaultResolutionSize : UInt8 := 2

/-- `_Z_DEFAULT_UNICAST_BATCH_SIZE` -/
def defaultUnicastBatchSize : UInt16 := 65535

/-- `_Z_DEFAULT_MULTICAST_BATCH_SIZE` -/
def defaultMulticastBatchSize : UInt16 := 8192

/-- The sizes of the build are not the ones a message without the S flag stands for. -/
def BuildConfig.announcesSizes (cfg : BuildConfig) : Bool :=
  cfg.batchUnicastSize != defaultUnicastBatchSize || cfg.snResolution != defaultResolutionSize ||
    cfg.reqResolution != defaultResolutionSize

/-- A flag when a condition holds. -/
def flagIf (condition : Bool) (flag : UInt8) : UInt8 := if condition then flag else 0

/-- The body of `_z_t_msg_make_init_syn` and `_z_t_msg_make_init_ack` -/
def initBody (cfg : BuildConfig) (whatami : WhatAmI) (zid : ZenohId) (cookie : List UInt8) :
    TMsgInit where
  zid := zid
  cookie := cookie
  batchSize := cfg.batchUnicastSize
  whatami := whatami
  reqIdRes := cfg.reqResolution
  seqNumRes := cfg.snResolution
  version := cfg.protoVersion
  patch := if cfg.fragmentation then currentPatch else noPatch

/-- `_z_t_msg_make_init_syn` -/
def makeInitSyn (cfg : BuildConfig) (whatami : WhatAmI) (zid : ZenohId) : TransportMessage where
  header := 0x01 ||| flagIf cfg.announcesSizes 0x40 |||
    flagIf (cfg.fragmentation && (currentPatch != noPatch)) 0x80
  body := .init (initBody cfg whatami zid [])

/-- `_z_t_msg_make_init_ack` -/
def makeInitAck (cfg : BuildConfig) (whatami : WhatAmI) (zid : ZenohId) (cookie : List UInt8) :
    TransportMessage where
  header := 0x01 ||| 0x20 ||| flagIf cfg.announcesSizes 0x40 |||
    flagIf (cfg.fragmentation && (currentPatch != noPatch)) 0x80
  body := .init (initBody cfg whatami zid cookie)

/-- `_z_t_msg_make_open_syn` -/
def makeOpenSyn (lease initialSn : UInt64) (cookie : List UInt8) : TransportMessage where
  header := 0x02 ||| flagIf (lease % 1000 == 0) 0x40
  body := .opening { lease := lease, initialSn := initialSn, cookie := cookie }

/-- `_z_t_msg_make_open_ack` -/
def makeOpenAck (lease initialSn : UInt64) : TransportMessage where
  header := 0x02 ||| 0x20 ||| flagIf (lease % 1000 == 0) 0x40
  body := .opening { lease := lease, initialSn := initialSn, cookie := [] }

end ZenohPico.Protocol
