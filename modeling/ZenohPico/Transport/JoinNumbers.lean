import ZenohPico.Transport.Receive
import ZenohPico.Protocol.TransportMessage

/-!
The sequence numbers of a JOIN (`src/transport/utils.c`, `src/transport/multicast/rx.c`).

A JOIN announces the next number of each channel, as one pair or, with QoS, as eight. The peer
keeps the whole list, lowered by one, and the handler of frames compares every frame with the plain
pair, which lies over the first of the eight. In the QoS layout the best-effort number is lowered
twice, the second time from the reliable one, and the reliable number stays as announced.

`multicastHandleJoinInner_plain` ties the handler of this file to the one for plain lists;
`join_expects_iff` says for each announced channel whether the peer then expects its number.
-/

namespace ZenohPico.Transport

open Protocol

/-! ### The lists -/

/-- The place of the plain pair -/
theorem plain_index : 0 < 8 := by decide

/-- `_z_conduit_sn_list_copy`: of a plain list only the pair is copied. -/
def conduitSnListCopy (dst src : ConduitSnList) : ConduitSnList :=
  if src.isQos = false then { isQos := src.isQos, qos := dst.qos.set 0 src.plain plain_index }
  else { isQos := src.isQos, qos := src.qos }

/-- One pass of the loop over the priorities in `_z_conduit_sn_list_decrement`: both assignments
are to `_best_effort`. -/
def conduitSnDecrement (snResolution : UInt64) (sn : ConduitSn) : ConduitSn :=
  let sn := { sn with bestEffort := snDecrement snResolution sn.bestEffort }
  { sn with bestEffort := snDecrement snResolution sn.reliable }

/-- `_z_conduit_sn_list_decrement` -/
def conduitSnListDecrement (snResolution : UInt64) (sns : ConduitSnList) : ConduitSnList :=
  if sns.isQos = false then
    { isQos := sns.isQos
      qos := sns.qos.set 0 ⟨snDecrement snResolution sns.plain.reliable,
        snDecrement snResolution sns.plain.bestEffort⟩ plain_index }
  else { isQos := sns.isQos, qos := sns.qos.map (conduitSnDecrement snResolution) }

/-- The plain pair after a JOIN -/
theorem plain_decrement_copy (snResolution : UInt64) (dst src : ConduitSnList) :
    (conduitSnListDecrement snResolution (conduitSnListCopy dst src)).plain =
      if src.isQos = false then
        ⟨snDecrement snResolution src.plain.reliable, snDecrement snResolution src.plain.bestEffort⟩
      else ⟨src.plain.reliable, snDecrement snResolution src.plain.reliable⟩ := by
  cases hqos : src.isQos <;>
    simp [conduitSnListCopy, conduitSnListDecrement, conduitSnDecrement, ConduitSnList.plain, hqos]

/-! ### The handler of JOINs -/

variable {reorderWindow : ℕ}

/-- `_z_transport_peer_multicast_t` as far as reception goes: the handlers of frames and fragments
read the plain pair of its list. -/
structure MulticastEntry (reorderWindow : ℕ) where
  peer : Peer reorderWindow
  snRxSns : ConduitSnList
  reliable_eq : peer.reliable.snRx = snRxSns.plain.reliable
  bestEffort_eq : peer.bestEffort.snRx = snRxSns.plain.bestEffort

/-- What the handler of plain lists reads of a JOIN -/
def joinOf (msg : TMsgJoin) : Join where
  version := msg.version.toNat
  seqNumRes := msg.seqNumRes.toNat
  reqIdRes := msg.reqIdRes.toNat
  batchSize := msg.batchSize.toNat
  nextSnReliable := msg.nextSn.plain.reliable
  nextSnBestEffort := msg.nextSn.plain.bestEffort
  patch := msg.patch.toNat

/-- An entry that has just been pushed -/
def emptySnList : ConduitSnList := .ofPlain ⟨0, 0⟩

/-- The entry of a new peer -/
def MulticastEntry.new (reorderWindow : ℕ) (sns : ConduitSnList) (patch : ℕ) :
    MulticastEntry reorderWindow where
  peer := Peer.fresh reorderWindow sns.plain.reliable sns.plain.bestEffort patch
  snRxSns := sns
  reliable_eq := rfl
  bestEffort_eq := rfl

/-- `Update SNs` -/
def MulticastEntry.update (entry : MulticastEntry reorderWindow) (sns : ConduitSnList) :
    MulticastEntry reorderWindow where
  peer :=
    { entry.peer with
      reliable := { entry.peer.reliable with snRx := sns.plain.reliable }
      bestEffort := { entry.peer.bestEffort with snRx := sns.plain.bestEffort }
      bestEffortWindow := SnWindow.reset reorderWindow sns.plain.bestEffort }
  snRxSns := sns
  reliable_eq := rfl
  bestEffort_eq := rfl

/-- `_z_multicast_handle_join_inner`, with the whole list of numbers -/
def multicastHandleJoinInner (cfg : JoinConfig) (msg : TMsgJoin) :
    Option (MulticastEntry reorderWindow) → Option (MulticastEntry reorderWindow)
  | entry =>
    if msg.version.toNat ≠ cfg.protoVersion then entry
    else
      match entry with
      | none =>
        if (joinOf msg).Compatible cfg then
          some (.new reorderWindow
            (conduitSnListDecrement (snMax msg.seqNumRes.toNat)
              (conduitSnListCopy emptySnList msg.nextSn))
            (if msg.patch.toNat < currentPatch then msg.patch.toNat else currentPatch))
        else none
      | some entry =>
        if (joinOf msg).Compatible cfg then
          some (entry.update (conduitSnListDecrement (snMax cfg.snResolution)
            (conduitSnListCopy entry.snRxSns msg.nextSn)))
        else none

/-- A JOIN from a new peer is taken. -/
theorem multicastHandleJoinInner_none (reorderWindow : ℕ) {cfg : JoinConfig} {msg : TMsgJoin}
    (hversion : msg.version.toNat = cfg.protoVersion)
    (hcompatible : (joinOf msg).Compatible cfg) :
    ∃ after, multicastHandleJoinInner cfg msg (none : Option (MulticastEntry reorderWindow)) =
      some after := by
  unfold multicastHandleJoinInner
  rw [if_neg (not_not.mpr hversion)]
  exact ⟨_, if_pos hcompatible⟩

/-- The numbers of a peer whose JOIN was taken -/
theorem multicastHandleJoinInner_taken {cfg : JoinConfig} {msg : TMsgJoin}
    (hversion : msg.version.toNat = cfg.protoVersion) (hcompatible : (joinOf msg).Compatible cfg)
    {entry : Option (MulticastEntry reorderWindow)} {after : MulticastEntry reorderWindow}
    (hjoin : multicastHandleJoinInner cfg msg entry = some after) :
    ∃ dst, after.snRxSns = conduitSnListDecrement (snMax cfg.snResolution)
        (conduitSnListCopy dst msg.nextSn) ∧ after.peer.bestEffortWindow =
        SnWindow.reset reorderWindow after.snRxSns.plain.bestEffort := by
  unfold multicastHandleJoinInner at hjoin
  rw [if_neg (not_not.mpr hversion)] at hjoin
  have hresolution : msg.seqNumRes.toNat = cfg.snResolution := hcompatible.1
  cases entry with
  | none =>
    simp only [if_pos hcompatible, Option.some.injEq] at hjoin
    subst hjoin
    exact ⟨emptySnList, by rw [← hresolution]; rfl, rfl⟩
  | some entry =>
    simp only [if_pos hcompatible, Option.some.injEq] at hjoin
    subst hjoin
    exact ⟨entry.snRxSns, rfl, rfl⟩

/-! ### Numbers ahead of a number -/

section Numbers

variable {bits : ℕ}

/-- The number a few steps after `x` is ahead of `p` by these steps more. -/
theorem snPrecedes_snAt_add (h : IsResolution bits) (p x : UInt64) (k : ℤ) :
    snPrecedes (snMax bits) p (snAt bits (x.toNat + k)) = true ↔
      0 < (SerialNumber.distance (snRange bits) p.toNat x.toNat + k) % snRange bits ∧
        2 * ((SerialNumber.distance (snRange bits) p.toNat x.toNat + k) % snRange bits) <
          snRange bits := by
  have hdist : SerialNumber.distance (snRange bits) p.toNat (snAt bits (x.toNat + k)).toNat =
      (SerialNumber.distance (snRange bits) p.toNat x.toNat + k) % snRange bits := by
    unfold SerialNumber.distance
    rw [snAt_toNat h, Int.emod_sub_emod, Int.emod_add_emod]
    congr 1
    ring
  rw [snPrecedes_iff h, SerialNumber.Precedes, hdist]

/-- The numbers ahead of `s` are ahead of `p` only if the two are one number. -/
theorem snPrecedes_subset_iff (h : IsResolution bits) (s p : UInt64) :
    (∀ n, snPrecedes (snMax bits) s n = true → snPrecedes (snMax bits) p n = true) ↔
      s &&& snMax bits = p &&& snMax bits := by
  have hhalf := snHalf_toNat h
  have hrange := snRange_ge h
  have hpos : (0 : ℤ) < snRange bits := by omega
  have hself : SerialNumber.distance (snRange bits) s.toNat s.toNat = 0 := by
    rw [SerialNumber.distance_of_le le_rfl (by omega), sub_self]
  constructor
  · intro hall
    set d := SerialNumber.distance (snRange bits) p.toNat s.toNat with hd
    have hnonneg : 0 ≤ d := Int.emod_nonneg _ hpos.ne'
    have hlt : d < snRange bits := Int.emod_lt_of_pos _ hpos
    -- one step and half the range are ahead of `s`
    have hahead (k : ℤ) (hk : 0 < k) (hsmall : 2 * k < snRange bits) :
        0 < (d + k) % snRange bits ∧ 2 * ((d + k) % snRange bits) < snRange bits := by
      refine (snPrecedes_snAt_add h p s k).mp (hall _ ((snPrecedes_snAt_add h s s k).mpr ?_))
      rw [hself, zero_add, Int.emod_eq_of_lt (by omega) (by omega)]
      exact ⟨hk, hsmall⟩
    have hzero : d = 0 := by
      by_contra hne
      have hone := hahead 1 (by omega) (by omega)
      have hmost := hahead (snHalf (snMax bits)).toNat (by omega) (by omega)
      rcases lt_or_ge (d + (snHalf (snMax bits)).toNat) (snRange bits) with hsmall | hbig
      · rw [Int.emod_eq_of_lt (by omega) hsmall] at hmost
        omega
      · rcases eq_or_lt_of_le (Int.add_one_le_of_lt hlt) with hwrap | hsmall
        · rw [hwrap, Int.emod_self] at hone
          omega
        · rw [Int.emod_eq_of_lt (by omega) hsmall] at hone
          omega
    have hmod : (s.toNat : ℤ) % snRange bits = (p.toNat : ℤ) % snRange bits := by
      rw [Int.emod_eq_emod_iff_emod_sub_eq_zero]
      exact hzero
    rw [← UInt64.toNat_inj, toNat_and_snMax h, toNat_and_snMax h]
    exact_mod_cast hmod
  · intro hsame n hn
    have hmod : (s.toNat : ℤ) % snRange bits = (p.toNat : ℤ) % snRange bits := by
      have hnat := congrArg UInt64.toNat hsame
      rw [toNat_and_snMax h, toNat_and_snMax h] at hnat
      exact_mod_cast hnat
    rw [snPrecedes_iff h] at hn ⊢
    unfold SerialNumber.Precedes at hn ⊢
    rw [← SerialNumber.distance_emod, hmod, SerialNumber.distance_emod] at hn
    exact hn

theorem snDecrement_and (snResolution x : UInt64) :
    snDecrement snResolution x &&& snResolution = snDecrement snResolution x := by
  unfold snDecrement
  rw [UInt64.and_assoc, UInt64.and_self]

theorem toNat_snDecrement (h : IsResolution bits) (x : UInt64) :
    ((snDecrement (snMax bits) x).toNat : ℤ) = (x.toNat - 1) % snRange bits :=
  masked_sub h 1 x

/-- A number is ahead of the one before it. -/
theorem snPrecedes_decrement (h : IsResolution bits) {s x : UInt64}
    (hs : s &&& snMax bits = snDecrement (snMax bits) x) : snPrecedes (snMax bits) s x = true := by
  have hrange := snRange_ge h
  have hnat := congrArg (fun n : UInt64 ↦ (n.toNat : ℤ)) hs
  simp only [toNat_and_snMax h, toNat_snDecrement h, Int.natCast_emod] at hnat
  have hdist : SerialNumber.distance (snRange bits) s.toNat x.toNat = 1 := by
    unfold SerialNumber.distance
    rw [Int.sub_emod, hnat, ← Int.sub_emod, sub_sub_cancel, Int.emod_eq_of_lt (by omega) (by omega)]
  rw [snPrecedes_iff h, SerialNumber.Precedes, hdist]
  omega

end Numbers

/-! ### Expecting a number -/

/-- A channel expects a number: a frame that carries it is accepted and becomes the last one, and
no frame is accepted whose number is not newer than the one before it. -/
structure Expects (cfg : RxConfig) (peer : Peer reorderWindow) (r : Reliability) (sn : UInt64) :
    Prop where
  next : ∀ payload, ∃ peer', multicastHandleFrame cfg ⟨r, sn, payload⟩ peer =
    (peer', some (.frame r sn payload)) ∧ (peer'.conduit r).snRx = sn
  older : ∀ old payload, snPrecedes cfg.snRes (snDecrement cfg.snRes sn) old = false →
    (multicastHandleFrame cfg ⟨r, old, payload⟩ peer).2 = none

section Expecting

variable {bits : ℕ} {cfg : RxConfig} {peer : Peer reorderWindow}

/-- Where the window is not in force, a frame is accepted when its number is ahead of the last
one. -/
theorem multicastHandleFrame_plain {r : Reliability}
    (hplain : r = .bestEffort → cfg.link.datagram = false) (sn : UInt64) (payload : List UInt8) :
    (snPrecedes cfg.snRes (peer.conduit r).snRx sn = true →
      ∃ peer', multicastHandleFrame cfg ⟨r, sn, payload⟩ peer =
        (peer', some (.frame r sn payload)) ∧ (peer'.conduit r).snRx = sn) ∧
      (snPrecedes cfg.snRes (peer.conduit r).snRx sn = false →
        (multicastHandleFrame cfg ⟨r, sn, payload⟩ peer).2 = none) := by
  unfold multicastHandleFrame handleFrame
  cases r with
  | reliable =>
    constructor
    · intro h
      exact ⟨{ peer with reliable := { peer.reliable with snRx := sn } }, if_pos h, rfl⟩
    · intro h
      exact congrArg Prod.snd (if_neg (ne_true_of_eq_false h))
  | bestEffort =>
    rw [hplain rfl]
    constructor
    · intro h
      exact ⟨{ peer with bestEffort := { peer.bestEffort with snRx := sn } }, if_pos h, rfl⟩
    · intro h
      exact congrArg Prod.snd (if_neg (ne_true_of_eq_false h))

/-- Where the window is not in force, a number is expected when the last one is the one before
it. -/
theorem expects_plain_iff (h : IsResolution bits) (hres : cfg.snRes = snMax bits) {r : Reliability}
    (hplain : r = .bestEffort → cfg.link.datagram = false) (sn : UInt64) : Expects cfg peer r sn ↔
      (peer.conduit r).snRx &&& snMax bits = snDecrement (snMax bits) sn := by
  constructor
  · intro hexpects
    rw [← snDecrement_and (snMax bits) sn, ← snPrecedes_subset_iff h]
    intro n hn
    by_contra hnot
    rw [← hres] at hn hnot
    obtain ⟨peer', haccepted, -⟩ := (multicastHandleFrame_plain hplain n []).1 hn
    have hnone := hexpects.older n [] (Bool.eq_false_iff.mpr hnot)
    rw [haccepted] at hnone
    cases hnone
  · intro hlast
    constructor
    · intro payload
      refine (multicastHandleFrame_plain hplain sn payload).1 ?_
      rw [hres]
      exact snPrecedes_decrement h hlast
    · intro old payload hold
      refine (multicastHandleFrame_plain hplain old payload).2 ?_
      rw [Bool.eq_false_iff] at hold ⊢
      rw [hres] at hold ⊢
      intro hahead
      rw [← snDecrement_and (snMax bits) sn, ← snPrecedes_subset_iff h] at hlast
      exact hold (hlast old hahead)

/-- Where the window is in force and has just been reset, no number is expected: the mark itself
is accepted, and so are all the numbers ahead of it. -/
theorem not_expects_windowed (h : IsResolution bits) (hres : cfg.snRes = snMax bits)
    (hW : 0 < reorderWindow) (hdatagram : cfg.link.datagram = true) {mark : UInt64}
    (hmark : mark &&& snMax bits = mark)
    (hwindow : peer.bestEffortWindow = SnWindow.reset reorderWindow mark) (sn : UInt64) :
    ¬ Expects cfg peer .bestEffort sn := by
  intro hexpects
  have hrange := snRange_ge h
  have hhalf := snHalf_toNat h
  have hpos : (0 : ℤ) < snRange bits := by omega
  have hmarkAt : mark = snAt bits mark.toNat := by
    have hnat := congrArg UInt64.toNat hmark
    rw [toNat_and_snMax h] at hnat
    apply eq_snAt_of_toNat h
    exact_mod_cast hnat.symm
  -- the mark and the numbers up to half the range ahead of it are accepted
  have haccepted (k : ℤ) (hk : 0 ≤ k) (hsmall : 2 * k < snRange bits) :
      snPrecedes (snMax bits) (snDecrement (snMax bits) sn) (snAt bits (mark.toNat + k)) =
        true := by
    by_contra hnot
    have hnone := hexpects.older (snAt bits (mark.toNat + k)) []
      (by rw [hres]; exact Bool.eq_false_iff.mpr hnot)
    have hevent := (handleFrame_windowed cfg (snAt bits (mark.toNat + k)) [] peer).2
    rw [multicastHandleFrame, hdatagram, hevent, hres, hwindow] at hnone
    have hclose : SerialNumber.Close (snRange bits) mark.toNat (mark.toNat + k) := by
      constructor <;> omega
    have hwater : (SnWindow.reset reorderWindow mark).highWater = snAt bits mark.toNat := hmarkAt
    rcases SnWindow.observe_cases h hW hwater hclose with
      ⟨-, window', hobs, -⟩ | ⟨hle, hcap, -⟩ | ⟨-, -, hbit, -⟩ | ⟨-, -, -, window', hobs, -⟩
    · rw [hobs] at hnone
      simp at hnone
    · have hcapacity := SnWindow.capacity_pos hW h
      omega
    · rw [SnWindow.reset, SnWindow.bit_replicate_zero] at hbit
      cases hbit
    · rw [hobs] at hnone
      simp at hnone
  set d := SerialNumber.distance (snRange bits) (snDecrement (snMax bits) sn).toNat mark.toNat
    with hd
  have hnonneg : 0 ≤ d := Int.emod_nonneg _ hpos.ne'
  have hlt : d < snRange bits := Int.emod_lt_of_pos _ hpos
  have hzero := (snPrecedes_snAt_add h _ mark 0).mp (haccepted 0 le_rfl (by omega))
  have hmost := (snPrecedes_snAt_add h _ mark (snHalf (snMax bits)).toNat).mp
    (haccepted _ (by omega) (by omega))
  rw [← hd, add_zero, Int.emod_eq_of_lt hnonneg hlt] at hzero
  rw [← hd, Int.emod_eq_of_lt (by omega) (by omega)] at hmost
  omega

end Expecting

/-! ### The channels of a JOIN -/

/-- A channel that a JOIN can announce a number for -/
inductive JoinChannel
  | plain (reliability : Reliability)
  | qos (priority : Fin 8) (reliability : Reliability)
deriving DecidableEq, Repr

/-- The number of a pair for one of the two channels -/
def connSn (sn : ConduitSn) : Reliability → UInt64
  | .reliable => sn.reliable
  | .bestEffort => sn.bestEffort

namespace JoinChannel

/-- The reliability of the frames of a channel -/
def reliability : JoinChannel → Reliability
  | plain r => r
  | qos _ r => r

/-- The channels of the layout of a list -/
def Announced (sns : ConduitSnList) : JoinChannel → Prop
  | plain _ => sns.isQos = false
  | qos _ _ => sns.isQos = true

/-- The number that a list announces for a channel -/
def sn (sns : ConduitSnList) : JoinChannel → UInt64
  | plain r => connSn sns.plain r
  | qos priority r => connSn sns.qos[priority] r

/-- The channels whose numbers are kept as announced: those of a plain list, and of the eight
pairs those that happen to agree with what is kept of the first one; a best-effort one only where
the window is not in force. -/
def Kept (datagram : Bool) (snResolution : UInt64) (sns : ConduitSnList) : JoinChannel → Prop
  | plain .reliable => True
  | plain .bestEffort => datagram = false
  | qos priority .reliable =>
    sns.plain.reliable &&& snResolution = snDecrement snResolution sns.qos[priority].reliable
  | qos priority .bestEffort => datagram = false ∧
    snDecrement snResolution sns.plain.reliable =
      snDecrement snResolution sns.qos[priority].bestEffort

end JoinChannel

/-- What reception reads after a JOIN to a node of these resolutions -/
def joinRxConfig (cfg : JoinConfig) (fragMaxSize : ℕ) (link : LinkKind) : RxConfig where
  snRes := snMax cfg.snResolution
  fragMaxSize := fragMaxSize
  link := link

/-- After a JOIN that is taken, each announced channel expects its announced number exactly when
its number was kept. -/
theorem join_expects_iff {cfg : JoinConfig} (h : IsResolution cfg.snResolution)
    (hW : 0 < reorderWindow) {msg : TMsgJoin} (hversion : msg.version.toNat = cfg.protoVersion)
    (hcompatible : (joinOf msg).Compatible cfg)
    {entry : Option (MulticastEntry reorderWindow)} {after : MulticastEntry reorderWindow}
    (hjoin : multicastHandleJoinInner cfg msg entry = some after) (fragMaxSize : ℕ)
    (link : LinkKind) {channel : JoinChannel} (hchannel : channel.Announced msg.nextSn) :
    Expects (joinRxConfig cfg fragMaxSize link) after.peer channel.reliability
        (channel.sn msg.nextSn) ↔
      channel.Kept link.datagram (snMax cfg.snResolution) msg.nextSn := by
  obtain ⟨dst, hsns, hwindow⟩ := multicastHandleJoinInner_taken hversion hcompatible hjoin
  have hplain := plain_decrement_copy (snMax cfg.snResolution) dst msg.nextSn
  rw [← hsns] at hplain
  have hreliable := after.reliable_eq
  have hbestEffort := after.bestEffort_eq
  have hmark : after.snRxSns.plain.bestEffort &&& snMax cfg.snResolution =
      after.snRxSns.plain.bestEffort := by
    rw [hplain]
    split_ifs <;> exact snDecrement_and _ _
  -- best-effort frames on a datagram link are checked by the window
  have hdatagram (sn : UInt64) (hlink : link.datagram = true) :
      ¬ Expects (joinRxConfig cfg fragMaxSize link) after.peer .bestEffort sn :=
    not_expects_windowed h rfl hW hlink hmark hwindow sn
  have hstream (sn : UInt64) (hlink : link.datagram = false) :
      Expects (joinRxConfig cfg fragMaxSize link) after.peer .bestEffort sn ↔
        after.snRxSns.plain.bestEffort = snDecrement (snMax cfg.snResolution) sn := by
    rw [expects_plain_iff h rfl (fun _ ↦ hlink), Peer.conduit, hbestEffort, hmark]
  have hframe (sn : UInt64) : Expects (joinRxConfig cfg fragMaxSize link) after.peer .reliable sn ↔
        after.snRxSns.plain.reliable &&& snMax cfg.snResolution =
          snDecrement (snMax cfg.snResolution) sn := by
    rw [expects_plain_iff h rfl (fun hr ↦ by cases hr), Peer.conduit, hreliable]
  cases channel with
  | plain r =>
    have hlayout : msg.nextSn.isQos = false := hchannel
    rw [if_pos hlayout] at hplain
    cases r with
    | reliable =>
      refine iff_of_true ((hframe _).mpr ?_) trivial
      rw [hplain]
      exact snDecrement_and _ _
    | bestEffort =>
      cases hlink : link.datagram with
      | true => exact iff_of_false (hdatagram _ hlink) fun hkept ↦ Bool.noConfusion hkept
      | false =>
        refine iff_of_true ((hstream _ hlink).mpr ?_) rfl
        rw [hplain]
        rfl
  | qos priority r =>
    have hlayout : msg.nextSn.isQos = true := hchannel
    rw [if_neg (ne_false_of_eq_true hlayout)] at hplain
    cases r with
    | reliable =>
      refine (hframe _).trans ?_
      rw [hplain]
      rfl
    | bestEffort =>
      cases hlink : link.datagram with
      | true => exact iff_of_false (hdatagram _ hlink) fun hkept ↦ Bool.noConfusion hkept.1
      | false =>
        refine (hstream _ hlink).trans ?_
        rw [hplain]
        exact ⟨fun hsame ↦ ⟨rfl, hsame⟩, fun hkept ↦ hkept.2⟩

/-- The capabilities of a build with the default options -/
def buildJoinConfig : JoinConfig := ⟨9, 2, 2, 2048⟩

/-- A JOIN of such a build -/
def buildJoin (nextSn : ConduitSnList) : TMsgJoin :=
  ⟨.ofBytes [1], 10000, nextSn, 2048, .peer, 2, 2, 9, 1⟩

/-- The number 0 announced for both channels, over a streamed link -/
theorem join_expects_zero :
    ∃ after, multicastHandleJoinInner buildJoinConfig (buildJoin (.ofPlain ⟨0, 0⟩))
        (none : Option (MulticastEntry 256)) = some after ∧
      Expects (joinRxConfig buildJoinConfig 4096 ⟨false, false⟩) after.peer .bestEffort 0 := by
  have hresolution : IsResolution buildJoinConfig.snResolution := by decide
  have hcompatible : (joinOf (buildJoin (.ofPlain ⟨0, 0⟩))).Compatible buildJoinConfig := by decide
  have hchannel : (JoinChannel.plain .bestEffort).Announced
      (buildJoin (.ofPlain ⟨0, 0⟩)).nextSn := rfl
  have hW : 0 < 256 := by decide
  obtain ⟨after, hjoin⟩ := multicastHandleJoinInner_none 256 rfl hcompatible
  exact ⟨after, hjoin, (join_expects_iff hresolution hW rfl hcompatible hjoin 4096 ⟨false, false⟩
    hchannel).mpr rfl⟩

/-- Eight pairs of number 5: the reliable frame 5 is refused. -/
theorem join_refuses_announced :
    ∃ after, multicastHandleJoinInner buildJoinConfig (buildJoin ⟨.replicate 8 ⟨5, 5⟩, true⟩)
        (none : Option (MulticastEntry 256)) = some after ∧
      (multicastHandleFrame (joinRxConfig buildJoinConfig 4096 ⟨false, false⟩)
        ⟨.reliable, 5, []⟩ after.peer).2 = none ∧
      ¬ Expects (joinRxConfig buildJoinConfig 4096 ⟨false, false⟩) after.peer .reliable 5 := by
  have hcompatible : (joinOf (buildJoin ⟨.replicate 8 ⟨5, 5⟩, true⟩)).Compatible
      buildJoinConfig := by decide
  obtain ⟨after, hjoin⟩ := multicastHandleJoinInner_none 256 rfl hcompatible
  obtain ⟨dst, hsns, -⟩ := multicastHandleJoinInner_taken rfl hcompatible hjoin
  have hfive : (after.peer.conduit .reliable).snRx = 5 := by
    rw [Peer.conduit, after.reliable_eq, hsns, plain_decrement_copy]
    rfl
  have hbehind : snPrecedes (snMax 2) (after.peer.conduit .reliable).snRx 5 = false := by
    rw [hfive]
    decide
  have hnone : (multicastHandleFrame (joinRxConfig buildJoinConfig 4096 ⟨false, false⟩)
      ⟨.reliable, 5, []⟩ after.peer).2 = none :=
    (multicastHandleFrame_plain (fun hr ↦ by cases hr) 5 []).2 hbehind
  refine ⟨after, hjoin, hnone, fun h ↦ ?_⟩
  obtain ⟨peer', haccepted, -⟩ := h.next []
  rw [haccepted] at hnone
  cases hnone

end ZenohPico.Transport
