import ZenohPico.Transport.Recovery

/-!
At-most-once delivery of best-effort frames on a datagram link.

One honest peer shows every position of its best-effort channel once, as a frame or as a
fragment; the link duplicates and reorders. Frames are checked by the window, which an
accepted fragment and a JOIN reset without a memory of what was delivered. The window keeps
its promise for every frame that does not come back from before such a reset.
-/

open List Option

namespace ZenohPico.Transport

variable {reorderWindow : ℕ}

/-! ### Datagrams of one honest peer -/

/-- What a peer shows at a position of its best-effort channel. -/
inductive Emission where
  | frame (payload : List UInt8)
  | fragment (more first drop : Bool) (payload : List UInt8)
deriving DecidableEq, Repr

/-- A datagram that arrives: the message at a position, or a JOIN that announces the next
position. -/
inductive Datagram where
  | packet (i : ℤ)
  | join (next : ℤ) (nextSnReliable : UInt64) (patch : ℕ)
deriving DecidableEq, Repr

/-- The transport message of an emission. -/
def Emission.message (sn : UInt64) : Emission → RxMessage
  | frame payload => .frame ⟨.bestEffort, sn, payload⟩
  | fragment more first drop payload => .fragment ⟨.bestEffort, more, sn, payload, first, drop⟩

/-- A JOIN of a peer of the same build. -/
def honestJoin (joinCfg : JoinConfig) (next : ℤ) (nextSnReliable : UInt64) (patch : ℕ) : Join where
  version := joinCfg.protoVersion
  seqNumRes := joinCfg.snResolution
  reqIdRes := joinCfg.reqResolution
  batchSize := joinCfg.batchMulticastSize
  nextSnReliable := nextSnReliable
  nextSnBestEffort := snAt joinCfg.snResolution next
  patch := patch

/-- One datagram at a peer, and the position of the frame it delivers, if it does. -/
def receiveDatagram (kind : PeerKind) (cfg : RxConfig) (joinCfg : JoinConfig)
    (sent : ℤ → Emission) (peer : Peer reorderWindow) : Datagram → Peer reorderWindow × Option ℤ
  | .packet i =>
    let step := receive kind cfg ((sent i).message (snAt joinCfg.snResolution i)) peer
    match step.2 with
    | some (.frame _ _ _) => (step.1, some i)
    | _ => (step.1, none)
  | .join next nextSnReliable patch =>
    ((multicastHandleJoin joinCfg (honestJoin joinCfg next nextSnReliable patch)
      (some peer)).getD peer, none)

/-- The positions of the frames a sequence of datagrams delivers, in order. -/
def deliveries (kind : PeerKind) (cfg : RxConfig) (joinCfg : JoinConfig) (sent : ℤ → Emission) :
    List Datagram → Peer reorderWindow → List ℤ
  | [], _ => []
  | datagram :: rest, peer =>
    let step := receiveDatagram kind cfg joinCfg sent peer datagram
    step.2.toList ++ deliveries kind cfg joinCfg sent rest step.1

/-! ### The history of the arrivals -/

/-- What has arrived: the position of the window's mark, the frames that arrived since its last
reset and the frames that arrived before. -/
structure Arrived where
  mark : ℤ
  recent : List ℤ
  forgotten : List ℤ
deriving DecidableEq, Repr

/-- A reset of the window to a position. -/
def Arrived.reset (arrived : Arrived) (mark : ℤ) : Arrived where
  mark := mark
  recent := []
  forgotten := arrived.recent ++ arrived.forgotten

/-- The history after one more datagram. -/
def Arrived.next (sent : ℤ → Emission) (arrived : Arrived) : Datagram → Arrived
  | .packet i =>
    match sent i with
    | .frame _ => { arrived with mark := max arrived.mark i, recent := i :: arrived.recent }
    | .fragment _ _ _ _ => if arrived.mark < i then arrived.reset i else arrived
  | .join next _ _ => arrived.reset (next - 1)

/-- A property of every datagram of a sequence, given the history before it. -/
def Along (sent : ℤ → Emission) (P : Arrived → Datagram → Prop) : Arrived → List Datagram → Prop
  | _, [] => True
  | arrived, datagram :: rest =>
    P arrived datagram ∧ Along sent P (arrived.next sent datagram) rest

/-- Every message arrives less than half the range away from the mark, and JOINs arrive on
multicast transports only. -/
def WithinHalf (kind : PeerKind) (bits : ℕ) (arrived : Arrived) : Datagram → Prop
  | .packet i => SerialNumber.Close (snRange bits) arrived.mark i
  | .join _ _ _ => kind = .multicast

/-- A frame that arrived before the last reset of the window only arrives again when it lies a
window's capacity behind the mark. -/
def NoEcho (reorderWindow bits : ℕ) (sent : ℤ → Emission) (arrived : Arrived) : Datagram → Prop
  | .packet i =>
    match sent i with
    | .frame _ => i ∈ arrived.forgotten →
      i + SnWindow.capacity reorderWindow (snMax bits) ≤ arrived.mark
    | .fragment _ _ _ _ => True
  | .join _ _ _ => True

/-! ### The invariant -/

/-- What the peer remembers of the frames in `delivered`: each of them was delivered before the
last reset, or lies behind the mark by the window's capacity, or is marked in the window. -/
structure Remembers (bits : ℕ) (arrived : Arrived) (delivered : List ℤ)
    (peer : Peer reorderWindow) : Prop where
  marked : peer.Marked true bits .bestEffort arrived.mark
  arrived_of_mem : ∀ i ∈ delivered, i ∈ arrived.recent ∨ i ∈ arrived.forgotten
  remembered : ∀ i ∈ delivered, i ∈ arrived.forgotten ∨ (i ≤ arrived.mark ∧
    (SnWindow.capacity reorderWindow (snMax bits) ≤ (arrived.mark - i).toNat ∨
      SnWindow.bit peer.bestEffortWindow.seen (arrived.mark - i).toNat = true))

section Step

variable {bits : ℕ} {cfg : RxConfig} {arrived : Arrived} {delivered : List ℤ}
  {peer : Peer reorderWindow}

theorem Remembers.mem_next (hpeer : Remembers bits arrived delivered peer) (i : ℤ) :
    ∀ j ∈ delivered, j ∈ i :: arrived.recent ∨ j ∈ arrived.forgotten := by
  intro j hj
  rcases hpeer.arrived_of_mem j hj with hrecent | hforgotten
  · exact .inl (mem_cons_of_mem _ hrecent)
  · exact .inr hforgotten

variable {i : ℤ} {peer' : Peer reorderWindow}

/-- The window moves to a frame ahead of the mark, and keeps what lies within it. -/
theorem Remembers.moved (hW : 0 < reorderWindow) (hpeer : Remembers bits arrived delivered peer)
    (hlt : arrived.mark < i) (hmarked : peer'.Marked true bits .bestEffort i)
    (hbits : ∀ e < reorderWindow, SnWindow.bit peer'.bestEffortWindow.seen e =
      (decide (e = 0) || (decide ((i - arrived.mark).toNat ≤ e) &&
        SnWindow.bit peer.bestEffortWindow.seen (e - (i - arrived.mark).toNat)))) :
    Remembers bits { arrived with mark := max arrived.mark i, recent := i :: arrived.recent }
      (i :: delivered) peer' := by
  have hcap := SnWindow.capacity_le reorderWindow (snMax bits)
  rw [max_eq_right hlt.le]
  refine ⟨hmarked, forall_mem_cons.mpr ⟨.inl mem_cons_self, hpeer.mem_next i⟩,
    forall_mem_cons.mpr ⟨.inr ⟨le_rfl, .inr ?_⟩, fun j hj ↦ ?_⟩⟩
  · rw [sub_self, Int.toNat_zero, hbits 0 hW]
    rfl
  · rcases hpeer.remembered j hj with hforgotten | ⟨hjle, hfar | hset⟩
    · exact .inl hforgotten
    · exact .inr ⟨by dsimp only; omega, .inl (by dsimp only; omega)⟩
    · refine .inr ⟨by dsimp only; omega, ?_⟩
      dsimp only
      rcases lt_or_ge (i - j).toNat reorderWindow with hin | hout
      · right
        rw [hbits _ hin, decide_eq_true (show (i - arrived.mark).toNat ≤ (i - j).toNat by
          omega), show (i - j).toNat - (i - arrived.mark).toNat =
            (arrived.mark - j).toNat by omega, hset, Bool.true_and, Bool.or_true]
      · exact .inl (by omega)

/-- The window marks a frame behind the mark. -/
theorem Remembers.set (hpeer : Remembers bits arrived delivered peer) (hle : i ≤ arrived.mark)
    (hmarked : peer'.Marked true bits .bestEffort arrived.mark)
    (hbits : ∀ e, SnWindow.bit peer'.bestEffortWindow.seen e =
      (decide (e = (arrived.mark - i).toNat) || SnWindow.bit peer.bestEffortWindow.seen e)) :
    Remembers bits { arrived with mark := max arrived.mark i, recent := i :: arrived.recent }
      (i :: delivered) peer' := by
  rw [max_eq_left hle]
  refine ⟨hmarked, forall_mem_cons.mpr ⟨.inl mem_cons_self, hpeer.mem_next i⟩,
    forall_mem_cons.mpr ⟨.inr ⟨hle, .inr ?_⟩, fun j hj ↦ ?_⟩⟩
  · rw [hbits, decide_eq_true rfl, Bool.true_or]
  · rcases hpeer.remembered j hj with hforgotten | ⟨hjle, hfar | hset⟩
    · exact .inl hforgotten
    · exact .inr ⟨hjle, .inl hfar⟩
    · refine .inr ⟨hjle, .inr ?_⟩
      rw [hbits, hset, Bool.or_true]

/-- A frame that is ignored leaves the window as it is. -/
theorem Remembers.kept (hpeer : Remembers bits arrived delivered peer) (hle : i ≤ arrived.mark)
    (hmarked : peer'.Marked true bits .bestEffort arrived.mark)
    (hwin : peer'.bestEffortWindow = peer.bestEffortWindow) :
    Remembers bits { arrived with mark := max arrived.mark i, recent := i :: arrived.recent }
      delivered peer' := by
  rw [max_eq_left hle]
  exact ⟨hmarked, hpeer.mem_next i, by rw [hwin]; exact hpeer.remembered⟩

/-- A frame that does not echo a forgotten one is delivered once, and remembered. -/
theorem Remembers.frame (h : IsResolution bits) (hres : cfg.snRes = snMax bits)
    (hW : 0 < reorderWindow) (hpeer : Remembers bits arrived delivered peer)
    (hclose : SerialNumber.Close (snRange bits) arrived.mark i) (hecho : i ∈ arrived.forgotten →
      i + SnWindow.capacity reorderWindow (snMax bits) ≤ arrived.mark) (payload : List UInt8) :
    ∃ peer' event, handleFrame true cfg ⟨.bestEffort, snAt bits i, payload⟩ peer = (peer', event) ∧
      ((event = none ∧ Remembers bits
          { arrived with mark := max arrived.mark i, recent := i :: arrived.recent }
          delivered peer') ∨
        (event = some (.frame .bestEffort (snAt bits i) payload) ∧ i ∉ delivered ∧ Remembers bits
            { arrived with mark := max arrived.mark i, recent := i :: arrived.recent }
            (i :: delivered) peer')) := by
  have hmarked := hpeer.marked
  obtain ⟨hwin, hout⟩ := handleFrame_windowed cfg (snAt bits i) payload peer
  rw [hres] at hwin hout
  have hbehind (hle : i ≤ arrived.mark) :=
    handleFrame_behind h hres hW hmarked hclose hle payload
  obtain ⟨hlt, window', hobs, -, hbits⟩ | ⟨hle, -, hobs⟩ | ⟨hle, -, -, hobs⟩ |
      ⟨hle, hinside, hbit, window', hobs, -, hbits⟩ :=
    SnWindow.observe_cases h hW (hmarked.2 rfl rfl) hclose
  · -- ahead of the mark
    obtain ⟨peer', hstep, hmarked', -, -⟩ := handleFrame_ahead h hres hW hmarked hclose hlt payload
    rw [hstep, hobs] at hwin
    refine ⟨peer', _, hstep, .inr ⟨rfl, fun hi ↦ ?_, hpeer.moved hW hlt hmarked' ?_⟩⟩
    · rcases hpeer.remembered i hi with hforgotten | ⟨hle, -⟩
      · have := hecho hforgotten
        omega
      · omega
    · rw [hwin]
      exact hbits
  · -- too old
    obtain ⟨peer', event, hstep, -, hmarked', -, -⟩ := hbehind hle
    rw [hstep, hobs] at hwin hout
    exact ⟨peer', event, hstep, .inl ⟨hout, hpeer.kept hle hmarked' hwin⟩⟩
  · -- a duplicate
    obtain ⟨peer', event, hstep, -, hmarked', -, -⟩ := hbehind hle
    rw [hstep, hobs] at hwin hout
    exact ⟨peer', event, hstep, .inl ⟨hout, hpeer.kept hle hmarked' hwin⟩⟩
  · -- behind the mark and new
    obtain ⟨peer', event, hstep, -, hmarked', -, -⟩ := hbehind hle
    rw [hstep, hobs] at hwin hout
    refine ⟨peer', event, hstep, .inr ⟨hout, fun hi ↦ ?_, hpeer.set hle hmarked' ?_⟩⟩
    · rcases hpeer.remembered i hi with hforgotten | ⟨-, hfar | hset⟩
      · have := hecho hforgotten
        omega
      · omega
      · rw [hbit] at hset
        cases hset
    · rw [hwin]
      exact hbits

/-- A reset forgets which frames were delivered, and nothing else. -/
theorem Remembers.reset (hpeer : Remembers bits arrived delivered peer) {mark : ℤ}
    (hmarked : peer'.Marked true bits .bestEffort mark) :
    Remembers bits (arrived.reset mark) delivered peer' := by
  have hmem : ∀ i ∈ delivered, i ∈ (arrived.reset mark).forgotten :=
    fun i hi ↦ mem_append.mpr (hpeer.arrived_of_mem i hi)
  exact ⟨hmarked, fun i hi ↦ .inr (hmem i hi), fun i hi ↦ .inl (hmem i hi)⟩

/-- A fragment delivers no frame; it resets the window when it is ahead of the mark. -/
theorem Remembers.fragment (h : IsResolution bits) (hres : cfg.snRes = snMax bits)
    (hpeer : Remembers bits arrived delivered peer)
    (hclose : SerialNumber.Close (snRange bits) arrived.mark i) (more first drop : Bool)
    (payload : List UInt8) :
    Remembers bits (if arrived.mark < i then arrived.reset i else arrived) delivered
      (handleFragment cfg ⟨.bestEffort, more, snAt bits i, payload, first, drop⟩ peer).1 := by
  have hr : (⟨.bestEffort, more, snAt bits i, payload, first, drop⟩ : Fragment).reliability =
      .bestEffort := rfl
  have hmarked := handleFragment_marked h hres hpeer.marked hclose hr rfl
  split
  · rename_i hlt
    rw [max_eq_right hlt.le] at hmarked
    exact hpeer.reset hmarked
  · rename_i hle
    rw [max_eq_left (not_lt.mp hle)] at hmarked
    have hwindow := handleFragment_window cfg
      ⟨.bestEffort, more, snAt bits i, payload, first, drop⟩ peer
    rw [if_neg ?_] at hwindow
    · exact ⟨hmarked, hpeer.arrived_of_mem, by rw [hwindow]; exact hpeer.remembered⟩
    · rintro ⟨-, hahead⟩
      rw [hres, hpeer.marked.1, snPrecedes_iff_lt h hclose] at hahead
      exact hle hahead

end Step

/-! ### All arrivals -/

variable {joinCfg : JoinConfig}

/-- A JOIN of the same build resets the window to the position before the one it announces. -/
theorem multicastHandleJoin_honest (h : IsResolution joinCfg.snResolution) (next : ℤ)
    (nextSnReliable : UInt64) (patch : ℕ) (peer : Peer reorderWindow) :
    ∃ peer', multicastHandleJoin joinCfg (honestJoin joinCfg next nextSnReliable patch)
        (some peer) = some peer' ∧
      peer'.Marked true joinCfg.snResolution .bestEffort (next - 1) := by
  have hsn : snDecrement (snMax joinCfg.snResolution) (snAt joinCfg.snResolution next) =
      snAt joinCfg.snResolution (next - 1) := by
    have := snDecrement_snAt h (next - 1)
    rwa [sub_add_cancel] at this
  have hcompatible : (honestJoin joinCfg next nextSnReliable patch).Compatible joinCfg :=
    ⟨rfl, rfl, rfl⟩
  unfold multicastHandleJoin
  dsimp only
  rw [if_neg (by simp [honestJoin]), if_pos hcompatible]
  exact ⟨_, rfl, hsn, fun _ _ ↦ hsn⟩

/-- One datagram keeps the memory of what was delivered; a frame it delivers is a new one. -/
theorem Remembers.receiveDatagram {kind : PeerKind} {cfg : RxConfig}
    (h : IsResolution joinCfg.snResolution) (hres : cfg.snRes = snMax joinCfg.snResolution)
    (hlink : cfg.link.datagram = true) (hW : 0 < reorderWindow) (sent : ℤ → Emission)
    {arrived : Arrived} {delivered : List ℤ} {peer : Peer reorderWindow}
    (hpeer : Remembers joinCfg.snResolution arrived delivered peer) {datagram : Datagram}
    (hhalf : WithinHalf kind joinCfg.snResolution arrived datagram)
    (hecho : NoEcho reorderWindow joinCfg.snResolution sent arrived datagram) :
    ∃ peer' position, receiveDatagram kind cfg joinCfg sent peer datagram = (peer', position) ∧
      (∀ i, position = some i → i ∉ delivered) ∧
      Remembers joinCfg.snResolution (arrived.next sent datagram)
        (position.toList ++ delivered) peer' := by
  have hwindowed : kind.windowed cfg.link = true := by
    cases kind
    · exact Bool.or_eq_true_iff.mpr (.inl hlink)
    · exact hlink
  cases datagram with
  | packet i =>
    dsimp only [WithinHalf, NoEcho] at hhalf hecho
    simp only [ZenohPico.Transport.receiveDatagram, Arrived.next]
    cases hsent : sent i with
    | frame payload =>
      rw [hsent] at hecho
      simp only [Emission.message, receive_frame, hwindowed]
      obtain ⟨peer', event, hstep, ⟨rfl, hremembers⟩ | ⟨rfl, hnew, hremembers⟩⟩ :=
        hpeer.frame h hres hW hhalf hecho payload
      · rw [hstep]
        exact ⟨peer', none, rfl, fun j hj ↦ (by cases hj), hremembers⟩
      · rw [hstep]
        refine ⟨peer', some i, rfl, ?_, hremembers⟩
        rintro j hj
        obtain rfl := some.inj hj
        exact hnew
    | fragment more first drop payload =>
      simp only [Emission.message, receive_fragment]
      refine ⟨(handleFragment cfg
        ⟨.bestEffort, more, snAt joinCfg.snResolution i, payload, first, drop⟩ peer).1, none, ?_,
        fun j hj ↦ (by cases hj), hpeer.fragment h hres hhalf more first drop payload⟩
      rcases handleFragment_event cfg
        ⟨.bestEffort, more, snAt joinCfg.snResolution i, payload, first, drop⟩ peer
        with hnone | ⟨bytes, hsome⟩
      · rw [hnone]
      · rw [hsome]
  | join next nextSnReliable patch =>
    obtain ⟨peer', hjoin, hmarked⟩ := multicastHandleJoin_honest h next nextSnReliable patch peer
    refine ⟨peer', none, ?_, fun j hj ↦ (by cases hj), hpeer.reset hmarked⟩
    simp only [ZenohPico.Transport.receiveDatagram, hjoin, getD_some]

/-- Over a whole sequence of datagrams, every delivered frame is new. -/
theorem Remembers.deliveries {kind : PeerKind} {cfg : RxConfig}
    (h : IsResolution joinCfg.snResolution) (hres : cfg.snRes = snMax joinCfg.snResolution)
    (hlink : cfg.link.datagram = true) (hW : 0 < reorderWindow) (sent : ℤ → Emission)
    {datagrams : List Datagram} {arrived : Arrived} {delivered : List ℤ} {peer : Peer reorderWindow}
    (hpeer : Remembers joinCfg.snResolution arrived delivered peer)
    (hhalf : Along sent (WithinHalf kind joinCfg.snResolution) arrived datagrams)
    (hecho : Along sent (NoEcho reorderWindow joinCfg.snResolution sent) arrived datagrams) :
    (deliveries kind cfg joinCfg sent datagrams peer).Nodup ∧
      ∀ i ∈ deliveries kind cfg joinCfg sent datagrams peer, i ∉ delivered := by
  induction datagrams generalizing arrived delivered peer with
  | nil => exact ⟨nodup_nil, fun i hi ↦ (by cases hi)⟩
  | cons datagram rest ih =>
    obtain ⟨peer', position, hstep, hnew, hremembers⟩ :=
      hpeer.receiveDatagram h hres hlink hW sent hhalf.1 hecho.1
    obtain ⟨hnodup, hlater⟩ := ih hremembers hhalf.2 hecho.2
    unfold ZenohPico.Transport.deliveries
    rw [hstep]
    dsimp only
    cases position with
    | none =>
      exact ⟨hnodup, hlater⟩
    | some i =>
      simp only [toList_some, singleton_append, nodup_cons, mem_cons, forall_eq_or_imp] at hlater ⊢
      refine ⟨⟨fun hi ↦ hlater i hi (.inl rfl), hnodup⟩, hnew i rfl, ?_⟩
      exact fun j hj hdelivered ↦ hlater j hj (.inr hdelivered)

/-- On a datagram link every best-effort frame of one honest peer is delivered at most once, over
every sequence of its frames, fragments and JOINs within half the range in which no frame comes
back, within the window's capacity, from before a reset of the window. -/
theorem deliveries_nodup {kind : PeerKind} {cfg : RxConfig} {joinCfg : JoinConfig}
    (h : IsResolution joinCfg.snResolution) (hres : cfg.snRes = snMax joinCfg.snResolution)
    (hlink : cfg.link.datagram = true) (hW : 0 < reorderWindow) (sent : ℤ → Emission)
    {mark : ℤ} {snReliable : UInt64} {patch : ℕ} {datagrams : List Datagram}
    (hhalf : Along sent (WithinHalf kind joinCfg.snResolution) ⟨mark, [], []⟩ datagrams)
    (hecho : Along sent (NoEcho reorderWindow joinCfg.snResolution sent) ⟨mark, [], []⟩
      datagrams) : (deliveries kind cfg joinCfg sent datagrams
      (Peer.fresh reorderWindow snReliable (snAt joinCfg.snResolution mark) patch)).Nodup := by
  have hstart : Remembers joinCfg.snResolution ⟨mark, [], []⟩ []
      (Peer.fresh reorderWindow snReliable (snAt joinCfg.snResolution mark) patch) :=
    ⟨⟨rfl, fun _ _ ↦ rfl⟩, fun i hi ↦ (by cases hi), fun i hi ↦ (by cases hi)⟩
  exact (hstart.deliveries h hres hlink hW sent hhalf hecho).1

/-- A datagram link with 28-bit sequence numbers. -/
def datagramConfig : RxConfig where
  snRes := snMax 0x02
  fragMaxSize := 4096
  link := { datagram := true, webTransport := false }

/-- The default build's multicast capabilities. -/
def defaultJoinConfig : JoinConfig where
  protoVersion := 0x09
  snResolution := 0x02
  reqResolution := 0x02
  batchMulticastSize := 2048

/-- A peer that shows a fragment at position two and frames everywhere else. -/
def sampleEmission (i : ℤ) : Emission :=
  if i = 2 then .fragment true true false [7] else .frame [1]

instance decidableAlong (sent : ℤ → Emission) (P : Arrived → Datagram → Prop)
    [∀ arrived datagram, Decidable (P arrived datagram)] :
    (arrived : Arrived) → (datagrams : List Datagram) → Decidable (Along sent P arrived datagrams)
  | _, [] => isTrue trivial
  | arrived, datagram :: rest =>
    have : Decidable (Along sent P (arrived.next sent datagram) rest) :=
      decidableAlong sent P (arrived.next sent datagram) rest
    inferInstanceAs (Decidable (_ ∧ _))

instance (kind : PeerKind) (bits : ℕ) (arrived : Arrived) :
    (datagram : Datagram) → Decidable (WithinHalf kind bits arrived datagram)
  | .packet i => inferInstanceAs (Decidable (SerialNumber.Close (snRange bits) arrived.mark i))
  | .join _ _ _ => inferInstanceAs (Decidable (kind = .multicast))

/-- Reordered and duplicated frames, between a fragment and a JOIN that reset the window. -/
theorem deliveries_nodup_sample :
    (deliveries .multicast datagramConfig defaultJoinConfig sampleEmission
      [.packet 1, .packet 1, .packet 2, .packet 4, .packet 3, .packet 4, .join 5 1 1, .packet 6,
        .packet 5, .packet 6] (Peer.fresh 256 0 (snAt 0x02 0) 1)).Nodup := by
  refine deliveries_nodup (by decide) rfl rfl (by decide) sampleEmission (by decide) ?_
  refine ⟨?_, ?_, trivial, ?_, ?_, ?_, trivial, ?_, ?_, ?_, trivial⟩ <;>
    exact fun hforgotten ↦ absurd hforgotten (by decide)

/-- A fragment between two copies of a frame makes the window accept both, and so does a JOIN. -/
theorem deliveries_twice : Along sampleEmission (WithinHalf .unicast 0x02) ⟨0, [], []⟩
        [.packet 1, .packet 2, .packet 1] ∧
      deliveries .unicast datagramConfig defaultJoinConfig sampleEmission
        [.packet 1, .packet 2, .packet 1] (Peer.fresh 256 0 (snAt 0x02 0) 1) = [1, 1] ∧
      Along sampleEmission (WithinHalf .multicast 0x02) ⟨0, [], []⟩
        [.packet 1, .join 2 1 1, .packet 1] ∧
      deliveries .multicast datagramConfig defaultJoinConfig sampleEmission
        [.packet 1, .join 2 1 1, .packet 1] (Peer.fresh 256 0 (snAt 0x02 0) 1) = [1, 1] :=
  ⟨by decide, by decide, by decide, by decide⟩

end ZenohPico.Transport
