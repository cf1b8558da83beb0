import ZenohPico.Foundations.Pieces
import ZenohPico.Transport.Recovery

/-!
Reassembly under loss, duplication and reordering.

An honest sender numbers its transport messages consecutively: frames, the fragments of
its messages, and the fragments of messages it gives up with a drop marker. A schedule
delivers any of them, in any order within half of the sequence-number range. The buffer of
a channel then never holds anything but a prefix of one message, so that whatever comes out
of it is the complete encoding of one message.
-/

open List Option

namespace ZenohPico.Transport

open Pieces

variable {reorderWindow : ℕ}

/-! ### An honest sender and its schedules -/

/-- What a sender emits on a channel: a frame, the encoding of a message cut into fragments, or
some fragments of a message followed by a fragment with the drop marker. -/
inductive SentUnit where
  | frame (payload : List UInt8)
  | fragmented (chunks : List (List UInt8))
  | abandoned (chunks : List (List UInt8)) (last : List UInt8) (more : Bool)
deriving DecidableEq, Repr

namespace SentUnit

/-- The number of transport messages of a unit. -/
def count : SentUnit → ℕ
  | frame _ => 1
  | fragmented chunks => chunks.length
  | abandoned chunks _ _ => chunks.length + 1

/-- The message data of a unit, fragment by fragment. -/
def chunks : SentUnit → List (List UInt8)
  | frame _ => []
  | fragmented chunks => chunks
  | abandoned chunks _ _ => chunks

/-- The transport message of number `k` of a unit, with sequence number `sn`. -/
def message (r : Reliability) (sn : UInt64) : SentUnit × ℕ → RxMessage
  | (frame payload, _) => .frame ⟨r, sn, payload⟩
  | (fragmented chunks, k) =>
    .fragment ⟨r, decide (k + 1 < chunks.length), sn, chunks.getD k [], k == 0, false⟩
  | (abandoned chunks last more, k) =>
    if k < chunks.length then .fragment ⟨r, true, sn, chunks.getD k [], k == 0, false⟩
    else .fragment ⟨r, more, sn, last, k == 0, true⟩

end SentUnit

/-- The messages of a schedule: the indices say which of the sender's transport messages arrive,
in which order; the sender's first message has position `start`. -/
def arrivals (bits : ℕ) (r : Reliability) (units : List SentUnit) (start : ℤ)
    (schedule : List ℕ) : List RxMessage :=
  schedule.filterMap fun (i : ℕ) ↦
    (layout SentUnit.count units)[i]?.map (SentUnit.message r (snAt bits (start + i)))

/-- Every message of the schedule exists and arrives less than half the range away from the
latest position seen so far. -/
def Schedulable (bits : ℕ) (units : List SentUnit) (start : ℤ) : ℤ → List ℕ → Prop
  | _, [] => True
  | mark, i :: rest =>
    i < (layout SentUnit.count units).length ∧ SerialNumber.Close (snRange bits) mark (start + i) ∧
      Schedulable bits units start (max mark (start + i)) rest

instance decidableSchedulable (bits : ℕ) (units : List SentUnit) (start : ℤ) :
    (mark : ℤ) → (schedule : List ℕ) → Decidable (Schedulable bits units start mark schedule)
  | _, [] => isTrue trivial
  | mark, i :: rest =>
    have : Decidable (Schedulable bits units start (max mark (start + i)) rest) :=
      decidableSchedulable bits units start (max mark (start + i)) rest
    inferInstanceAs (Decidable (_ ∧ _ ∧ _))

/-! ### The invariant -/

/-- The next position begins a new unit. -/
def AtBoundary (units : List SentUnit) (start mark : ℤ) : Prop :=
  ∀ (j : ℕ) (piece : SentUnit × ℕ), start + j = mark + 1 →
    (layout SentUnit.count units)[j]? = some piece → piece.2 = 0

/-- The buffer holds the data of a unit up to the fragment at the mark, which is not its last. -/
def HoldsPrefix (units : List SentUnit) (start mark : ℤ) (dbuf : List UInt8) : Prop :=
  ∃ (i : ℕ) (unit : SentUnit) (k : ℕ), start + i = mark ∧
    (layout SentUnit.count units)[i]? = some (unit, k) ∧ k + 1 < unit.count ∧
    dbuf = (unit.chunks.take (k + 1)).flatten

/-- What a channel's buffer can be after any part of a schedule. -/
def Assembling (units : List SentUnit) (start mark : ℤ) (conduit : Conduit) : Prop :=
  conduit.Sound ∧ (conduit.state = .overflow ∨ conduit.dbuf = [] ∨ AtBoundary units start mark ∨
      HoldsPrefix units start mark conduit.dbuf)

theorem Assembling.clear (units : List SentUnit) (start mark : ℤ) (conduit : Conduit) :
    Assembling units start mark conduit.clear :=
  ⟨conduit.clear_sound, .inr (.inl rfl)⟩

variable {conduit : Conduit} {windowed : Bool}

/-- What absorbing the data of a fragment can do. -/
theorem Conduit.absorb_cases (hsound : conduit.Sound) (fragMaxSize : ℕ) (msg : Fragment) :
    ∃ next event, conduit.absorb fragMaxSize msg = (next, event) ∧
      next.snRx = conduit.snRx ∧ next.Sound ∧ (next.state = .overflow ∨ next.dbuf = [] ∨
        (msg.more = true ∧ next.dbuf = conduit.dbuf ++ msg.payload)) ∧
      ∀ e, event = some e → msg.more = false ∧
        e = .reassembled msg.reliability (conduit.dbuf ++ msg.payload) ∧
        conduit.state ≠ .overflow := by
  by_cases hstate : conduit.state = .overflow
  · rw [absorb_overflown hstate]
    cases msg.more with
    | true => exact ⟨conduit, none, rfl, rfl, hsound, .inl hstate, fun e he ↦ by cases he⟩
    | false =>
      exact ⟨conduit.clear, none, rfl, rfl, conduit.clear_sound, .inr (.inl rfl),
        fun e he ↦ by cases he⟩
  · rcases le_or_gt (conduit.dbuf.length + msg.payload.length) fragMaxSize with hfits | hexceeds
    · rw [absorb_fits hsound hstate hfits]
      cases msg.more with
      | true =>
        exact ⟨_, none, rfl, rfl, fun hnull ↦ (by cases hnull), .inr (.inr ⟨rfl, rfl⟩),
          fun e he ↦ by cases he⟩
      | false =>
        refine ⟨conduit.clear, _, rfl, rfl, conduit.clear_sound, .inr (.inl rfl), ?_⟩
        intro e he
        exact ⟨rfl, (some.inj he).symm, hstate⟩
    · rw [absorb_exceeds hsound hstate hexceeds]
      cases msg.more with
      | true =>
        exact ⟨_, none, rfl, rfl, fun hnull ↦ (by cases hnull), .inl rfl, fun e he ↦ by cases he⟩
      | false =>
        exact ⟨conduit.clear, none, rfl, rfl, conduit.clear_sound, .inr (.inl rfl),
          fun e he ↦ by cases he⟩

/-- What a fragment ahead of everything seen can do on a channel with markers. -/
theorem Conduit.defragment_cases {conduit : Conduit} {patch : ℕ}
    (hpatch : patchHasFragmentMarkers patch = true) (fragMaxSize : ℕ) (consecutive : Bool)
    (msg : Fragment) :
    (∃ next, conduit.defragment fragMaxSize patch consecutive msg = (next, none) ∧
      next.snRx = conduit.snRx ∧ next.dbuf = [] ∧
      (next.state = .null ∨ next.state = conduit.state)) ∨ (msg.first = true ∧ msg.drop = false ∧
      conduit.defragment fragMaxSize patch consecutive msg =
        ({ conduit with dbuf := [] } : Conduit).absorb fragMaxSize msg) ∨
    (msg.first = false ∧ msg.drop = false ∧ consecutive = true ∧ conduit.dbuf ≠ [] ∧
      conduit.defragment fragMaxSize patch consecutive msg = conduit.absorb fragMaxSize msg) := by
  unfold defragment
  by_cases hgap : (!consecutive && decide (0 < conduit.dbuf.length)) = true
  · rw [if_pos hgap]
    exact .inl ⟨_, rfl, rfl, rfl, .inl rfl⟩
  · rw [if_neg hgap, if_pos hpatch]
    cases msg.first with
    | true =>
      cases msg.drop with
      | true => exact .inl ⟨_, rfl, rfl, rfl, .inr rfl⟩
      | false => exact .inr (.inl ⟨rfl, rfl, rfl⟩)
    | false =>
      by_cases hnil : conduit.dbuf = []
      · refine .inl ⟨conduit, ?_, rfl, hnil, .inr rfl⟩
        rw [if_neg Bool.false_ne_true, if_pos (by rw [hnil]; rfl)]
      · have hlen : conduit.dbuf.length ≠ 0 := fun hzero ↦ hnil (length_eq_zero_iff.mp hzero)
        have hcons : consecutive = true := by
          cases consecutive with
          | true => rfl
          | false => exact absurd (by simpa using Nat.pos_of_ne_zero hlen) hgap
        rw [if_neg Bool.false_ne_true, if_neg hlen]
        cases msg.drop with
        | true => exact .inl ⟨_, rfl, rfl, rfl, .inr rfl⟩
        | false => exact .inr (.inr ⟨rfl, rfl, hcons, hnil, rfl⟩)

/-! ### One arrival -/

theorem flatten_take_succ {chunks : List (List UInt8)} (k : ℕ) :
    (chunks.take k).flatten ++ chunks.getD k [] = (chunks.take (k + 1)).flatten := by
  rw [take_add_one, flatten_append, getD_eq_getElem?_getD]
  cases chunks[k]? <;> simp

variable {piece : SentUnit × ℕ}

/-- A piece that is sent as a frame is a frame unit. -/
theorem frame_of_piece {r : Reliability} {sn : UInt64} {msg : Frame}
    (h : SentUnit.message r sn piece = .frame msg) :
    ∃ payload, piece.1 = .frame payload ∧ msg = ⟨r, sn, payload⟩ := by
  obtain ⟨unit, k⟩ := piece
  cases unit with
  | frame payload => exact ⟨payload, rfl, (RxMessage.frame.inj h).symm⟩
  | fragmented chunks => cases h
  | abandoned chunks last more =>
    simp only [SentUnit.message] at h
    split at h <;> cases h

variable {msg : Fragment}

/-- A piece that is sent as a fragment: the markers and the data it carries. -/
theorem fragment_of_piece {r : Reliability} {sn : UInt64} {unit : SentUnit} {k : ℕ}
    (hk : k < unit.count) (h : SentUnit.message r sn (unit, k) = .fragment msg) :
    msg.reliability = r ∧ msg.sn = sn ∧ msg.first = (k == 0) ∧
      (msg.drop = false → msg.payload = unit.chunks.getD k [] ∧
        (msg.more = true → k + 1 < unit.count) ∧
        (msg.more = false → unit = .fragmented unit.chunks ∧ k + 1 = unit.chunks.length)) := by
  cases unit with
  | frame payload => cases h
  | fragmented chunks =>
    obtain rfl := (RxMessage.fragment.inj h).symm
    refine ⟨rfl, rfl, rfl, fun _ ↦ ⟨rfl, fun hmore ↦ of_decide_eq_true hmore, fun hmore ↦ ?_⟩⟩
    have hlast := of_decide_eq_false hmore
    dsimp only [SentUnit.count, SentUnit.chunks] at hk hlast ⊢
    exact ⟨rfl, by omega⟩
  | abandoned chunks last more =>
    simp only [SentUnit.message] at h
    dsimp only [SentUnit.count, SentUnit.chunks] at hk ⊢
    split at h
    · rename_i hdata
      obtain rfl := (RxMessage.fragment.inj h).symm
      exact ⟨rfl, rfl, rfl, fun _ ↦ ⟨rfl, fun _ ↦ by omega, fun hmore ↦ by cases hmore⟩⟩
    · obtain rfl := (RxMessage.fragment.inj h).symm
      exact ⟨rfl, rfl, rfl, fun hdrop ↦ by cases hdrop⟩

section Arrival

variable {bits : ℕ} {cfg : RxConfig} {r : Reliability} {patch : ℕ} {units : List SentUnit}
  {start mark : ℤ} {i : ℕ}

/-- Data that joins a prefix of its unit keeps the channel assembling, and only a complete
message comes out. -/
theorem Assembling.absorb {unit : SentUnit} {k : ℕ}
    (hpiece : (layout SentUnit.count units)[i]? = some (unit, k))
    (hmsg : SentUnit.message r (snAt bits (start + i)) (unit, k) = .fragment msg)
    (hdrop : msg.drop = false) (hsound : conduit.Sound)
    (hdata₀ : conduit.dbuf = (unit.chunks.take k).flatten) (fragMaxSize : ℕ) :
    ∃ next event, conduit.absorb fragMaxSize msg = (next, event) ∧
      next.snRx = conduit.snRx ∧ Assembling units start (start + i) next ∧
      ∀ e, event = some e → ∃ chunks, .fragmented chunks ∈ units ∧
        e = .reassembled r chunks.flatten := by
  obtain ⟨hunit, hk⟩ := mem_layout.mp (mem_of_getElem? hpiece)
  obtain ⟨hr, -, -, hdata⟩ := fragment_of_piece hk hmsg
  obtain ⟨hpayload, hmore, hlast⟩ := hdata hdrop
  have hjoin : conduit.dbuf ++ msg.payload = (unit.chunks.take (k + 1)).flatten := by
    rw [hdata₀, hpayload, flatten_take_succ]
  obtain ⟨next, event, habsorb, hsn, hnext, hbuf, hevent⟩ := conduit.absorb_cases hsound
    fragMaxSize msg
  refine ⟨next, event, habsorb, hsn, ⟨hnext, ?_⟩, ?_⟩
  · rcases hbuf with hover | hnil | ⟨hm, hbuf⟩
    · exact .inl hover
    · exact .inr (.inl hnil)
    · exact .inr (.inr (.inr ⟨i, unit, k, rfl, hpiece, hmore hm, hbuf.trans hjoin⟩))
  · intro e he
    obtain ⟨hm, rfl, -⟩ := hevent e he
    obtain ⟨hfrag, hlen⟩ := hlast hm
    refine ⟨unit.chunks, hfrag ▸ hunit, ?_⟩
    rw [hr, hjoin, take_of_length_le hlen.ge]

/-- One fragment of the sender, at any position within half the range. -/
theorem Assembling.fragment (h : IsResolution bits) (hres : cfg.snRes = snMax bits)
    (hpatch : patchHasFragmentMarkers patch = true)
    (hassembling : Assembling units start mark conduit) (hsn : conduit.snRx = snAt bits mark)
    (hclose : SerialNumber.Close (snRange bits) mark (start + i))
    (hpiece : (layout SentUnit.count units)[i]? = some piece)
    (hmsg : SentUnit.message r (snAt bits (start + i)) piece = .fragment msg) :
    ∃ next event, conduit.fragment cfg patch msg = (next, event) ∧
      next.snRx = snAt bits (max mark (start + i)) ∧
      Assembling units start (max mark (start + i)) next ∧
      ∀ e, event = some e → ∃ chunks, .fragmented chunks ∈ units ∧
        e = .reassembled r chunks.flatten := by
  obtain ⟨unit, k⟩ := piece
  obtain ⟨hunit, hk⟩ := mem_layout.mp (mem_of_getElem? hpiece)
  obtain ⟨-, hmsgsn, hfirst, -⟩ := fragment_of_piece hk hmsg
  have hprec := snPrecedes_iff_lt h hclose
  rw [← hsn, ← hres, ← hmsgsn] at hprec
  unfold Conduit.fragment
  rcases le_or_gt (start + i) mark with hle | hlt
  · rw [if_neg (by rw [hprec]; omega), max_eq_left hle]
    exact ⟨conduit.clear, none, rfl, hsn, .clear units start mark conduit, fun e he ↦ by cases he⟩
  · rw [if_pos (hprec.mpr hlt), max_eq_right hlt.le]
    have hcons := snConsecutive_iff h hclose
    rw [← hsn, ← hres, ← hmsgsn] at hcons
    obtain ⟨next, hstep, hnextsn, hnil, -⟩ | ⟨hf, hdrop, hstep⟩ |
        ⟨hf, hdrop, hconsecutive, hbuf, hstep⟩ :=
      @Conduit.defragment_cases { conduit with snRx := msg.sn } patch hpatch cfg.fragMaxSize
        (snConsecutive cfg.snRes conduit.snRx msg.sn) msg
    · rw [hstep]
      exact ⟨next, none, rfl, hnextsn.trans hmsgsn, ⟨fun _ ↦ hnil, .inr (.inl hnil)⟩,
        fun e he ↦ by cases he⟩
    · -- the first fragment of a unit starts from the emptied buffer
      obtain rfl : k = 0 := by
        rw [hfirst] at hf
        exact beq_iff_eq.mp hf
      rw [hstep]
      have hempty : ({ snRx := msg.sn, dbuf := [], state := conduit.state } : Conduit).Sound :=
        fun _ ↦ rfl
      obtain ⟨next, event, habsorb, hnextsn, hnext, hevent⟩ :=
        Assembling.absorb hpiece hmsg hdrop hempty rfl cfg.fragMaxSize
      exact ⟨next, event, habsorb, hnextsn.trans hmsgsn, hnext, hevent⟩
    · -- a later fragment continues the unit whose prefix the buffer holds
      have hk0 : k ≠ 0 := by
        rw [hfirst] at hf
        exact beq_eq_false_iff_ne.mp hf
      have hnext := hcons.mp hconsecutive
      rw [hstep]
      obtain ⟨hsound, hover | hnil | hboundary | ⟨i', unit', k', hmark, hpiece', -, hdbuf⟩⟩ :=
        hassembling
      · rw [Conduit.absorb_overflown (by exact hover)]
        cases hmore : msg.more with
        | true =>
          exact ⟨_, none, rfl, hmsgsn, ⟨hsound.setSn _, .inl hover⟩, fun e he ↦ by cases he⟩
        | false =>
          exact ⟨_, none, rfl, hmsgsn, .clear _ _ _ _, fun e he ↦ by cases he⟩
      · exact absurd hnil hbuf
      · exact absurd (hboundary i (unit, k) hnext hpiece) hk0
      · obtain rfl : i = i' + 1 := by omega
        rcases follows_of_getElem? hpiece' hpiece with ⟨hu, hkk⟩ | ⟨hzero, -⟩
        · dsimp only at hu hkk
          subst hu hkk
          obtain ⟨next, event, habsorb, hnextsn, hnext, hevent⟩ :=
            Assembling.absorb hpiece hmsg hdrop (hsound.setSn msg.sn) hdbuf cfg.fragMaxSize
          exact ⟨next, event, habsorb, hnextsn.trans hmsgsn, hnext, hevent⟩
        · exact absurd hzero hk0

end Arrival

/-! ### A whole schedule -/

/-- What a peer can be after any part of a schedule on channel `r`. -/
structure PeerAssembling (windowed : Bool) (bits : ℕ) (r : Reliability) (units : List SentUnit)
    (start mark : ℤ) (peer : Peer reorderWindow) : Prop where
  marked : peer.Marked windowed bits r mark
  markers : patchHasFragmentMarkers peer.patch = true
  assembling : Assembling units start mark (peer.conduit r)

variable {peer : Peer reorderWindow}

/-- A frame of the sender keeps the peer assembling and hands out no reassembled bytes. -/
theorem PeerAssembling.frame {bits : ℕ} (h : IsResolution bits) {cfg : RxConfig}
    (hres : cfg.snRes = snMax bits) (hW : 0 < reorderWindow) {r : Reliability}
    {units : List SentUnit} {start mark : ℤ} {i : ℕ}
    (hpeer : PeerAssembling windowed bits r units start mark peer)
    (hclose : SerialNumber.Close (snRange bits) mark (start + i))
    (hpiece : (layout SentUnit.count units)[i]? = some piece) {payload : List UInt8}
    (hunit : piece.1 = .frame payload) :
    ∃ peer' event, handleFrame windowed cfg ⟨r, snAt bits (start + i), payload⟩ peer =
        (peer', event) ∧ PeerAssembling windowed bits r units start (max mark (start + i)) peer' ∧
      (event = none ∨ event = some (.frame r (snAt bits (start + i)) payload)) := by
  obtain ⟨hmarked, hmarkers, hassembling⟩ := hpeer
  rcases le_or_gt (start + i) mark with hle | hlt
  · obtain ⟨peer', event, hstep, hevent, hmarked', hpatch, hconduit⟩ :=
      handleFrame_behind h hres hW hmarked hclose hle payload
    refine ⟨peer', event, hstep, ⟨?_, hpatch ▸ hmarkers, ?_⟩, hevent⟩
    · rw [max_eq_left hle]
      exact hmarked'
    · rw [max_eq_left hle]
      rcases hconduit with hsame | hclear
      · rw [hsame]
        exact hassembling
      · rw [hclear]
        exact .clear _ _ _ _
  · obtain ⟨peer', hstep, hmarked', hpatch, hconduit⟩ :=
      handleFrame_ahead h hres hW hmarked hclose hlt payload
    refine ⟨peer', _, hstep, ⟨?_, hpatch ▸ hmarkers, ?_⟩, .inr rfl⟩
    · rw [max_eq_right hlt.le]
      exact hmarked'
    · rw [max_eq_right hlt.le, hconduit]
      refine ⟨hassembling.1.setSn _, .inr (.inr (.inl ?_))⟩
      -- a frame is a unit of its own: what follows it begins another one
      intro j next hj hnext
      obtain rfl : j = i + 1 := by omega
      obtain ⟨hmem, hcount⟩ := mem_layout.mp (mem_of_getElem? hnext)
      rcases follows_of_getElem? hpiece hnext with ⟨hsame, hsucc⟩ | ⟨hzero, -⟩
      · rw [hsame, hunit, hsucc] at hcount
        dsimp only [SentUnit.count] at hcount
        omega
      · exact hzero

/-- A fragment of the sender keeps the peer assembling and hands out complete messages only. -/
theorem PeerAssembling.fragment {bits : ℕ} (h : IsResolution bits) {cfg : RxConfig}
    (hres : cfg.snRes = snMax bits) {r : Reliability} {units : List SentUnit} {start mark : ℤ}
    {i : ℕ} (hpeer : PeerAssembling windowed bits r units start mark peer)
    (hclose : SerialNumber.Close (snRange bits) mark (start + i))
    (hpiece : (layout SentUnit.count units)[i]? = some piece)
    (hmsg : SentUnit.message r (snAt bits (start + i)) piece = .fragment msg) :
    ∃ peer' event, handleFragment cfg msg peer = (peer', event) ∧
      PeerAssembling windowed bits r units start (max mark (start + i)) peer' ∧
      ∀ e, event = some e → ∃ chunks, .fragmented chunks ∈ units ∧
        e = .reassembled r chunks.flatten := by
  obtain ⟨hmarked, hmarkers, hassembling⟩ := hpeer
  obtain ⟨hr, hmsgsn, -⟩ := fragment_of_piece
    (mem_layout.mp (mem_of_getElem? hpiece)).2 hmsg
  obtain ⟨next, event, hstep, hnextsn, hnext, hevent⟩ :=
    hassembling.fragment h hres hmarkers hmarked.1 hclose hpiece hmsg
  obtain ⟨hconduit, hout, hpatch⟩ := handleFragment_conduit cfg msg peer
  rw [hr, hstep] at hconduit hout
  exact ⟨(handleFragment cfg msg peer).1, event, Prod.ext rfl hout,
    ⟨handleFragment_marked h hres hmarked hclose hr hmsgsn, by rw [hpatch]; exact hmarkers,
      by rw [hconduit]; exact hnext⟩, hevent⟩

/-- Over every schedule, only complete messages of the sender come out of the buffer. -/
theorem PeerAssembling.receiveAll {kind : PeerKind} {bits : ℕ} (h : IsResolution bits)
    {cfg : RxConfig} (hres : cfg.snRes = snMax bits) (hW : 0 < reorderWindow) {r : Reliability}
    {units : List SentUnit} {start mark : ℤ} {schedule : List ℕ}
    (hschedule : Schedulable bits units start mark schedule)
    (hpeer : PeerAssembling (kind.windowed cfg.link) bits r units start mark peer)
    {r' : Reliability} {bytes : List UInt8} (hout : .reassembled r' bytes ∈
      (receiveAll kind cfg (arrivals bits r units start schedule) peer).2) :
    r' = r ∧ ∃ chunks, .fragmented chunks ∈ units ∧ bytes = chunks.flatten := by
  induction schedule generalizing mark peer with
  | nil => cases hout
  | cons i rest ih =>
    obtain ⟨hi, hclose, hrest⟩ := hschedule
    obtain ⟨piece, hpiece⟩ : ∃ piece, (layout SentUnit.count units)[i]? = some piece :=
      ⟨_, List.getElem?_eq_getElem hi⟩
    have harrivals : arrivals bits r units start (i :: rest) =
        SentUnit.message r (snAt bits (start + i)) piece :: arrivals bits r units start rest := by
      unfold arrivals
      rw [filterMap_cons, hpiece]
      rfl
    rw [harrivals] at hout
    dsimp only [ZenohPico.Transport.receiveAll] at hout
    rw [mem_append] at hout
    cases hmsg : SentUnit.message r (snAt bits (start + i)) piece with
    | frame msg =>
      rw [hmsg, receive_frame] at hout
      obtain ⟨payload, hunit, rfl⟩ := frame_of_piece hmsg
      obtain ⟨peer', event, hstep, hpeer', hevent⟩ :=
        hpeer.frame h hres hW hclose hpiece hunit
      rw [hstep] at hout
      rcases hout with hnow | hlater
      · rcases hevent with rfl | rfl
        · cases hnow
        · rw [mem_toList] at hnow
          cases hnow
      · exact ih hrest hpeer' hlater
    | fragment msg =>
      rw [hmsg, receive_fragment] at hout
      obtain ⟨peer', event, hstep, hpeer', hevent⟩ := hpeer.fragment h hres hclose hpiece hmsg
      rw [hstep] at hout
      rcases hout with hnow | hlater
      · rw [mem_toList] at hnow
        obtain ⟨chunks, hchunks, heq⟩ := hevent _ hnow
        obtain ⟨rfl, rfl⟩ := RxEvent.reassembled.inj heq
        exact ⟨rfl, chunks, hchunks, rfl⟩
      · exact ih hrest hpeer' hlater

/-- Whatever a unicast or multicast peer with markers decodes out of its reassembly buffer, over
every schedule of an honest sender's frames and fragments with losses, duplications and
reorderings within half the range, is the complete encoding of one message of the sender. -/
theorem reassembled_complete {kind : PeerKind} {bits : ℕ} (h : IsResolution bits)
    {cfg : RxConfig} (hres : cfg.snRes = snMax bits) (hW : 0 < reorderWindow) (r : Reliability)
    {units : List SentUnit} {start mark : ℤ} {schedule : List ℕ}
    (hschedule : Schedulable bits units start mark schedule)
    {snReliable snBestEffort : UInt64} {patch : ℕ}
    (hmark : ((Peer.fresh reorderWindow snReliable snBestEffort patch).conduit r).snRx =
      snAt bits mark)
    (hpatch : patchHasFragmentMarkers patch = true) {r' : Reliability} {bytes : List UInt8}
    (hout : .reassembled r' bytes ∈
      (receiveAll kind cfg (arrivals bits r units start schedule)
        (Peer.fresh reorderWindow snReliable snBestEffort patch)).2) :
    r' = r ∧ ∃ chunks, .fragmented chunks ∈ units ∧ bytes = chunks.flatten := by
  refine PeerAssembling.receiveAll h hres hW hschedule ⟨⟨hmark, ?_⟩, hpatch, ?_⟩ hout
  · rintro rfl -
    exact hmark
  · cases r <;> exact ⟨fun _ ↦ rfl, .inr (.inl rfl)⟩

/-- Two messages of two fragments, with a frame between them. -/
def sampleUnits : List SentUnit :=
  [.fragmented [[1], [2]], .frame [9], .fragmented [[3], [4]]]

/-- The second fragment is lost, and the frame arrives twice. -/
def sampleSchedule : List ℕ := [0, 2, 2, 3, 4]

theorem reassembled_complete_sample : RxEvent.reassembled .reliable [3, 4] ∈
        (receiveAll .unicast defaultRxConfig
          (arrivals 0x02 .reliable sampleUnits 1 sampleSchedule)
          (Peer.fresh 256 0 0 1)).2 ∧ (Reliability.reliable = .reliable ∧
        ∃ chunks, .fragmented chunks ∈ sampleUnits ∧ [3, 4] = chunks.flatten) := by
  have hout : RxEvent.reassembled .reliable [3, 4] ∈
      (receiveAll .unicast defaultRxConfig
        (arrivals 0x02 .reliable sampleUnits 1 sampleSchedule) (Peer.fresh 256 0 0 1)).2 := by
    decide
  have hschedule : Schedulable 0x02 sampleUnits 1 0 sampleSchedule := by decide
  exact ⟨hout, reassembled_complete (by decide) rfl (by decide) .reliable hschedule (by decide)
    (by decide) hout⟩

/-- Without markers the fragments of two messages are joined: the peer is the one a listening
node creates after its handshake, which leaves the patch at zero. -/
theorem reassembled_joined : Schedulable 0x02 sampleUnits 1 0 [0, 2, 3, 4] ∧
      RxEvent.reassembled .reliable [1, 3, 4] ∈
        (receiveAll .unicast defaultRxConfig
          (arrivals 0x02 .reliable sampleUnits 1 [0, 2, 3, 4])
          (transportPeerUnicastAdd 256 (snMax 0x02) 1 0)).2 ∧
      ¬ ∃ chunks, .fragmented chunks ∈ sampleUnits ∧ [1, 3, 4] = chunks.flatten := by
  refine ⟨by decide, by decide, ?_⟩
  rintro ⟨chunks, hmem, heq⟩
  simp only [sampleUnits, mem_cons, SentUnit.fragmented.injEq, reduceCtorEq, false_or,
    not_mem_nil, or_false] at hmem
  rcases hmem with rfl | rfl <;> cases heq

end ZenohPico.Transport
