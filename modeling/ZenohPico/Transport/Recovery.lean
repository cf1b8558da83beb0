import ZenohPico.Transport.Receive

/-!
Recovery of the reassembly buffer.

A complete run of consecutively numbered fragments arrives at a peer in an arbitrary
reachable state. The run comes out as its message exactly when the residue of what came
before does not get in its way: the channel is not stuck in an overflow, and no older
partial message is dropped together with the first fragment of the new one.
-/

open List Option

namespace ZenohPico.Transport

variable {reorderWindow : ℕ}

/-! ### Runs of fragments and reachable peers -/

/-- The fragments of one message cut into `chunks`, numbered from `sn` on. -/
def fragmentRun (r : Reliability) (snRes : UInt64) : Bool → UInt64 → List (List UInt8) →
    List Fragment
  | _, _, [] => []
  | first, sn, chunk :: rest =>
    { reliability := r, more := !rest.isEmpty, sn := sn, payload := chunk, first := first,
      drop := false } :: fragmentRun r snRes false (snIncrement snRes sn) rest

/-- The states of a peer after any frames and fragments, and on a multicast transport any JOINs
that keep the peer. -/
inductive Reachable (kind : PeerKind) (cfg : RxConfig) : Peer reorderWindow → Prop where
  | fresh (snReliable snBestEffort : UInt64) (patch : ℕ) :
    Reachable kind cfg (Peer.fresh reorderWindow snReliable snBestEffort patch)
  | receive (msg : RxMessage) {peer : Peer reorderWindow} (hpeer : Reachable kind cfg peer) :
    Reachable kind cfg (receive kind cfg msg peer).1
  | join (joinCfg : JoinConfig) (msg : Join) {peer peer' : Peer reorderWindow}
    (hpeer : Reachable kind cfg peer) (hkind : kind = .multicast)
    (hjoin : multicastHandleJoin joinCfg msg (some peer) = some peer') : Reachable kind cfg peer'

/-- A channel without a buffer holds no bytes. -/
def Conduit.Sound (conduit : Conduit) : Prop := conduit.state = .null → conduit.dbuf = []

theorem Conduit.clear_sound (conduit : Conduit) : conduit.clear.Sound := fun _ ↦ rfl

variable {conduit : Conduit}

theorem Conduit.Sound.setSn (h : conduit.Sound) (sn : UInt64) :
    ({ conduit with snRx := sn } : Conduit).Sound := h

theorem Conduit.allocate_state (conduit : Conduit) : conduit.allocate.state ≠ .null := by
  unfold allocate
  split
  · simp
  · assumption

theorem Conduit.fill_state (h : conduit.state ≠ .null) (fragMaxSize : ℕ) (payload : List UInt8) :
    (conduit.fill fragMaxSize payload).state ≠ .null := by
  unfold fill
  split_ifs
  · simp
  · exact h
  · exact h

theorem Conduit.absorb_sound (conduit : Conduit) (fragMaxSize : ℕ) (msg : Fragment) :
    (conduit.absorb fragMaxSize msg).1.Sound := by
  unfold absorb complete
  split_ifs
  · exact fun hnull ↦ absurd hnull (fill_state conduit.allocate_state _ _)
  · exact clear_sound _
  · exact clear_sound _

theorem Conduit.defragment_sound (h : conduit.Sound) (fragMaxSize patch : ℕ) (consecutive : Bool)
    (msg : Fragment) : (conduit.defragment fragMaxSize patch consecutive msg).1.Sound := by
  unfold defragment
  split_ifs
  · exact clear_sound _
  · exact fun _ ↦ rfl
  · exact absorb_sound _ _ _
  · exact h
  · exact fun _ ↦ rfl
  · exact absorb_sound _ _ _
  · exact absorb_sound _ _ _

theorem Conduit.fragment_sound (h : conduit.Sound) (cfg : RxConfig) (patch : ℕ) (msg : Fragment) :
    (conduit.fragment cfg patch msg).1.Sound := by
  unfold fragment
  split
  · exact defragment_sound (h.setSn msg.sn) _ _ _ _
  · exact clear_sound _

variable {peer : Peer reorderWindow}

theorem handleFrame_sound (windowed : Bool) (cfg : RxConfig) (msg : Frame)
    (h : ∀ r, (peer.conduit r).Sound) (r : Reliability) :
    ((handleFrame windowed cfg msg peer).1.conduit r).Sound := by
  have hreliable := h .reliable
  have hbestEffort := h .bestEffort
  unfold handleFrame
  cases msg.reliability <;> dsimp only
  · split <;> cases r <;> first | exact hreliable | exact hbestEffort | exact fun _ ↦ rfl
  · split
    · cases (peer.bestEffortWindow.observe cfg.snRes msg.sn).2 <;> cases r <;>
        first | exact hreliable | exact hbestEffort
    · split <;> cases r <;> first | exact hreliable | exact hbestEffort | exact fun _ ↦ rfl

/-- In every reachable state a channel without a buffer holds no bytes. -/
theorem Reachable.sound {kind : PeerKind} {cfg : RxConfig} (h : Reachable kind cfg peer)
    (r : Reliability) : (peer.conduit r).Sound := by
  induction h generalizing r with
  | fresh snReliable snBestEffort patch => cases r <;> exact fun _ ↦ rfl
  | @receive msg peer hpeer ih =>
    cases msg with
    | frame msg =>
      rw [receive_frame]
      exact handleFrame_sound _ cfg msg ih r
    | fragment msg =>
      rw [receive_fragment]
      by_cases hr : r = msg.reliability
      · rw [hr, (handleFragment_conduit cfg msg peer).1]
        exact Conduit.fragment_sound (ih _) cfg _ msg
      · rw [handleFragment_other cfg msg peer hr]
        exact ih r
  | join joinCfg msg hpeer hkind hjoin ih =>
    unfold multicastHandleJoin at hjoin
    dsimp only at hjoin
    split_ifs at hjoin <;> simp only [some.injEq] at hjoin <;> subst hjoin
    · exact ih r
    · cases r
      · exact ih .reliable
      · exact ih .bestEffort

/-! ### A run of fragments on its channel -/

/-- The fragments of a list, received one after the other on their channel. -/
def Conduit.fragments (cfg : RxConfig) (patch : ℕ) :
    List Fragment → Conduit → Conduit × List RxEvent
  | [], conduit => (conduit, [])
  | msg :: rest, conduit =>
    let step := conduit.fragment cfg patch msg
    let after := Conduit.fragments cfg patch rest step.1
    (after.1, step.2.toList ++ after.2)

/-- A list of fragments of one channel acts on that channel alone. -/
theorem receiveAll_fragments (kind : PeerKind) (cfg : RxConfig) {r : Reliability}
    {msgs : List Fragment} (hmsgs : ∀ msg ∈ msgs, msg.reliability = r)
    (peer : Peer reorderWindow) : (receiveAll kind cfg (msgs.map .fragment) peer).2 =
      (Conduit.fragments cfg peer.patch msgs (peer.conduit r)).2 := by
  induction msgs generalizing peer with
  | nil => rfl
  | cons msg rest ih =>
    have hr : msg.reliability = r := hmsgs msg mem_cons_self
    obtain ⟨hconduit, hevent, hpatch⟩ := handleFragment_conduit cfg msg peer
    rw [map_cons, receiveAll, Conduit.fragments]
    dsimp only
    rw [receive_fragment, hevent, ih fun m hm ↦ hmsgs m (mem_cons_of_mem _ hm), hpatch,
      ← hr, hconduit]

variable {msg : Fragment}

theorem reliability_of_mem_fragmentRun {r : Reliability} {snRes : UInt64} {first : Bool}
    {sn : UInt64} {chunks : List (List UInt8)} (h : msg ∈ fragmentRun r snRes first sn chunks) :
    msg.reliability = r := by
  induction chunks generalizing first sn with
  | nil => cases h
  | cons chunk rest ih =>
    rcases mem_cons.mp h with rfl | h
    · rfl
    · exact ih h

section Tail

variable {bits : ℕ} {cfg : RxConfig} {r : Reliability} {patch : ℕ}

/-- The fragment that continues a run directly reaches the reassembly buffer. -/
theorem Conduit.fragment_next (h : IsResolution bits) (hres : cfg.snRes = snMax bits)
    (conduit : Conduit) (hsn : msg.sn = snIncrement cfg.snRes conduit.snRx) :
    conduit.fragment cfg patch msg =
      ({ conduit with snRx := msg.sn } : Conduit).defragment cfg.fragMaxSize patch true msg := by
  unfold fragment
  rw [hsn, hres, if_pos (snPrecedes_increment h _), snConsecutive_increment h]

/-- A peer with markers ignores the rest of a run whose buffer is empty. -/
theorem Conduit.fragments_starved (h : IsResolution bits) (hres : cfg.snRes = snMax bits)
    (hpatch : patchHasFragmentMarkers patch = true) (rest : List (List UInt8))
    {conduit : Conduit} (hempty : conduit.dbuf = []) : (Conduit.fragments cfg patch
      (fragmentRun r cfg.snRes false (snIncrement cfg.snRes conduit.snRx) rest) conduit).2 =
      [] := by
  induction rest generalizing conduit with
  | nil => rfl
  | cons chunk rest ih =>
    have hstep : conduit.fragment cfg patch ⟨r, !rest.isEmpty, snIncrement cfg.snRes conduit.snRx,
        chunk, false, false⟩ =
          ({ conduit with snRx := snIncrement cfg.snRes conduit.snRx }, none) := by
      rw [fragment_next h hres conduit rfl]
      unfold defragment
      simp only [Bool.not_true, Bool.false_and, Bool.false_eq_true, ↓reduceIte, hpatch, hempty,
        length_nil]
    rw [fragmentRun, fragments, hstep]
    exact @ih { conduit with snRx := snIncrement cfg.snRes conduit.snRx } hempty

theorem Conduit.absorb_overflown (hstate : conduit.state = .overflow) (fragMaxSize : ℕ)
    (msg : Fragment) :
    conduit.absorb fragMaxSize msg = (if msg.more then conduit else conduit.clear, none) := by
  have hallocate : conduit.allocate = conduit := by
    unfold allocate
    rw [hstate, if_neg (by simp)]
  have hfill : conduit.fill fragMaxSize msg.payload = conduit := by
    unfold fill
    rw [hstate, if_neg (by simp)]
  unfold absorb complete
  rw [hallocate, hfill, hstate, if_pos rfl]
  split <;> rfl

/-- The rest of a run delivers nothing after an overflow. -/
theorem Conduit.fragments_overflown (h : IsResolution bits) (hres : cfg.snRes = snMax bits)
    (rest : List (List UInt8)) {conduit : Conduit} (hstate : conduit.state = .overflow) :
    (Conduit.fragments cfg patch
      (fragmentRun r cfg.snRes false (snIncrement cfg.snRes conduit.snRx) rest) conduit).2 =
      [] := by
  induction rest generalizing conduit with
  | nil => rfl
  | cons chunk rest ih =>
    obtain ⟨next, hstep, hnext⟩ : ∃ next, conduit.fragment cfg patch ⟨r, !rest.isEmpty,
        snIncrement cfg.snRes conduit.snRx, chunk, false, false⟩ = (next, none) ∧
          (rest ≠ [] → next.state = .overflow ∧
            next.snRx = snIncrement cfg.snRes conduit.snRx) := by
      rw [fragment_next h hres conduit rfl]
      unfold defragment
      simp only [Bool.not_true, Bool.false_and, Bool.false_eq_true, ↓reduceIte]
      rw [absorb_overflown (by exact hstate)]
      cases rest with
      | nil => split_ifs <;> exact ⟨_, rfl, fun hne ↦ absurd rfl hne⟩
      | cons =>
        simp only [isEmpty_cons, Bool.not_false, ↓reduceIte]
        split_ifs <;> exact ⟨_, rfl, fun _ ↦ ⟨hstate, rfl⟩⟩
    rw [fragmentRun, fragments, hstep]
    cases rest with
    | nil => rfl
    | cons next rest =>
      obtain ⟨hover, hsn⟩ := hnext (cons_ne_nil _ _)
      have hrest := ih hover
      rw [← hsn]
      exact hrest

/-- Neither does a fragment that reaches the buffer then. -/
theorem Conduit.fragments_absorbed_overflown (h : IsResolution bits) (hres : cfg.snRes = snMax bits)
    (rest : List (List UInt8)) {conduit : Conduit} (hstate : conduit.state = .overflow)
    (chunk : List UInt8) (start : Bool) :
    let absorbed := conduit.absorb cfg.fragMaxSize
      ⟨r, !rest.isEmpty, conduit.snRx, chunk, start, false⟩
    absorbed.2.toList ++ (Conduit.fragments cfg patch (fragmentRun r cfg.snRes false
      (snIncrement cfg.snRes conduit.snRx) rest) absorbed.1).2 = [] := by
  dsimp only
  rw [absorb_overflown hstate]
  cases rest with
  | nil => rfl
  | cons next rest => exact fragments_overflown h hres (next :: rest) hstate

theorem Conduit.allocate_eq (hsound : conduit.Sound) (hstate : conduit.state ≠ .overflow) :
    conduit.allocate = { conduit with state := .init } := by
  obtain ⟨snRx, dbuf, state⟩ := conduit
  unfold allocate
  cases state with
  | null =>
    obtain rfl : dbuf = [] := hsound rfl
    rfl
  | init => rfl
  | overflow => exact absurd rfl hstate

variable {fragMaxSize : ℕ}

/-- Fragment data that fits is appended, and completes the message on the last fragment. -/
theorem Conduit.absorb_fits (hsound : conduit.Sound) (hstate : conduit.state ≠ .overflow)
    (hfits : conduit.dbuf.length + msg.payload.length ≤ fragMaxSize) :
    conduit.absorb fragMaxSize msg =
      if msg.more then ({ conduit with dbuf := conduit.dbuf ++ msg.payload, state := .init }, none)
      else (conduit.clear, some (.reassembled msg.reliability (conduit.dbuf ++ msg.payload))) := by
  unfold absorb complete fill
  rw [allocate_eq hsound hstate]
  simp only [↓reduceIte, if_neg (Nat.not_lt.mpr hfits), reduceCtorEq]
  rfl

/-- Fragment data that does not fit overflows the channel, or drops the message when it was
its last. -/
theorem Conduit.absorb_exceeds (hsound : conduit.Sound) (hstate : conduit.state ≠ .overflow)
    (hexceeds : fragMaxSize < conduit.dbuf.length + msg.payload.length) :
    conduit.absorb fragMaxSize msg =
      if msg.more then ({ conduit with state := .overflow }, none) else (conduit.clear, none) := by
  unfold absorb complete fill
  rw [allocate_eq hsound hstate]
  simp only [↓reduceIte, if_pos hexceeds]
  rfl

/-- The continuation of a run reaches the buffer of a peer with markers as soon as the buffer is
not empty, and of a peer without markers always. -/
theorem Conduit.fragment_continues (h : IsResolution bits) (hres : cfg.snRes = snMax bits)
    (hopen : patchHasFragmentMarkers patch = true → conduit.dbuf ≠ []) (more : Bool)
    (chunk : List UInt8) : conduit.fragment cfg patch
        ⟨r, more, snIncrement cfg.snRes conduit.snRx, chunk, false, false⟩ =
      ({ conduit with snRx := snIncrement cfg.snRes conduit.snRx } : Conduit).absorb
        cfg.fragMaxSize
        ⟨r, more, snIncrement cfg.snRes conduit.snRx, chunk, false, false⟩ := by
  rw [fragment_next h hres conduit rfl]
  unfold defragment
  simp only [Bool.not_true, Bool.false_and, Bool.false_eq_true, ↓reduceIte]
  cases hpatch : patchHasFragmentMarkers patch with
  | false => rfl
  | true =>
    have hne : ¬ conduit.dbuf.length = 0 := fun hzero ↦
      hopen hpatch (length_eq_zero_iff.mp hzero)
    simp only [↓reduceIte, if_neg hne]

/-- A fragment that reaches the buffer and the rest of its run come out behind the bytes already
buffered, if all of it fits; they never come out otherwise. The induction is on the rest of the run,
each fragment of which reaches the buffer that the one before it leaves. -/
theorem Conduit.fragments_absorbed (h : IsResolution bits) (hres : cfg.snRes = snMax bits)
    (rest : List (List UInt8)) {conduit : Conduit} (hsound : conduit.Sound)
    (hstate : conduit.state ≠ .overflow) (chunk : List UInt8)
    (hopen : patchHasFragmentMarkers patch = true → rest ≠ [] → conduit.dbuf ++ chunk ≠ [])
    (start : Bool) :
    let absorbed := conduit.absorb cfg.fragMaxSize
      ⟨r, !rest.isEmpty, conduit.snRx, chunk, start, false⟩
    absorbed.2.toList ++ (Conduit.fragments cfg patch (fragmentRun r cfg.snRes false
      (snIncrement cfg.snRes conduit.snRx) rest) absorbed.1).2 =
        if conduit.dbuf.length + (chunk :: rest).flatten.length ≤ cfg.fragMaxSize then
          [.reassembled r (conduit.dbuf ++ (chunk :: rest).flatten)]
        else [] := by
  dsimp only
  induction rest generalizing conduit chunk start with
  | nil =>
    rcases le_or_gt (conduit.dbuf.length + chunk.length) cfg.fragMaxSize with hfits | hexceeds
    · rw [absorb_fits hsound hstate hfits]
      simp [fragmentRun, fragments, hfits]
    · rw [absorb_exceeds hsound hstate hexceeds]
      simp [fragmentRun, fragments, Nat.not_le_of_lt hexceeds]
  | cons next rest ih =>
    rcases le_or_gt (conduit.dbuf.length + chunk.length) cfg.fragMaxSize with hfits | hexceeds
    · have hbuf : patchHasFragmentMarkers patch = true → conduit.dbuf ++ chunk ≠ [] :=
        fun hpatch ↦ hopen hpatch (cons_ne_nil _ _)
      rw [absorb_fits hsound hstate hfits]
      simp only [isEmpty_cons, Bool.not_false, ↓reduceIte, toList_none, nil_append]
      rw [fragmentRun, fragments, fragment_continues h hres (by exact hbuf)]
      have hrec := @ih
        { snRx := snIncrement cfg.snRes conduit.snRx
          dbuf := conduit.dbuf ++ chunk
          state := .init }
        (fun hnull ↦ by cases hnull) (by simp) next
        (fun hpatch _ hnil ↦ hbuf hpatch (append_eq_nil_iff.mp hnil).1) false
      refine hrec.trans ?_
      simp only [flatten_cons, length_append, append_assoc, Nat.add_assoc]
    · have hlong : ¬ conduit.dbuf.length + (chunk :: next :: rest).flatten.length ≤
          cfg.fragMaxSize := by
        rw [flatten_cons, length_append]
        omega
      rw [absorb_exceeds hsound hstate hexceeds, if_neg hlong]
      exact @fragments_overflown bits cfg r patch h hres (next :: rest)
        { snRx := conduit.snRx, dbuf := conduit.dbuf, state := .overflow } rfl

/-- The rest of a run comes out behind the bytes already buffered, if all of it fits; it never
comes out otherwise. -/
theorem Conduit.fragments_filling (h : IsResolution bits) (hres : cfg.snRes = snMax bits)
    (rest : List (List UInt8)) (hrest : rest ≠ []) {conduit : Conduit} (hsound : conduit.Sound)
    (hstate : conduit.state ≠ .overflow)
    (hopen : patchHasFragmentMarkers patch = true → conduit.dbuf ≠ []) :
    (Conduit.fragments cfg patch
      (fragmentRun r cfg.snRes false (snIncrement cfg.snRes conduit.snRx) rest) conduit).2 =
      if conduit.dbuf.length + rest.flatten.length ≤ cfg.fragMaxSize then
        [.reassembled r (conduit.dbuf ++ rest.flatten)]
      else [] := by
  cases rest with
  | nil => exact absurd rfl hrest
  | cons chunk rest =>
    rw [fragmentRun, fragments, fragment_continues h hres hopen]
    exact @fragments_absorbed bits cfg r patch h hres rest
      { conduit with snRx := snIncrement cfg.snRes conduit.snRx } hsound hstate chunk
      (fun hpatch _ hnil ↦ hopen hpatch (append_eq_nil_iff.mp hnil).1) false

end Tail

/-! ### The first fragment -/

/-- What a channel must look like for a run to come out of it. With markers, the channel is not
in an overflow, its buffer is empty or the run follows the last number directly, and the first
fragment is not empty unless it is the whole run. Without markers the buffer must be empty; an
older partial message is only harmless when dropping it costs an empty first fragment. -/
def Conduit.Receptive (conduit : Conduit) (patch : ℕ) (consecutive : Bool)
    (chunks : List (List UInt8)) : Prop :=
  if patchHasFragmentMarkers patch then
    conduit.state ≠ .overflow ∧ (conduit.dbuf = [] ∨ consecutive = true) ∧
      (chunks.head? ≠ some [] ∨ chunks.length = 1)
  else if conduit.dbuf = [] then conduit.state ≠ .overflow
  else consecutive = false ∧ chunks.head? = some [] ∧ chunks.length ≠ 1

instance (conduit : Conduit) (patch : ℕ) (consecutive : Bool) (chunks : List (List UInt8)) :
    Decidable (conduit.Receptive patch consecutive chunks) :=
  inferInstanceAs (Decidable (ite _ _ _))

section Head

variable {bits : ℕ} {cfg : RxConfig} {r : Reliability} {patch : ℕ} {sn : UInt64}

theorem Conduit.fragment_ahead (hahead : snPrecedes cfg.snRes conduit.snRx msg.sn = true) :
    conduit.fragment cfg patch msg =
      ({ conduit with snRx := msg.sn } : Conduit).defragment cfg.fragMaxSize patch
        (snConsecutive cfg.snRes conduit.snRx msg.sn) msg := by
  unfold fragment
  rw [if_pos hahead]

/-- A run that lands on an older partial message loses its first fragment with it. -/
theorem Conduit.fragments_gap (h : IsResolution bits) (hres : cfg.snRes = snMax bits)
    {conduit : Conduit} (hahead : snPrecedes cfg.snRes conduit.snRx sn = true)
    (hgap : snConsecutive cfg.snRes conduit.snRx sn = false) (hbuf : conduit.dbuf ≠ [])
    (chunk : List UInt8) (rest : List (List UInt8))
    (hsize : rest.flatten.length ≤ cfg.fragMaxSize) :
    (Conduit.fragments cfg patch (fragmentRun r cfg.snRes true sn (chunk :: rest)) conduit).2 =
      if patchHasFragmentMarkers patch = false ∧ rest ≠ [] then [.reassembled r rest.flatten]
      else [] := by
  have hlen : 0 < conduit.dbuf.length := length_pos_iff.mpr hbuf
  have hstep : conduit.fragment cfg patch ⟨r, !rest.isEmpty, sn, chunk, true, false⟩ =
      (({ conduit with snRx := sn } : Conduit).clear, none) := by
    rw [fragment_ahead (by exact hahead)]
    unfold defragment
    simp only [hgap, Bool.not_false, Bool.true_and, decide_eq_true hlen, ↓reduceIte]
  rw [fragmentRun, fragments, hstep]
  cases hpatch : patchHasFragmentMarkers patch with
  | true =>
    rw [if_neg (by simp)]
    exact @fragments_starved bits cfg r patch h hres hpatch rest
      ({ conduit with snRx := sn } : Conduit).clear rfl
  | false =>
    cases rest with
    | nil => rfl
    | cons next rest =>
      have hfill := @fragments_filling bits cfg r patch h hres (next :: rest)
        (cons_ne_nil _ _) ({ conduit with snRx := sn } : Conduit).clear
        (clear_sound _) (by simp [clear]) (by simp [hpatch])
      have hfits : ({ conduit with snRx := sn } : Conduit).clear.dbuf.length +
          (next :: rest).flatten.length ≤ cfg.fragMaxSize := by
        simpa [clear] using hsize
      rw [if_pos hfits] at hfill
      rw [if_pos ⟨rfl, cons_ne_nil _ _⟩]
      exact hfill

theorem Conduit.no_gap {consecutive : Bool} (hstart : conduit.dbuf = [] ∨ consecutive = true) :
    (!consecutive && decide (0 < conduit.dbuf.length)) = false := by
  rcases hstart with hnil | hcons
  · simp [hnil]
  · simp [hcons]

/-- A first fragment that is accepted reaches the buffer, which a peer with markers empties. -/
theorem Conduit.fragment_first (hahead : snPrecedes cfg.snRes conduit.snRx sn = true)
    (hstart : conduit.dbuf = [] ∨ snConsecutive cfg.snRes conduit.snRx sn = true) (more : Bool)
    (chunk : List UInt8) : conduit.fragment cfg patch ⟨r, more, sn, chunk, true, false⟩ =
      ({ snRx := sn
         dbuf := if patchHasFragmentMarkers patch then [] else conduit.dbuf
         state := conduit.state } : Conduit).absorb cfg.fragMaxSize
        ⟨r, more, sn, chunk, true, false⟩ := by
  rw [fragment_ahead (by exact hahead)]
  unfold defragment
  simp only [no_gap hstart, Bool.false_eq_true, ↓reduceIte]
  cases patchHasFragmentMarkers patch <;> rfl

/-- A run accepted by a peer with markers comes out whole, unless the channel is in an overflow
or starves on an empty first fragment. -/
theorem Conduit.fragments_marked (h : IsResolution bits) (hres : cfg.snRes = snMax bits)
    (hpatch : patchHasFragmentMarkers patch = true)
    (hahead : snPrecedes cfg.snRes conduit.snRx sn = true)
    (hstart : conduit.dbuf = [] ∨ snConsecutive cfg.snRes conduit.snRx sn = true)
    (chunk : List UInt8) (rest : List (List UInt8))
    (hsize : (chunk :: rest).flatten.length ≤ cfg.fragMaxSize) :
    (Conduit.fragments cfg patch (fragmentRun r cfg.snRes true sn (chunk :: rest)) conduit).2 =
      if conduit.state ≠ .overflow ∧ (chunk ≠ [] ∨ rest = []) then
        [.reassembled r (chunk :: rest).flatten]
      else [] := by
  rw [fragmentRun, fragments, fragment_first hahead hstart, if_pos hpatch]
  by_cases hstate : conduit.state = .overflow
  · have hdrop : ¬ (conduit.state ≠ .overflow ∧ (chunk ≠ [] ∨ rest = [])) :=
      fun hcond ↦ hcond.1 hstate
    rw [if_neg hdrop]
    exact @fragments_absorbed_overflown bits cfg r patch h hres rest
      { snRx := sn, dbuf := [], state := conduit.state } hstate chunk true
  · by_cases hkeep : chunk ≠ [] ∨ rest = []
    · have hrun := @fragments_absorbed bits cfg r patch h hres rest
        { snRx := sn, dbuf := [], state := conduit.state } (fun _ ↦ rfl) hstate chunk
        (fun _ hne ↦ hkeep.resolve_right hne) true
      rw [if_pos (by simpa using hsize)] at hrun
      rw [if_pos ⟨hstate, hkeep⟩]
      exact hrun
    · -- the empty first fragment leaves the buffer empty
      obtain ⟨hempty, hrest⟩ := not_or.mp hkeep
      obtain rfl := not_not.mp hempty
      obtain ⟨next, rest, rfl⟩ := exists_cons_of_ne_nil hrest
      rw [if_neg fun hcond ↦ hkeep hcond.2,
        absorb_fits (fun _ ↦ rfl) (by exact hstate) (Nat.zero_le _)]
      exact @fragments_starved bits cfg r patch h hres hpatch (next :: rest)
        { snRx := sn, dbuf := [], state := .init } rfl

/-- A run accepted by a peer without markers is appended to whatever the buffer holds. -/
theorem Conduit.fragments_unmarked (h : IsResolution bits) (hres : cfg.snRes = snMax bits)
    (hpatch : patchHasFragmentMarkers patch = false) (hsound : conduit.Sound)
    (hahead : snPrecedes cfg.snRes conduit.snRx sn = true)
    (hstart : conduit.dbuf = [] ∨ snConsecutive cfg.snRes conduit.snRx sn = true)
    (chunk : List UInt8) (rest : List (List UInt8)) :
    (Conduit.fragments cfg patch (fragmentRun r cfg.snRes true sn (chunk :: rest)) conduit).2 =
      if conduit.state ≠ .overflow ∧
          conduit.dbuf.length + (chunk :: rest).flatten.length ≤ cfg.fragMaxSize then
        [.reassembled r (conduit.dbuf ++ (chunk :: rest).flatten)]
      else [] := by
  rw [fragmentRun, fragments, fragment_first hahead hstart, if_neg (Bool.not_eq_true _ ▸ hpatch)]
  by_cases hstate : conduit.state = .overflow
  · have hdrop : ¬ (conduit.state ≠ .overflow ∧
        conduit.dbuf.length + (chunk :: rest).flatten.length ≤ cfg.fragMaxSize) :=
      fun hcond ↦ hcond.1 hstate
    rw [if_neg hdrop]
    exact @fragments_absorbed_overflown bits cfg r patch h hres rest
      { conduit with snRx := sn } hstate chunk true
  · simp only [ne_eq, hstate, not_false_eq_true, true_and]
    exact @fragments_absorbed bits cfg r patch h hres rest { conduit with snRx := sn } hsound hstate
      chunk (by simp [hpatch]) true

end Head

/-! ### Recovery -/

/-- From every reachable state of a unicast or multicast peer, a complete run of fragments of one
message that is ahead of everything seen is handed to the network decoder as that message,
exactly once and with nothing else, if and only if the channel is receptive. -/
theorem receive_fragmentRun_iff {kind : PeerKind} {cfg : RxConfig} {bits : ℕ}
    (h : IsResolution bits) (hres : cfg.snRes = snMax bits) {peer : Peer reorderWindow}
    (hpeer : Reachable kind cfg peer) (r : Reliability) {sn : UInt64}
    (hahead : snPrecedes cfg.snRes (peer.conduit r).snRx sn = true)
    {chunks : List (List UInt8)} (hne : chunks ≠ [])
    (hsize : chunks.flatten.length ≤ cfg.fragMaxSize) :
    (receiveAll kind cfg ((fragmentRun r cfg.snRes true sn chunks).map .fragment) peer).2 =
        [.reassembled r chunks.flatten] ↔
      (peer.conduit r).Receptive peer.patch (snConsecutive cfg.snRes (peer.conduit r).snRx sn)
        chunks := by
  have hsound := hpeer.sound r
  obtain ⟨chunk, rest, rfl⟩ := exists_cons_of_ne_nil hne
  have hrest : rest.flatten.length ≤ cfg.fragMaxSize := by
    rw [flatten_cons, length_append] at hsize
    omega
  rw [receiveAll_fragments kind cfg fun msg ↦ reliability_of_mem_fragmentRun]
  unfold Conduit.Receptive
  have hlength : (chunk :: rest).length = 1 ↔ rest = [] := by simp
  rw [List.head?_cons, hlength]
  by_cases hgap : snConsecutive cfg.snRes (peer.conduit r).snRx sn = false ∧
      (peer.conduit r).dbuf ≠ []
  · rw [Conduit.fragments_gap h hres hahead hgap.1 hgap.2 _ _ hrest]
    cases hpatch : patchHasFragmentMarkers peer.patch with
    | true => simp [hgap.1, hgap.2]
    | false =>
      by_cases hnil : rest = []
      · simp [hnil, hgap.2]
      · simp [hnil, hgap.1, hgap.2]
  · have hstart : (peer.conduit r).dbuf = [] ∨
        snConsecutive cfg.snRes (peer.conduit r).snRx sn = true := by
      by_cases hnil : (peer.conduit r).dbuf = []
      · exact .inl hnil
      · exact .inr (Bool.not_eq_false _ ▸ fun hfalse ↦ hgap ⟨hfalse, hnil⟩)
    cases hpatch : patchHasFragmentMarkers peer.patch with
    | true =>
      rw [Conduit.fragments_marked h hres hpatch hahead hstart _ _ hsize]
      simp only [↓reduceIte, ne_eq, some.injEq]
      split_ifs with hcond
      · simp only [true_iff]
        exact ⟨hcond.1, hstart, hcond.2⟩
      · simp only [false_iff]
        exact fun hrec ↦ hcond ⟨hrec.1, hrec.2.2⟩
    | false =>
      rw [Conduit.fragments_unmarked h hres hpatch hsound hahead hstart]
      rw [if_neg Bool.false_ne_true]
      by_cases hnil : (peer.conduit r).dbuf = []
      · rw [if_pos hnil, hnil]
        simp only [length_nil, zero_add, hsize, and_true, nil_append]
        split_ifs with hover
        · exact iff_of_true rfl hover
        · exact iff_of_false id hover
      · have hcons : snConsecutive cfg.snRes (peer.conduit r).snRx sn = true :=
          hstart.resolve_left hnil
        rw [if_neg hnil, hcons]
        -- the message comes out behind the bytes of the older one, or not at all
        refine iff_of_false ?_ fun hrec ↦ Bool.noConfusion hrec.1
        split_ifs
        · intro heq
          simp only [List.cons.injEq, RxEvent.reassembled.injEq, append_left_eq_self,
            and_true, true_and] at heq
          exact hnil heq
        · exact id

/-- The default build on a stream link, with 28-bit sequence numbers. -/
def defaultRxConfig : RxConfig where
  snRes := snMax 0x02
  fragMaxSize := 4096
  link := { datagram := false, webTransport := false }

/-- A unicast peer accepted with markers whose remote side starts numbering at one. -/
def markedPeer : Peer 256 := transportPeerUnicastAdd 256 (snMax 0x02) 1 1

/-- The same peer after the first fragment of a message whose second fragment is lost. -/
def interruptedPeer : Peer 256 :=
  (receive .unicast defaultRxConfig (.fragment ⟨.reliable, true, 1, [7], true, false⟩)
    markedPeer).1

theorem interruptedPeer_reachable : Reachable .unicast defaultRxConfig interruptedPeer :=
  .receive _ (.fresh _ _ _)

theorem receive_fragmentRun_sample : (receiveAll .unicast defaultRxConfig
        ((fragmentRun .reliable (snMax 0x02) true 2 [[1, 2], [3]]).map .fragment)
        interruptedPeer).2 = [.reassembled .reliable [1, 2, 3]] :=
  (@receive_fragmentRun_iff 256 .unicast defaultRxConfig 0x02 (by decide) rfl _
    interruptedPeer_reachable .reliable 2 (by decide) [[1, 2], [3]] (by decide) (by decide)).mpr
    (by decide)

/-- A message lost to the residue of its predecessor: fragments `3` and `4` are ahead of
everything seen and complete, and nothing is delivered. -/
theorem fragmentRun_discarded : Reachable .unicast defaultRxConfig interruptedPeer ∧
      snPrecedes (snMax 0x02) (interruptedPeer.conduit .reliable).snRx 3 = true ∧
      (receiveAll .unicast defaultRxConfig
        ((fragmentRun .reliable (snMax 0x02) true 3 [[1, 2], [3]]).map .fragment)
        interruptedPeer).2 = [] :=
  ⟨interruptedPeer_reachable, by decide, by decide⟩

end ZenohPico.Transport
