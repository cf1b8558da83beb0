import Mathlib.Algebra.Order.BigOperators.Group.Finset
import ZenohPico.Transport.Recovery
import ZenohPico.Transport.Send

/-!
Fragments as they are sent (`src/transport/common/tx.c`).

A fragment takes what its header leaves of a batch, and the header gets longer with the number of
the fragment and, in the first one, by the marker. A header that does not fit in a batch is an
error. One that fills the batch is not: the fragment is sent without a byte of the message, and the
loop goes on (`sendFragmentInner_iff`).
-/

open List hiding sum_range_succ'

namespace ZenohPico.Transport

open Foundations Protocol Finset

variable {Sock : Type} (cfg : TxConfig)

/-! ### One fragment -/

/-- The length of the header of a fragment -/
def fragmentHeaderLength (sn : UInt64) (first : Bool) : ℕ := 1 + zintLen sn + if first then 1 else 0

/-- Where the part of the message starts in the batch of a fragment -/
def fragmentStart (sn : UInt64) (first : Bool) : ℕ :=
  (if cfg.link.datagram then 0 else msgLenEncSize) + fragmentHeaderLength sn first

/-- The batch of a fragment -/
def Fragment.batch (msg : Fragment) : List UInt8 :=
  finalizeWbuf cfg (prepareWbuf cfg ++
    (fragmentHeaderWrites msg.sn msg.reliability (!msg.more) msg.first).flatten ++ msg.payload)

theorem length_fragmentHeaderWrites (r : Reliability) (sn : UInt64) (isLast first : Bool) :
    (fragmentHeaderWrites sn r isLast first).flatten.length = fragmentHeaderLength sn first := by
  have hmarker : (if first then [[(0x02 : UInt8)]] else []).flatten.length =
      if first then 1 else 0 := by cases first <;> rfl
  rw [fragmentHeaderWrites, fragmentHeaderLength, flatten_append, length_append, hmarker]
  simp only [flatten_cons, flatten_nil, append_nil, length_append,
    length_cons, length_nil, length_zint64Encode]

theorem length_prepareWbuf_add (sn : UInt64) (first : Bool) :
    (prepareWbuf cfg).length + fragmentHeaderLength sn first = fragmentStart cfg sn first := by
  unfold prepareWbuf fragmentStart
  split_ifs <;> rfl

theorem length_finalizeWbuf {wbuf : List UInt8} (h : (prepareWbuf cfg).length ≤ wbuf.length) :
    (finalizeWbuf cfg wbuf).length = wbuf.length := by
  unfold prepareWbuf at h
  unfold finalizeWbuf
  split_ifs at h ⊢
  · rfl
  · rw [length_append, batchFraming.length_encode, length_drop]
    simp only [batchFraming, msgLenEncSize, length_cons, length_nil] at h ⊢
    omega

/-- What follows the length of a batch is not touched when the length is put. -/
theorem drop_finalizeWbuf {wbuf : List UInt8} {n : ℕ} (hn : (prepareWbuf cfg).length ≤ n) :
    (finalizeWbuf cfg wbuf).drop n = wbuf.drop n := by
  unfold prepareWbuf at hn
  unfold finalizeWbuf
  split_ifs at hn ⊢
  · rfl
  · have hlen : (batchFraming.encode (wbuf.length - msgLenEncSize)).length = msgLenEncSize :=
      batchFraming.length_encode _
    have hle : msgLenEncSize ≤ n := hn
    rw [drop_append, drop_of_length_le (by omega), nil_append, hlen, drop_drop]
    congr 1
    omega

theorem length_batch (msg : Fragment) :
    (msg.batch cfg).length = fragmentStart cfg msg.sn msg.first + msg.payload.length := by
  unfold Fragment.batch
  rw [length_finalizeWbuf cfg (by rw [length_append, length_append]; omega),
    length_append, length_append, length_fragmentHeaderWrites, length_prepareWbuf_add]

/-- The part of the message is in the batch. -/
theorem drop_batch (msg : Fragment) :
    (msg.batch cfg).drop (fragmentStart cfg msg.sn msg.first) = msg.payload := by
  have hlen := length_prepareWbuf_add cfg msg.sn msg.first
  rw [← length_fragmentHeaderWrites msg.reliability msg.sn (!msg.more) msg.first] at hlen
  unfold Fragment.batch
  rw [drop_finalizeWbuf cfg (by omega), drop_append, length_append, hlen,
    drop_of_length_le (by rw [length_append, hlen]), Nat.sub_self, drop_zero, nil_append]

/-- A header that does not fit in a batch, after what is in it already -/
theorem serializeZenohFragment_full (r : Reliability) {sn : UInt64} {first : Bool}
    {dst : List UInt8} (src : List UInt8) (hdst : dst.length ≤ cfg.capacity)
    (h : cfg.capacity < dst.length + fragmentHeaderLength sn first) :
    ∃ wbuf, serializeZenohFragment cfg r sn first dst src =
      (wbuf, src, .error .transportNoSpace) := by
  rw [← length_fragmentHeaderWrites r sn false first] at h
  obtain ⟨part, hfull⟩ := wbufWrite_full hdst h
  exact ⟨dst ++ part, by rw [serializeZenohFragment, hfull]⟩

/-- A header that fits: the fragment takes what it leaves. -/
theorem serializeZenohFragment_fits (r : Reliability) {sn : UInt64} {first : Bool}
    {dst : List UInt8} (src : List UInt8) {start : ℕ}
    (hstart : dst.length + fragmentHeaderLength sn first = start) (h : start ≤ cfg.capacity) :
    serializeZenohFragment cfg r sn first dst src =
      (dst ++ (fragmentHeaderWrites sn r (decide (src.length ≤ cfg.capacity - start)) first).flatten ++
          src.take (cfg.capacity - start), src.drop (cfg.capacity - start), .ok ()) := by
  have hlen (isLast : Bool) :
      dst.length + (fragmentHeaderWrites sn r isLast first).flatten.length = start := by
    rw [length_fragmentHeaderWrites, hstart]
  have hwrite (isLast : Bool) :
      wbufWrite cfg.capacity (fragmentHeaderWrites sn r isLast first) dst =
        (dst ++ (fragmentHeaderWrites sn r isLast first).flatten, .ok ()) :=
    wbufWrite_fits (by rw [hlen]; exact h)
  rw [serializeZenohFragment, hwrite]
  dsimp only
  rw [length_append, hlen]
  split_ifs with hlast
  · rw [hwrite]
    dsimp only
    rw [length_append, hlen, Nat.min_eq_left hlast, decide_eq_true hlast,
      take_of_length_le hlast, take_of_length_le le_rfl, drop_of_length_le le_rfl,
      drop_of_length_le hlast]
  · rw [decide_eq_false hlast]

/-! ### A pass of the loop -/

/-- What a loop is about to send: the number of the next fragment, and whether it is the first. The
number of the first one was taken before the loop. -/
structure Awaits (r : Reliability) (s : FragmentState Sock) (first : Bool) (sn : UInt64) : Prop where
  isFirst : s.isFirst = first
  number : (if first then s.sn else s.tx.counter r) = sn
  counter : first = true → s.tx.counter r = snIncrement cfg.snRes sn

/-- Sending on one channel leaves the other one and the batch as they were. -/
structure SentOn (r : Reliability) (tx tx' : TxCommon Sock) : Prop where
  counter : ∀ r', r' ≠ r → tx'.counter r' = tx.counter r'
  batchActive : tx'.batchActive = tx.batchActive
  batchCount : tx'.batchCount = tx.batchCount

theorem SentOn.refl (r : Reliability) (tx : TxCommon Sock) : SentOn r tx tx :=
  ⟨fun _ _ ↦ rfl, rfl, rfl⟩

theorem SentOn.trans {r : Reliability} {tx tx' tx'' : TxCommon Sock} (h : SentOn r tx tx')
    (h' : SentOn r tx' tx'') : SentOn r tx tx'' where
  counter r' hr := (h'.counter r' hr).trans (h.counter r' hr)
  batchActive := h'.batchActive.trans h.batchActive
  batchCount := h'.batchCount.trans h.batchCount

theorem SentOn.getSn (cfg : TxConfig) (r : Reliability) (tx : TxCommon Sock) :
    SentOn r tx (tx.getSn cfg r).2 where
  counter r' hr := by
    cases r <;> cases r' <;> first | rfl | exact absurd rfl hr
  batchActive := by cases r <;> rfl
  batchCount := by cases r <;> rfl

/-- A batch to each peer -/
def toPeers (peers : List Sock) (batches : List (List UInt8)) : List (Sock × List UInt8) :=
  batches.flatMap fun batch ↦ peers.map (·, batch)

theorem toPeers_cons (peers : List Sock) (batch : List UInt8) (batches : List (List UInt8)) :
    toPeers peers (batch :: batches) = toPeers peers [batch] ++ toPeers peers batches := by
  rw [toPeers, toPeers, toPeers, flatMap_cons, flatMap_singleton]

theorem toPeers_inj {peers : List Sock} (h : peers ≠ []) {batches batches' : List (List UInt8)}
    (heq : toPeers peers batches = toPeers peers batches') : batches = batches' := by
  obtain ⟨peer, peers, rfl⟩ := exists_cons_of_ne_nil h
  induction batches generalizing batches' with
  | nil =>
    cases batches' with
    | nil => rfl
    | cons batch' batches' => cases heq
  | cons batch batches ih =>
    cases batches' with
    | nil => cases heq
    | cons batch' batches' =>
      rw [toPeers_cons, toPeers_cons _ batch'] at heq
      obtain ⟨hhead, htail⟩ := append_inj heq (by
        simp only [toPeers, flatMap_singleton, length_map])
      rw [toPeers, toPeers, List.flatMap_singleton, List.flatMap_singleton, List.map_cons,
        List.map_cons] at hhead
      rw [(Prod.mk.inj (List.cons.inj hhead).1).2, ih htail]

section Pass

variable {cfg} {r : Reliability} {peers : List Sock} {s : FragmentState Sock} {first : Bool}
  {sn : UInt64}

/-- The number that a pass takes, and the counter after that -/
theorem Awaits.getSn (h : Awaits cfg r s first sn) : ∃ tx : TxCommon Sock,
    (if s.isFirst then (s.sn, s.tx) else s.tx.getSn cfg r) = (sn, tx) ∧ tx.sent = s.tx.sent ∧
      tx.counter r = snIncrement cfg.snRes sn ∧ SentOn r s.tx tx := by
  obtain ⟨hfirst, hnumber, hcounter⟩ := h
  rw [hfirst]
  cases first with
  | true =>
    subst hnumber
    exact ⟨s.tx, rfl, rfl, hcounter rfl, .refl r s.tx⟩
  | false =>
    subst hnumber
    cases r <;> exact ⟨_, rfl, rfl, rfl, .getSn cfg _ s.tx⟩

theorem fragmentPass_exit (h : s.fragBuff = []) :
    fragmentPass cfg r peers s = .done (s.tx, .ok ()) := if_pos h

theorem Awaits.pass_full (h : Awaits cfg r s first sn) (peers : List Sock) (hne : s.fragBuff ≠ [])
    (hfull : cfg.capacity < fragmentStart cfg sn first) : ∃ tx,
    fragmentPass cfg r peers s = .done (tx, .error .transportNoSpace) := by
  obtain ⟨tx, htake, -⟩ := h.getSn
  have hframed : (prepareWbuf cfg).length ≤ cfg.capacity := by
    unfold prepareWbuf
    split_ifs with hlink
    · exact Nat.zero_le _
    · exact cfg.framed (Bool.eq_false_iff.mpr hlink)
  rw [← length_prepareWbuf_add] at hfull
  obtain ⟨wbuf, hserialize⟩ := serializeZenohFragment_full cfg r s.fragBuff hframed hfull
  rw [fragmentPass, if_neg hne, htake, h.isFirst]
  dsimp only
  rw [hserialize]
  exact ⟨_, rfl⟩

/-- The fragment that a pass sends -/
def passFragment (cfg : TxConfig) (r : Reliability) (first : Bool) (sn : UInt64)
    (fragBuff : List UInt8) : Fragment where
  reliability := r
  more := !decide (fragBuff.length ≤ cfg.capacity - fragmentStart cfg sn first)
  sn := sn
  payload := fragBuff.take (cfg.capacity - fragmentStart cfg sn first)
  first := first
  drop := false

theorem Awaits.pass_fits (h : Awaits cfg r s first sn) (peers : List Sock) (hne : s.fragBuff ≠ [])
    (hfits : fragmentStart cfg sn first ≤ cfg.capacity) : ∃ s',
    fragmentPass cfg r peers s = .next s' ∧ Awaits cfg r s' false (snIncrement cfg.snRes sn) ∧
      s'.fragBuff = s.fragBuff.drop (cfg.capacity - fragmentStart cfg sn first) ∧
      SentOn r s.tx s'.tx ∧ s'.tx.sent = s.tx.sent ++
        toPeers peers [(passFragment cfg r first sn s.fragBuff).batch cfg] := by
  obtain ⟨tx, htake, hsent, hcounter, hsame⟩ := h.getSn
  rw [fragmentPass, if_neg hne, htake, h.isFirst]
  dsimp only
  rw [serializeZenohFragment_fits cfg r s.fragBuff (length_prepareWbuf_add cfg sn first) hfits]
  refine ⟨_, rfl, ⟨rfl, ?_, fun hfirst ↦ Bool.noConfusion hfirst⟩, rfl,
    ⟨hsame.counter, hsame.batchActive, hsame.batchCount⟩, ?_⟩
  · rw [← hcounter]
    cases r <;> rfl
  · rw [toPeers, flatMap_singleton, Fragment.batch, passFragment, Bool.not_not, ← hsent]
    rfl

end Pass

/-! ### The headers of a message -/

/-- Where the part of the message starts in the batch of the fragment after `k` others -/
def fragmentStarts (first : Bool) (sn : UInt64) (k : ℕ) : ℕ :=
  fragmentStart cfg ((snIncrement cfg.snRes)^[k] sn) (first && k == 0)

/-- The first `k` fragments leave some of a message of this length. -/
def Unsent (first : Bool) (sn : UInt64) (len k : ℕ) : Prop :=
  ∑ j ∈ range k, (cfg.capacity - fragmentStarts cfg first sn j) < len

section Starts

variable {cfg} {first : Bool} {sn : UInt64} {len k : ℕ}

theorem fragmentStarts_zero : fragmentStarts cfg first sn 0 = fragmentStart cfg sn first := by
  rw [fragmentStarts, Function.iterate_zero, id, beq_self_eq_true, Bool.and_true]

theorem fragmentStarts_succ :
    fragmentStarts cfg first sn (k + 1) = fragmentStarts cfg false (snIncrement cfg.snRes sn) k := by
  rw [fragmentStarts, fragmentStarts, Function.iterate_succ_apply, Bool.false_and,
    beq_eq_false_iff_ne.mpr (Nat.succ_ne_zero k), Bool.and_false]

theorem unsent_zero : Unsent cfg first sn len 0 ↔ 0 < len := by
  rw [Unsent, sum_range_zero]

theorem unsent_succ : Unsent cfg first sn len (k + 1) ↔
    Unsent cfg false (snIncrement cfg.snRes sn) (len - (cfg.capacity - fragmentStart cfg sn first))
      k := by
  unfold Unsent
  rw [sum_range_succ', fragmentStarts_zero]
  simp only [fragmentStarts_succ]
  omega

end Starts

/-! ### The loop -/

variable {chunks : List (List UInt8)}

section Loop

variable {cfg} {r : Reliability} {peers : List Sock} {s : FragmentState Sock} {first : Bool}
  {sn : UInt64}

/-- A fragment is the last one when nothing is left to cut. -/
theorem isEmpty_of_drop {fragBuff : List UInt8} {space : ℕ}
    (hflatten : chunks.flatten = fragBuff.drop space)
    (hnil : fragBuff.drop space = [] → chunks = []) :
    decide (fragBuff.length ≤ space) = chunks.isEmpty := by
  rw [Bool.eq_iff_iff, decide_eq_true_iff, List.isEmpty_iff, ← List.drop_eq_nil_iff]
  refine ⟨hnil, fun hchunks ↦ ?_⟩
  rw [← hflatten, hchunks, flatten_nil]

/-- What a loop that went through has sent: the message in these parts, none of them empty exactly
when each header leaves room. -/
structure SentInParts (cfg : TxConfig) (r : Reliability) (peers : List Sock) (first : Bool)
    (sn : UInt64) (s : FragmentState Sock) (tx : TxCommon Sock) (chunks : List (List UInt8)) :
    Prop where
  flatten : chunks.flatten = s.fragBuff
  nil : s.fragBuff = [] → chunks = []
  sent : tx.sent = s.tx.sent ++
    toPeers peers ((fragmentRun r cfg.snRes first sn chunks).map (Fragment.batch cfg))
  fits : ∀ batch ∈ (fragmentRun r cfg.snRes first sn chunks).map (Fragment.batch cfg),
    batch.length ≤ cfg.capacity
  room : (∀ chunk ∈ chunks, chunk ≠ []) ↔ ∀ k, Unsent cfg first sn s.fragBuff.length k →
    fragmentStarts cfg first sn k < cfg.capacity
  sentOn : SentOn r s.tx tx
  same : chunks = [] → tx = s.tx
  counter : chunks ≠ [] → tx.counter r = (snIncrement cfg.snRes)^[chunks.length] sn

/-- Nothing was left to send. -/
theorem SentInParts.nothing (hnil : s.fragBuff = []) :
    SentInParts cfg r peers first sn s s.tx [] where
  flatten := hnil.symm
  nil _ := rfl
  sent := (append_nil _).symm
  fits _ hmem := absurd hmem not_mem_nil
  room := by
    refine iff_of_true (fun _ hmem ↦ absurd hmem not_mem_nil) fun k hk ↦ ?_
    rw [hnil] at hk
    exact absurd hk (Nat.not_lt_zero _)
  sentOn := .refl r s.tx
  same _ := rfl
  counter hchunks := absurd rfl hchunks

/-- A fragment, and the loop after it -/
theorem SentInParts.pass {s' : FragmentState Sock} {tx : TxCommon Sock} (hne : s.fragBuff ≠ [])
    (hstart : fragmentStart cfg sn first ≤ cfg.capacity)
    (hawaits : Awaits cfg r s' false (snIncrement cfg.snRes sn))
    (hrest : s'.fragBuff = s.fragBuff.drop (cfg.capacity - fragmentStart cfg sn first))
    (hsame : SentOn r s.tx s'.tx) (hsent : s'.tx.sent = s.tx.sent ++
      toPeers peers [(passFragment cfg r first sn s.fragBuff).batch cfg])
    (h : SentInParts cfg r peers false (snIncrement cfg.snRes sn) s' tx chunks) :
    SentInParts cfg r peers first sn s tx
      (s.fragBuff.take (cfg.capacity - fragmentStart cfg sn first) :: chunks) := by
  have hlen : 0 < s.fragBuff.length := length_pos_iff.mpr hne
  have hrestlen : s'.fragBuff.length =
      s.fragBuff.length - (cfg.capacity - fragmentStart cfg sn first) := by
    rw [hrest, length_drop]
  set space := cfg.capacity - fragmentStart cfg sn first with hspace
  have hlast := isEmpty_of_drop (h.flatten.trans hrest) (hrest ▸ h.nil)
  have hhead : passFragment cfg r first sn s.fragBuff =
      { reliability := r, more := !chunks.isEmpty, sn := sn, payload := s.fragBuff.take space,
        first := first, drop := false } := by
    rw [passFragment, ← hspace, hlast]
  constructor
  case flatten => rw [flatten_cons, h.flatten, hrest, take_append_drop]
  case nil => exact fun hempty ↦ absurd hempty hne
  case sent =>
    rw [h.sent, hsent, fragmentRun, List.map_cons, ← hhead, List.append_assoc]
    exact congrArg _ (toPeers_cons peers _ _).symm
  case fits =>
    rw [fragmentRun, List.map_cons, ← hhead]
    refine forall_mem_cons.mpr ⟨?_, h.fits⟩
    rw [length_batch]
    have htake : (s.fragBuff.take space).length ≤ space := length_take_le _ _
    simp only [passFragment, ← hspace]
    omega
  case room =>
    rw [List.forall_mem_cons, h.room]
    have hchunk : s.fragBuff.take space ≠ [] ↔ fragmentStart cfg sn first < cfg.capacity := by
      rw [← length_pos_iff, length_take]
      omega
    rw [hchunk]
    constructor
    · rintro ⟨hfirst, hrest'⟩ k hk
      cases k with
      | zero => rwa [fragmentStarts_zero]
      | succ k =>
        rw [fragmentStarts_succ]
        exact hrest' k (hrestlen ▸ unsent_succ.mp hk)
    · intro hall
      have hfirst := hall 0 (unsent_zero.mpr hlen)
      rw [fragmentStarts_zero] at hfirst
      refine ⟨hfirst, fun k hk ↦ ?_⟩
      rw [← fragmentStarts_succ]
      exact hall (k + 1) (unsent_succ.mpr (hrestlen ▸ hk))
  case sentOn => exact hsame.trans h.sentOn
  case same => exact fun hnone ↦ absurd hnone (cons_ne_nil _ _)
  case counter =>
    intro
    rw [length_cons, Function.iterate_succ_apply]
    by_cases hchunks : chunks = []
    · rw [hchunks, h.same hchunks]
      exact hawaits.number
    · exact h.counter hchunks

/-- Where all headers fit, a loop that ends has sent the message in fragments, with as much of it in
the first one as fits there. -/
theorem Awaits.sent {n : ℕ} (h : Awaits cfg r s first sn)
    (hfits : ∀ k, Unsent cfg first sn s.fragBuff.length k →
      fragmentStarts cfg first sn k ≤ cfg.capacity)
    {tx : TxCommon Sock} {result : Except ZError Unit}
    (hrun : runLoop (fun s ↦ some (fragmentPass cfg r peers s)) n s = some (tx, result)) :
    result = .ok () ∧ ∃ chunks, SentInParts cfg r peers first sn s tx chunks ∧ (s.fragBuff ≠ [] →
        chunks.head? = some (s.fragBuff.take (cfg.capacity - fragmentStart cfg sn first))) := by
  induction n generalizing s first sn with
  | zero => cases hrun
  | succ n ih =>
    by_cases hne : s.fragBuff = []
    · rw [runLoop, fragmentPass_exit hne] at hrun
      obtain ⟨rfl, rfl⟩ := Prod.mk.inj (Option.some.inj hrun)
      exact ⟨rfl, [], .nothing hne, fun hsome ↦ absurd hne hsome⟩
    · have hstart := hfits 0 (unsent_zero.mpr (length_pos_iff.mpr hne))
      rw [fragmentStarts_zero] at hstart
      obtain ⟨s', hpass, hawaits, hrest, hsame, hsent⟩ := h.pass_fits peers hne hstart
      rw [runLoop, hpass] at hrun
      obtain ⟨hok, chunks, hparts, -⟩ := ih hawaits (fun k hk ↦ by
        rw [← fragmentStarts_succ]
        refine hfits (k + 1) (unsent_succ.mpr ?_)
        rwa [hrest, length_drop] at hk) hrun
      exact ⟨hok, _, hparts.pass hne hstart hawaits hrest hsame hsent, fun _ ↦ rfl⟩

/-- Where each header leaves room, the loop ends. -/
theorem Awaits.ends (h : Awaits cfg r s first sn) (peers : List Sock)
    (hroom : ∀ k, Unsent cfg first sn s.fragBuff.length k →
      fragmentStarts cfg first sn k < cfg.capacity) :
    ∃ tx, LoopComputes (fun _ s ↦ some (fragmentPass cfg r peers s)) s (some (tx, .ok ())) := by
  induction hlen : s.fragBuff.length using Nat.strong_induction_on generalizing s first sn with
  | _ len ih =>
    by_cases hne : s.fragBuff = []
    · exact ⟨s.tx, loopComputes_exit fun _ ↦ congrArg some (fragmentPass_exit hne)⟩
    · have hpos : 0 < s.fragBuff.length := length_pos_iff.mpr hne
      have hstart := hroom 0 (unsent_zero.mpr hpos)
      rw [fragmentStarts_zero] at hstart
      obtain ⟨s', hpass, hawaits, hrest, -⟩ := h.pass_fits peers hne hstart.le
      have hrestlen : s'.fragBuff.length =
          s.fragBuff.length - (cfg.capacity - fragmentStart cfg sn first) := by
        rw [hrest, length_drop]
      obtain ⟨tx, hloop⟩ := ih s'.fragBuff.length (by omega) hawaits (fun k hk ↦ by
        rw [← fragmentStarts_succ]
        exact hroom (k + 1) (unsent_succ.mpr (hrestlen ▸ hk))) rfl
      exact ⟨tx, loopComputes_next (computes_const fun _ ↦ congrArg some hpass) hloop⟩

/-- A header that does not fit ends the loop with an error. -/
theorem Awaits.fails {k : ℕ} (h : Awaits cfg r s first sn) (peers : List Sock)
    (hunsent : Unsent cfg first sn s.fragBuff.length k)
    (hfull : cfg.capacity < fragmentStarts cfg first sn k) : ∃ tx,
    LoopComputes (fun _ s ↦ some (fragmentPass cfg r peers s)) s
      (some (tx, .error .transportNoSpace)) := by
  induction k generalizing s first sn with
  | zero =>
    rw [fragmentStarts_zero] at hfull
    obtain ⟨tx, hpass⟩ := h.pass_full peers
      (length_pos_iff.mp (unsent_zero.mp hunsent)) hfull
    exact ⟨tx, loopComputes_exit fun _ ↦ congrArg some hpass⟩
  | succ k ih =>
    have hne : s.fragBuff ≠ [] := by
      intro hnil
      rw [hnil] at hunsent
      exact absurd hunsent (Nat.not_lt_zero _)
    rcases Nat.lt_or_ge cfg.capacity (fragmentStart cfg sn first) with hlt | hfits
    · obtain ⟨tx, hpass⟩ := h.pass_full peers hne hlt
      exact ⟨tx, loopComputes_exit fun _ ↦ congrArg some hpass⟩
    · obtain ⟨s', hpass, hawaits, hrest, -⟩ := h.pass_fits peers hne hfits
      obtain ⟨tx, hloop⟩ := ih hawaits (by
        rw [hrest, length_drop]
        exact unsent_succ.mp hunsent) (by rwa [← fragmentStarts_succ])
      exact ⟨tx, loopComputes_next (computes_const fun _ ↦ congrArg some hpass) hloop⟩

end Loop

/-! ### The fragments of a message -/

/-- The batches of a message: fragments of it numbered one after the other, none without a part of
the message, that fit in the buffer and together are the message. -/
def IsFragmented (r : Reliability) (firstSn : UInt64) (encoding : List UInt8)
    (batches : List (List UInt8)) : Prop :=
  ∃ chunks, batches = (fragmentRun r cfg.snRes true firstSn chunks).map (Fragment.batch cfg) ∧
    chunks.flatten = encoding ∧ (∀ chunk ∈ chunks, chunk ≠ []) ∧
    ∀ batch ∈ batches, batch.length ≤ cfg.capacity

/-- The loop ends, and when all it writes finds room the batches of the message go to each peer. -/
def SendsFragments (encoding : List UInt8) (r : Reliability) (firstSn : UInt64) (peers : List Sock)
    (tx : TxCommon Sock) : Prop :=
  ∃ tx' result, Settles (fun n ↦ sendFragmentInner cfg n encoding r firstSn peers tx) (tx', result) ∧
    (result = .ok () → ∃ batches, tx'.sent = tx.sent ++ toPeers peers batches ∧
      IsFragmented cfg r firstSn encoding batches)

section Message

variable {cfg} {encoding : List UInt8} {r : Reliability} {firstSn : UInt64} {peers : List Sock}
  {tx : TxCommon Sock}

/-- The parts of a message are read off its batches. -/
theorem fragmentRun_batch_inj {first : Bool} {sn : UInt64} {chunks' : List (List UInt8)}
    (h : (fragmentRun r cfg.snRes first sn chunks).map (Fragment.batch cfg) =
      (fragmentRun r cfg.snRes first sn chunks').map (Fragment.batch cfg)) : chunks = chunks' := by
  induction chunks generalizing chunks' first sn with
  | nil =>
    cases chunks' with
    | nil => rfl
    | cons chunk' rest' => cases h
  | cons chunk rest ih =>
    cases chunks' with
    | nil => cases h
    | cons chunk' rest' =>
      rw [fragmentRun, fragmentRun, List.map_cons, List.map_cons, List.cons.injEq] at h
      have hchunk : chunk = chunk' :=
        (drop_batch cfg ⟨r, !rest.isEmpty, sn, chunk, first, false⟩).symm.trans
          ((congrArg (List.drop (fragmentStart cfg sn first)) h.1).trans
            (drop_batch cfg ⟨r, !rest'.isEmpty, sn, chunk', first, false⟩))
      rw [hchunk, ih h.2]

theorem awaits_message (encoding : List UInt8)
    (hcounter : tx.counter r = snIncrement cfg.snRes firstSn) :
    Awaits cfg r ⟨true, firstSn, encoding, tx⟩ true firstSn where
  isFirst := rfl
  number := rfl
  counter _ := hcounter

/-- Where all headers fit, fragments are only sent as they should be when each header leaves
room. -/
theorem SendsFragments.room (hpeers : peers ≠ [])
    (hcounter : tx.counter r = snIncrement cfg.snRes firstSn)
    (hfits : ∀ k, Unsent cfg true firstSn encoding.length k →
      fragmentStarts cfg true firstSn k ≤ cfg.capacity)
    (h : SendsFragments cfg encoding r firstSn peers tx) {k : ℕ}
    (hk : Unsent cfg true firstSn encoding.length k) :
    fragmentStarts cfg true firstSn k < cfg.capacity := by
  obtain ⟨tx', result, ⟨n, hsettles⟩, hsends⟩ := h
  obtain ⟨hok, chunks, hparts, -⟩ :=
    (awaits_message encoding hcounter).sent hfits (hsettles n le_rfl)
  obtain ⟨batches, hsent', chunks', rfl, -, hchunks', -⟩ := hsends hok
  have hbatches := toPeers_inj hpeers (append_cancel_left (hparts.sent.symm.trans hsent'))
  exact hparts.room.mp (fragmentRun_batch_inj hbatches ▸ hchunks') k hk

end Message

/-- The fragments of a message are sent as they should be exactly when some header does not fit in
the buffer, which is an error, or each header leaves room. The number of the first one was the last
one taken from the channel. -/
theorem sendFragmentInner_iff {encoding : List UInt8} {r : Reliability} {firstSn : UInt64}
    {peers : List Sock} (hpeers : peers ≠ []) {tx : TxCommon Sock}
    (hcounter : tx.counter r = snIncrement cfg.snRes firstSn) :
    SendsFragments cfg encoding r firstSn peers tx ↔
      (∃ k, Unsent cfg true firstSn encoding.length k ∧
        cfg.capacity < fragmentStarts cfg true firstSn k) ∨
      ∀ k, Unsent cfg true firstSn encoding.length k →
        fragmentStarts cfg true firstSn k < cfg.capacity := by
  have hawaits := awaits_message encoding hcounter
  constructor
  · intro h
    refine or_iff_not_imp_left.mpr fun hfits k hk ↦ h.room hpeers hcounter (fun k hk ↦ ?_) hk
    exact Nat.le_of_not_lt fun hlt ↦ hfits ⟨k, hk, hlt⟩
  · rintro (⟨k, hk, hfull⟩ | hroom)
    · obtain ⟨tx', hloop⟩ := hawaits.fails peers hk hfull
      exact ⟨tx', _, hloop.computes.settles, fun hok ↦ nomatch hok⟩
    · obtain ⟨tx', hloop⟩ := hawaits.ends peers hroom
      have hsettles := hloop.computes.settles
      refine ⟨tx', .ok (), hsettles, fun _ ↦ ?_⟩
      obtain ⟨n, hn⟩ := hsettles
      obtain ⟨-, chunks, hparts, -⟩ :=
        hawaits.sent (fun k hk ↦ (hroom k hk).le) (hn n le_rfl)
      exact ⟨_, hparts.sent, chunks, rfl, hparts.flatten, hparts.room.mpr hroom, hparts.fits⟩

/-- A transport on a datagram link whose buffer has this capacity, with 28 bits for numbers -/
def datagramTxConfig (capacity : ℕ) : TxConfig where
  bits := 2
  resolution := by decide
  link := ⟨true, false⟩
  capacity := capacity
  fragmentation := true
  framed := nofun

/-- The reliable number 0 was taken. -/
def firstTaken : TxCommon Unit := { TxCommon.init Unit with snTxReliable := 1 }

theorem Unsent.lt {cfg : TxConfig} {first : Bool} {sn : UInt64} {len k n : ℕ}
    (h : Unsent cfg first sn len k) (hn : ¬ Unsent cfg first sn len n) : k < n := by
  by_contra hle
  refine hn (lt_of_le_of_lt ?_ h)
  exact sum_le_sum_of_subset (range_mono (Nat.le_of_not_lt hle))

/-- A message of three bytes with room for two of them in the first batch -/
theorem sendFragmentInner_two :
    SendsFragments (datagramTxConfig 5) [1, 2, 3] .reliable 0 [()] firstTaken := by
  refine (sendFragmentInner_iff (datagramTxConfig 5) (cons_ne_nil _ _) rfl).mpr
    (.inr fun k hk ↦ ?_)
  have hlt : k < 2 := hk.lt (by unfold Unsent; decide)
  interval_cases k <;> decide

/-- The header of the first fragment fills the batch: it is sent without a part of the message. -/
theorem sendFragmentInner_empty :
    (sendFragmentInner (datagramTxConfig 3) 4 [1, 2] .reliable 0 [()] firstTaken).map
        (fun end_ ↦ end_.1.sent) =
      some [((), [0xE6, 0, 0x02]), ((), [0x66, 1, 1]), ((), [0x26, 2, 2])] ∧
    ¬ SendsFragments (datagramTxConfig 3) [1, 2] .reliable 0 [()] firstTaken := by
  refine ⟨by decide +kernel, fun h ↦ ?_⟩
  have hfits : ∀ k, Unsent (datagramTxConfig 3) true 0 2 k →
      fragmentStarts (datagramTxConfig 3) true 0 k ≤ 3 := by
    intro k hk
    have hlt : k < 3 := hk.lt (by unfold Unsent; decide)
    interval_cases k <;> decide
  have hroom := h.room (cons_ne_nil _ _) rfl hfits (k := 0) (unsent_zero.mpr (by decide))
  revert hroom
  decide

end ZenohPico.Transport
