import ZenohPico.Protocol.WbufQueue

/-!
Runs of calls on several write buffers, beside the queues of bytes that the buffers stand for.

Two calls can leave a buffer that does not stand for a queue. A read of no bytes from a buffer with
nothing to read in the slice it writes to moves the read index behind the write index, and what is
written next is not read. Setting the write position back to a place before the slice that is
written to leaves full slices behind the write index, with the bytes they had.
-/

namespace ZenohPico.Protocol

open Foundations List Option

/-- A call on one of several write buffers -/
inductive WCall (ι : Type)
  | write (i : ι) (b : UInt8)
  | writeBytes (i : ι) (bs : List UInt8)
  | wrapBytes (i : ι) (bs : List UInt8)
  | read (i : ι)
  | readBytes (i : ι) (length : ℕ)
  | siphon (dst src : ι) (length : ℕ)
  | toZbuf (i : ι)
  | len (i : ι)
  | getWpos (i : ι)
  | setWpos (i : ι) (pos : ℕ)

/-- What a call gives back -/
inductive WReply
  | res (r : WRes)
  | bytes (bs : List UInt8)
  | number (n : ℕ)
deriving DecidableEq

variable {ι : Type} [DecidableEq ι]

/-- A call of the source's functions -/
def call (ws : ι → WBuf) : WCall ι → Option ((ι → WBuf) × WReply)
  | .write i b => do
    let (r, wbf) ← (ws i).write b
    return (Function.update ws i wbf, .res r)
  | .writeBytes i bs => do
    let (r, wbf) ← (ws i).writeBytes bs
    return (Function.update ws i wbf, .res r)
  | .wrapBytes i bs => do
    let wbf ← (ws i).wrapBytes bs
    return (Function.update ws i wbf, .res .ok)
  | .read i => do
    let (b, wbf) ← (ws i).read
    return (Function.update ws i wbf, .bytes [b])
  | .readBytes i length => do
    let (bs, wbf) ← (ws i).readBytes length
    return (Function.update ws i wbf, .bytes bs)
  | .siphon dst src length => do
    let (r, wdst, wsrc) ← (ws dst).siphon (ws src) length
    return (Function.update (Function.update ws dst wdst) src wsrc, .res r)
  | .toZbuf i => do
    let zbf ← (ws i).toZbuf
    return (ws, .bytes zbf.readable)
  | .len i => some (ws, .number (ws i).len)
  | .getWpos i => do
    let pos ← (ws i).getWpos
    return (ws, .number pos)
  | .setWpos i pos => do
    let wbf ← (ws i).setWpos pos
    return (Function.update ws i wbf, .res .ok)

/-- What a call does to the queues -/
def queueCall (qs : ι → BlockQueue UInt8) : WCall ι → (ι → BlockQueue UInt8) × WReply
  | .write i b => (Function.update qs i (append (qs i) [b]).2, .res (append (qs i) [b]).1)
  | .writeBytes i bs => (Function.update qs i (append (qs i) bs).2, .res (append (qs i) bs).1)
  | .wrapBytes i bs => (Function.update qs i ((qs i).attach bs), .res .ok)
  | .read i => (Function.update qs i ((qs i).drop 1), .bytes ((qs i).content.take 1))
  | .readBytes i length =>
    (Function.update qs i ((qs i).drop length), .bytes ((qs i).content.take length))
  | .siphon dst src length =>
    if length ≤ (qs dst).room then
      (Function.update (Function.update qs dst ((qs dst).put ((qs src).content.take length))) src
        ((qs src).drop length), .res .ok)
    else (qs, .res .noSpace)
  | .toZbuf i => (qs, .bytes (qs i).content)
  | .len i => (qs, .number (qs i).content.length)
  | .getWpos i => (qs, .number (qs i).log.length)
  | .setWpos i pos => (Function.update qs i ((qs i).setBack pos), .res .ok)

/-- The calls of a run, one after the other, with what they give back -/
def runCalls (ws : ι → WBuf) : List (WCall ι) → Option ((ι → WBuf) × List WReply)
  | [] => some (ws, [])
  | c :: calls => do
    let (ws, reply) ← call ws c
    let (ws, replies) ← runCalls ws calls
    return (ws, reply :: replies)

/-- The calls of a run on the queues -/
def runQueues (qs : ι → BlockQueue UInt8) : List (WCall ι) → (ι → BlockQueue UInt8) × List WReply
  | [] => (qs, [])
  | c :: calls =>
    let (qs, reply) := queueCall qs c
    let (qs, replies) := runQueues qs calls
    (qs, reply :: replies)

/-- Each call of a run meets a condition on the buffers it finds. -/
def Along (P : (ι → WBuf) → WCall ι → Prop) (ws : ι → WBuf) : List (WCall ι) → Prop
  | [] => True
  | c :: calls => P ws c ∧ ∀ ws' reply, call ws c = some (ws', reply) → Along P ws' calls

/-- What the callers keep to: not more bytes are read than there are, a buffer is not siphoned
into itself, and only a buffer that does not expand is set back. -/
def Asked (ws : ι → WBuf) : WCall ι → Prop
  | .read i => 1 ≤ (ws i).len
  | .readBytes i length => length ≤ (ws i).len
  | .siphon dst src length => dst ≠ src ∧ length ≤ (ws src).len
  | .setWpos i pos => (ws i).expansionStep = 0 ∧ ∃ now ∈ (ws i).getWpos, pos ≤ now
  | _ => True

/-- A read of `length` bytes does not move the read index behind the write index. -/
def Ahead (wbf : WBuf) (length : ℕ) : Prop := 0 < length ∨ 0 < wbf.len ∨ wbf.rIdx < wbf.wIdx

/-- The calls after which the buffers still stand for queues -/
def Steady (ws : ι → WBuf) : WCall ι → Prop
  | .readBytes i length => Ahead (ws i) length
  | .siphon _ src length => Ahead (ws src) length
  | .setWpos i pos => (ws i).Within pos
  | _ => True

/-! ### One call -/

variable {ws : ι → WBuf} {qs : ι → BlockQueue UInt8}

variable {i : ι} {q qdst : BlockQueue UInt8} {length : ℕ}

/-- One of the buffers is changed, and its queue with it. -/
theorem holds_update (h : ∀ i, (ws i).Holds (qs i)) {wbf : WBuf} (hi : wbf.Holds q) :
    ∀ j, (Function.update ws i wbf j).Holds (Function.update qs i q j) := by
  intro j
  by_cases hj : j = i
  · subst hj
    rwa [Function.update_self, Function.update_self]
  · rw [Function.update_of_ne hj, Function.update_of_ne hj]
    exact h j

theorem Ahead.or {wbf : WBuf} (h : wbf.Holds q) (ha : Ahead wbf length) :
    0 < length ∨ q.content ≠ [] ∨ wbf.rIdx < wbf.wIdx := by
  rw [Ahead, h.len] at ha
  exact ha.imp_right (Or.imp_left ne_nil_of_length_pos)

/-- Bytes siphoned from one buffer into another one -/
theorem holds_siphon {wdst wsrc : WBuf} {qsrc : BlockQueue UInt8} (hdst : wdst.Holds qdst)
    (hsrc : wsrc.Holds qsrc) (hroom : length ≤ qdst.room) (hlen : length ≤ qsrc.content.length)
    (hgo : Ahead wsrc length) : ∃ wdst' wsrc', wdst.siphon wsrc length = some (.ok, wdst', wsrc') ∧
      wdst'.Holds (qdst.put (qsrc.content.take length)) ∧ wsrc'.Holds (qsrc.drop length) := by
  obtain ⟨ios, hget, hsound, hwritable, hput⟩ := hdst.cur
  obtain ⟨wsrc', hread, hholds⟩ := hsrc.readBytes hlen (hgo.or hsrc)
  have hfit : (qsrc.content.take length).length ≤ qdst.room := by
    rw [length_take]
    exact (min_le_left _ _).trans hroom
  refine ⟨_, wsrc', ?_, hput _ hfit, hholds⟩
  rw [WBuf.siphon, bind_eq_bind, hget, bind_some, if_pos (hwritable ▸ hroom), hread]
  simp only [bind_eq_bind, bind_some, ios.writeBytes_eq (hwritable ▸ hfit)]
  rfl

theorem siphon_noSpace {wdst wsrc : WBuf} (hdst : wdst.Holds qdst) (hroom : ¬ length ≤ qdst.room) :
    wdst.siphon wsrc length = some (.noSpace, wdst, wsrc) := by
  obtain ⟨ios, hget, hsound, hwritable, hput⟩ := hdst.cur
  rw [WBuf.siphon, bind_eq_bind, hget, bind_some, if_neg (hwritable ▸ hroom)]
  rfl

variable {c : WCall ι}

/-- A call does to the buffers what it does to the queues. -/
theorem holds_call (h : ∀ i, (ws i).Holds (qs i)) (hasked : Asked ws c) (hsteady : Steady ws c) :
    ∃ ws', call ws c = some (ws', (queueCall qs c).2) ∧
      ∀ i, (ws' i).Holds ((queueCall qs c).1 i) := by
  cases c with
  | write i b =>
    obtain ⟨wbf, hwbf, hholds⟩ := (h i).write b
    exact ⟨_, by rw [call, hwbf]; rfl, holds_update h hholds⟩
  | writeBytes i bs =>
    obtain ⟨wbf, hwbf, hholds⟩ := (h i).writeBytes bs
    exact ⟨_, by rw [call, hwbf]; rfl, holds_update h hholds⟩
  | wrapBytes i bs =>
    obtain ⟨wbf, hwbf, hholds⟩ := (h i).wrapBytes bs
    exact ⟨_, by rw [call, hwbf]; rfl, holds_update h hholds⟩
  | read i =>
    have hpos : 1 ≤ (qs i).content.length := (h i).len ▸ hasked
    obtain ⟨b, wbf, hwbf, htake, hholds⟩ := (h i).read (ne_nil_of_length_pos hpos)
    exact ⟨_, by rw [call, hwbf, queueCall, htake]; rfl, holds_update h hholds⟩
  | readBytes i length =>
    have hle : length ≤ (qs i).content.length := (h i).len ▸ hasked
    obtain ⟨wbf, hwbf, hholds⟩ := (h i).readBytes hle (Ahead.or (h i) hsteady)
    exact ⟨_, by rw [call, hwbf]; rfl, holds_update h hholds⟩
  | siphon dst src length =>
    obtain ⟨hne, hle⟩ := hasked
    rw [(h src).len] at hle
    by_cases hroom : length ≤ (qs dst).room
    · obtain ⟨wdst, wsrc, hsiphon, hdst, hsrc⟩ := holds_siphon (h dst) (h src) hroom hle hsteady
      rw [call, hsiphon, queueCall, if_pos hroom]
      exact ⟨_, rfl, holds_update (holds_update h hdst) hsrc⟩
    · rw [call, siphon_noSpace (h dst) hroom, queueCall, if_neg hroom]
      refine ⟨_, rfl, fun i ↦ ?_⟩
      rw [Function.update_eq_self, Function.update_eq_self]
      exact h i
  | toZbuf i =>
    obtain ⟨zbf, hzbf, hread⟩ := (h i).toZbuf
    exact ⟨ws, by rw [call, hzbf, queueCall, ← hread]; rfl, h⟩
  | len i => exact ⟨ws, by rw [call, queueCall, (h i).len], h⟩
  | getWpos i => exact ⟨ws, by rw [call, (h i).getWpos, queueCall]; rfl, h⟩
  | setWpos i pos =>
    obtain ⟨_, now, hnow, hpos⟩ := hasked
    rw [(h i).getWpos, mem_some_iff] at hnow
    obtain ⟨wbf, hwbf, hholds⟩ := (h i).setWpos (hnow ▸ hpos) hsteady
    exact ⟨_, by rw [call, hwbf]; rfl, holds_update h hholds⟩

/-! ### Runs -/

/-- A run does to the buffers what it does to the queues. The induction is on the calls. -/
theorem holds_runCalls (calls : List (WCall ι)) : ∀ {ws : ι → WBuf} {qs : ι → BlockQueue UInt8},
    (∀ i, (ws i).Holds (qs i)) → Along (fun ws c ↦ Asked ws c ∧ Steady ws c) ws calls →
      ∃ ws', runCalls ws calls = some (ws', (runQueues qs calls).2) ∧
        ∀ i, (ws' i).Holds ((runQueues qs calls).1 i) := by
  induction calls with
  | nil => exact fun {ws qs} h _ ↦ ⟨ws, rfl, h⟩
  | cons c calls ih =>
    intro ws qs h hall
    obtain ⟨ws', hcall, hholds⟩ := holds_call h hall.1.1 hall.1.2
    obtain ⟨ws'', hrun, hend⟩ := ih hholds (hall.2 _ _ hcall)
    refine ⟨ws'', ?_, hend⟩
    simp only [runCalls, hcall, bind_eq_bind, bind_some, hrun]
    rfl

omit [DecidableEq ι] in
/-- What was written to a queue stays the beginning of what is written to it. -/
theorem log_append {L : List UInt8} {q : BlockQueue UInt8} (hL : L <+: q.log) (bs : List UInt8) :
    L <+: (append q bs).2.log := by
  rw [append]
  split_ifs
  · exact hL.trans (prefix_append _ _)
  · exact hL

variable {L : List UInt8}

theorem log_update {j : ι} (h : L <+: (qs i).log) (hq : i = j → L <+: q.log) :
    L <+: (Function.update qs j q i).log := by
  by_cases hij : i = j
  · subst hij
    rw [Function.update_self]
    exact hq rfl
  · rwa [Function.update_of_ne hij]

/-- What was written before stays, unless the end is set back to before it. -/
theorem log_queueCall (h : L <+: (qs i).log) (hback : ∀ pos, c = .setWpos i pos → L.length ≤ pos) :
    L <+: ((queueCall qs c).1 i).log := by
  cases c with
  | write j b => exact log_update h fun hij ↦ log_append (hij ▸ h) _
  | writeBytes j bs => exact log_update h fun hij ↦ log_append (hij ▸ h) _
  | wrapBytes j bs => exact log_update h fun hij ↦ (hij ▸ h).trans (prefix_append _ _)
  | read j => exact log_update h fun hij ↦ hij ▸ h
  | readBytes j length => exact log_update h fun hij ↦ hij ▸ h
  | siphon dst src length =>
    rw [queueCall]
    split_ifs
    · refine log_update (log_update h fun hij ↦ ?_) fun hij ↦ hij ▸ h
      exact (hij ▸ h).trans (prefix_append _ _)
    · exact h
  | toZbuf j => exact h
  | len j => exact h
  | getWpos j => exact h
  | setWpos j pos =>
    refine log_update h fun hij ↦ ?_
    subst hij
    exact prefix_take_iff.mpr ⟨h, hback pos rfl⟩

theorem log_runQueues (calls : List (WCall ι)) : ∀ {qs : ι → BlockQueue UInt8}, L <+: (qs i).log →
      (∀ pos, WCall.setWpos i pos ∈ calls → L.length ≤ pos) →
        L <+: ((runQueues qs calls).1 i).log := by
  induction calls with
  | nil => exact fun h _ ↦ h
  | cons c calls ih =>
    intro qs h hback
    exact ih (log_queueCall h fun pos hc ↦ hback pos (hc ▸ mem_cons_self))
      fun pos hmem ↦ hback pos (mem_cons_of_mem _ hmem)

/-- Every run that starts with new buffers and in which each call is asked for and leaves the
buffers queues gives back what the queues give back, so that the bytes read, siphoned and converted
are those written and not yet read, in order. Setting a queue back to a position obtained before,
when it was not set back further meanwhile, leaves what had been written then. -/
theorem wbuf_refines_queue (capacity : ι → ℕ) (isExpandable : ι → Bool) :
    (∀ calls, Along (fun ws c ↦ Asked ws c ∧ Steady ws c)
        (fun i ↦ WBuf.make (capacity i) (isExpandable i)) calls →
      let run := runQueues (fun i ↦ BlockQueue.empty (capacity i)
        (if isExpandable i then capacity i else 0)) calls
      ∃ ws, runCalls (fun i ↦ WBuf.make (capacity i) (isExpandable i)) calls = some (ws, run.2) ∧
        ∀ i, ∃ zbf ∈ (ws i).toZbuf, zbf.readable = (run.1 i).content) ∧
    ∀ (qs : ι → BlockQueue UInt8) (i : ι) (calls : List (WCall ι)),
      (∀ pos, WCall.setWpos i pos ∈ calls → (qs i).log.length ≤ pos) →
        ((queueCall (runQueues qs calls).1 (.setWpos i (qs i).log.length)).1 i).log =
          (qs i).log := by
  refine ⟨fun calls hall ↦ ?_, fun qs i calls hback ↦ ?_⟩
  · obtain ⟨ws, hrun, hholds⟩ := holds_runCalls calls
      (fun i ↦ WBuf.holds_make (capacity i) (isExpandable i)) hall
    refine ⟨ws, hrun, fun i ↦ ?_⟩
    obtain ⟨zbf, hzbf, hread⟩ := (hholds i).toZbuf
    exact ⟨zbf, hzbf, hread⟩
  · have hkept := log_runQueues calls (prefix_refl (qs i).log) hback
    exact (congrArg BlockQueue.log (Function.update_self i _ _)).trans
      (prefix_iff_eq_take.mp hkept).symm

theorem along_cons {P : (ι → WBuf) → WCall ι → Prop} {ws' : ι → WBuf} {reply : WReply}
    {calls : List (WCall ι)} (hP : P ws c) (hcall : call ws c = some (ws', reply))
    (h : Along P ws' calls) : Along P ws (c :: calls) := by
  refine ⟨hP, fun ws'' reply' hcall' ↦ ?_⟩
  obtain ⟨rfl, -⟩ := Prod.mk.inj (some.inj (hcall.symm.trans hcall'))
  exact h

/-- A buffer of eight bytes is written, read and set back. -/
theorem wbuf_refines_queue_eight : (∃ ws, runCalls (fun _ : Unit ↦ WBuf.make 8 false)
      [.writeBytes () [1, 2, 3], .readBytes () 2, .write () 4, .setWpos () 3, .toZbuf ()] =
        some (ws, [.res .ok, .bytes [1, 2], .res .ok, .res .ok, .bytes [3]])) ∧
    ((queueCall (runQueues (fun _ : Unit ↦ BlockQueue.empty 8 0) [.write () 4]).1
      (.setWpos () 0)).1 ()).log = [] := by
  have hqueue := wbuf_refines_queue (fun _ : Unit ↦ 8) (fun _ ↦ false)
  refine ⟨?_, hqueue.2 _ () [.write () 4] fun pos hmem ↦ Nat.zero_le _⟩
  obtain ⟨ws, hrun, -⟩ := hqueue.1
    [.writeBytes () [1, 2, 3], .readBytes () 2, .write () 4, .setWpos () 3, .toZbuf ()]
    (along_cons ⟨trivial, trivial⟩ rfl
      (along_cons ⟨(by decide : 2 ≤ 3), .inl (by decide : 0 < 2)⟩ rfl
        (along_cons ⟨trivial, trivial⟩ rfl
          (along_cons ⟨⟨rfl, 4, rfl, (by decide : 3 ≤ 4)⟩, fun ios hios ↦ ⟨by
              obtain rfl := some.inj hios
              exact (by decide : 2 ≤ 3), .inl rfl⟩⟩ rfl
            (along_cons ⟨trivial, trivial⟩ rfl trivial)))))
  exact ⟨ws, hrun⟩

/-- After a read of no bytes from an empty buffer, a byte that is written is not converted. -/
theorem readBytes_zero_loses : ¬ ∀ calls, Along Asked (fun _ : Unit ↦ WBuf.make 4 false) calls →
      (runCalls (fun _ ↦ WBuf.make 4 false) calls).map Prod.snd =
        some (runQueues (fun _ ↦ BlockQueue.empty 4 0) calls).2 := by
  intro h
  have hrun := h [.readBytes () 0, .write () 7, .toZbuf ()]
    (along_cons (by decide : 0 ≤ 0) rfl (along_cons trivial rfl (along_cons trivial rfl trivial)))
  exact absurd hrun (by decide)

end ZenohPico.Protocol
