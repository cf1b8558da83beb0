import ZenohPico.Foundations.BlockQueue
import ZenohPico.Protocol.Wbuf

/-!
A write buffer is a queue of bytes.

`WBuf.Holds` says that a buffer stands for a block queue: the slices before the one that is written
to are full, those before the one that is read from are used up, and what is left to read in all of
them is the content of the queue. Each operation of the buffer is one of the queue.
-/

open List Option

namespace ZenohPico.Protocol

open Foundations

variable {bs : List UInt8}

namespace IoSli

/-- The positions of a slice are in order and its memory is as long as its capacity. -/
structure Sound (ios : IoSli) : Prop where
  rPos_le : ios.rPos ≤ ios.wPos
  wPos_le : ios.wPos ≤ ios.capacity
  capacity_le : ios.capacity ≤ ios.buf.length

/-- What a write can still change about a slice: the write position and the capacity -/
def dims (ios : IoSli) : ℕ × ℕ := (ios.wPos, ios.capacity)

theorem sound_make (capacity : ℕ) : (make capacity).Sound :=
  ⟨le_rfl, Nat.zero_le _, by rw [make, length_replicate]⟩

theorem toBytes_make (capacity : ℕ) : (make capacity).toBytes = [] := take_zero

variable {ios : IoSli}

theorem Sound.length_toBytes (h : ios.Sound) : ios.toBytes.length = ios.readable := by
  obtain ⟨hr, hw, hc⟩ := h
  rw [toBytes, length_take, length_drop, readable]
  omega

/-- The slice after `n` bytes were read from it -/
def advance (ios : IoSli) (n : ℕ) : IoSli := { ios with rPos := ios.rPos + n }

@[simp]
theorem dims_advance (ios : IoSli) (n : ℕ) : (ios.advance n).dims = ios.dims := rfl

theorem Sound.advance (h : ios.Sound) {n : ℕ} (hn : n ≤ ios.readable) : (ios.advance n).Sound := by
  obtain ⟨hr, hw, hc⟩ := h
  refine ⟨?_, hw, hc⟩
  change ios.rPos + n ≤ ios.wPos
  rw [readable] at hn
  omega

theorem toBytes_advance (ios : IoSli) (n : ℕ) : (ios.advance n).toBytes = ios.toBytes.drop n := by
  rw [toBytes, toBytes, readable, readable, drop_take, drop_drop]
  change List.take (ios.wPos - (ios.rPos + n)) (ios.buf.drop (ios.rPos + n)) = _
  rw [Nat.sub_sub]

theorem readBytes_eq (ios : IoSli) {n : ℕ} (hn : n ≤ ios.readable) :
    ios.readBytes n = some (ios.toBytes.take n, ios.advance n) := by
  rw [readBytes, if_pos hn, toBytes, take_take, min_eq_left hn]
  rfl

theorem Sound.read_eq (h : ios.Sound) (hr : 0 < ios.readable) :
    ∃ b, ios.read = some (b, ios.advance 1) ∧ ios.toBytes.take 1 = [b] := by
  obtain ⟨hrw, hw, hc⟩ := h
  rw [readable] at hr
  have hlt : ios.rPos < ios.buf.length := by omega
  refine ⟨ios.buf[ios.rPos], ?_, ?_⟩
  · rw [read, if_pos (by omega), List.getElem?_eq_getElem hlt]
    rfl
  · rw [toBytes, take_take, readable, min_eq_left (by omega), drop_eq_getElem_cons hlt]
    rfl

/-- The slice after bytes were written to it -/
def extend (ios : IoSli) (bs : List UInt8) : IoSli :=
  { ios with
    buf := ios.buf.take ios.wPos ++ bs ++ ios.buf.drop (ios.wPos + bs.length)
    wPos := ios.wPos + bs.length }

theorem writeBytes_eq (ios : IoSli) (h : bs.length ≤ ios.writable) :
    ios.writeBytes bs = some (ios.extend bs) := if_pos h

theorem Sound.extend (h : ios.Sound) (hbs : bs.length ≤ ios.writable) : (ios.extend bs).Sound := by
  obtain ⟨hr, hw, hc⟩ := h
  rw [writable] at hbs
  refine ⟨?_, ?_, ?_⟩
  · change ios.rPos ≤ ios.wPos + bs.length
    omega
  · change ios.wPos + bs.length ≤ ios.capacity
    omega
  · change ios.capacity ≤ (ios.buf.take ios.wPos ++ bs ++
      ios.buf.drop (ios.wPos + bs.length)).length
    simp only [length_append, length_take, length_drop]
    omega

theorem Sound.toBytes_extend (h : ios.Sound) (bs : List UInt8) :
    (ios.extend bs).toBytes = ios.toBytes ++ bs := by
  obtain ⟨hr, hw, hc⟩ := h
  have hlen : (ios.buf.take ios.wPos).length = ios.wPos := by
    rw [length_take]
    omega
  have hread : (ios.extend bs).readable = ios.readable + bs.length := by
    change ios.wPos + bs.length - ios.rPos = ios.wPos - ios.rPos + bs.length
    omega
  have hdrop : (ios.extend bs).buf.drop ios.rPos =
      ios.toBytes ++ (bs ++ ios.buf.drop (ios.wPos + bs.length)) := by
    change (ios.buf.take ios.wPos ++ bs ++ _).drop ios.rPos = _
    rw [append_assoc, drop_append_of_le_length (by omega), drop_take]
    rfl
  have hbytes : ios.toBytes.length = ios.readable := Sound.length_toBytes ⟨hr, hw, hc⟩
  rw [toBytes, hread]
  change List.take _ ((ios.extend bs).buf.drop ios.rPos) = _
  rw [hdrop, ← hbytes, take_length_add_append, take_left']
  rfl

/-- A byte is written as a list of one byte is. -/
theorem Sound.write_eq (h : ios.Sound) (b : UInt8) : ios.write b = ios.writeBytes [b] := by
  obtain ⟨hr, hw, hc⟩ := h
  rw [write, writeBytes]
  by_cases hlt : ios.wPos < ios.capacity
  · have hroom : [b].length ≤ ios.writable := by
      rw [length_singleton, writable]
      omega
    rw [if_pos hlt, if_pos hroom, set_eq_take_append_cons_drop, if_pos (by omega)]
    simp
  · have hroom : ¬ [b].length ≤ ios.writable := by
      rw [length_singleton, writable]
      omega
    rw [if_neg hlt, if_neg hroom]

end IoSli

namespace WBuf

/-- A buffer stands for a queue. -/
structure Holds (wbf : WBuf) (q : BlockQueue UInt8) : Prop where
  sound : ∀ ios ∈ wbf.ioss, ios.Sound
  wIdx : (wbf.ioss.map IoSli.dims).length = wbf.wIdx + 1
  full : ∀ d ∈ (wbf.ioss.map IoSli.dims).take wbf.wIdx, d.1 = d.2
  room : ∀ d ∈ (wbf.ioss.map IoSli.dims).drop wbf.wIdx, d.2 - d.1 = q.room
  written : ((wbf.ioss.map IoSli.dims).map Prod.fst).sum = q.log.length
  rIdx_le : wbf.rIdx ≤ wbf.wIdx
  drained : ∀ ios ∈ wbf.ioss.take wbf.rIdx, ios.toBytes = []
  content : wbf.ioss.flatMap IoSli.toBytes = q.content
  step : wbf.expansionStep = q.step

variable {wbf : WBuf} {q : BlockQueue UInt8}

theorem holds_make (capacity : ℕ) (isExpandable : Bool) : (make capacity isExpandable).Holds
      (BlockQueue.empty capacity (if isExpandable then capacity else 0)) where
  sound ios hios := by
    obtain rfl := mem_singleton.mp hios
    exact IoSli.sound_make capacity
  wIdx := rfl
  full d hd := absurd hd not_mem_nil
  room d hd := by
    obtain rfl := mem_singleton.mp hd
    rfl
  written := rfl
  rIdx_le := le_rfl
  drained ios hios := absurd hios not_mem_nil
  content := by
    change (IoSli.make capacity).toBytes ++ [] = []
    rw [IoSli.toBytes_make, append_nil]
  step := rfl

/-- A buffer whose last slice is written to stands for a queue. -/
theorem Holds.of_split (front : List IoSli) (cur : IoSli) (hioss : wbf.ioss = front ++ [cur])
    (hidx : wbf.wIdx = front.length) (hfull : ∀ ios ∈ front, ios.wPos = ios.capacity)
    (hroom : cur.writable = q.room) (hfront : ∀ ios ∈ front, ios.Sound) (hcur : cur.Sound)
    (hwritten : (front.map IoSli.wPos).sum + cur.wPos = q.log.length)
    (hrIdx : wbf.rIdx ≤ front.length) (hdrained : ∀ ios ∈ front.take wbf.rIdx, ios.toBytes = [])
    (hcontent : front.flatMap IoSli.toBytes ++ cur.toBytes = q.content)
    (hstep : wbf.expansionStep = q.step) : wbf.Holds q := by
  have hmap : wbf.ioss.map IoSli.dims = front.map IoSli.dims ++ [cur.dims] := by
    rw [hioss, map_append]
    rfl
  refine ⟨?_, ?_, ?_, ?_, ?_, hidx ▸ hrIdx, ?_, ?_, hstep⟩
  · intro ios hios
    rw [hioss, mem_append, mem_singleton] at hios
    rcases hios with hios | rfl
    · exact hfront ios hios
    · exact hcur
  · rw [hmap, hidx]
    simp
  · rw [hmap, hidx, take_left' (by simp)]
    intro d hd
    obtain ⟨ios, hios, rfl⟩ := List.mem_map.mp hd
    exact hfull ios hios
  · rw [hmap, hidx, drop_left' (by simp)]
    intro d hd
    obtain rfl := mem_singleton.mp hd
    exact hroom
  · have hfst : Prod.fst ∘ IoSli.dims = IoSli.wPos := rfl
    rw [hmap, List.map_append, List.sum_append, List.map_map, hfst]
    exact hwritten
  · rw [hioss, take_append_of_le_length hrIdx]
    exact hdrained
  · rw [hioss, flatMap_append, flatMap_singleton, hcontent]

theorem getIosli_wIdx {front : List IoSli} {cur : IoSli} (hioss : wbf.ioss = front ++ [cur])
    (hidx : wbf.wIdx = front.length) : wbf.getIosli wbf.wIdx = some cur := by
  rw [getIosli, hioss, hidx, List.getElem?_concat_length]

theorem set_wIdx {front : List IoSli} {cur : IoSli} (hioss : wbf.ioss = front ++ [cur])
    (hidx : wbf.wIdx = front.length) (ios : IoSli) :
    wbf.ioss.set wbf.wIdx ios = front ++ [ios] := by
  rw [hioss, hidx, set_append_right _ _ le_rfl, Nat.sub_self]
  rfl

/-- Where the slices before the last one are full, it starts where the bytes written to them end. -/
theorem startOf_wIdx {front : List IoSli} {cur : IoSli} (hioss : wbf.ioss = front ++ [cur])
    (hidx : wbf.wIdx = front.length) (hfull : ∀ ios ∈ front, ios.wPos = ios.capacity) :
    wbf.startOf wbf.wIdx = (front.map IoSli.wPos).sum := by
  rw [startOf, hioss, hidx, take_left]
  exact congrArg List.sum (map_congr_left fun ios hios ↦ (hfull ios hios).symm)

/-- The parts of a buffer that stands for a queue, with the slice it writes to -/
theorem Holds.parts (h : wbf.Holds q) : ∃ front cur, wbf.ioss = front ++ [cur] ∧
    wbf.wIdx = front.length ∧ (∀ ios ∈ front, ios.wPos = ios.capacity) ∧
    cur.writable = q.room ∧ (∀ ios ∈ front, ios.Sound) ∧ cur.Sound ∧
    (front.map IoSli.wPos).sum + cur.wPos = q.log.length ∧
    (∀ ios ∈ front.take wbf.rIdx, ios.toBytes = []) ∧
    front.flatMap IoSli.toBytes ++ cur.toBytes = q.content := by
  have hlen : wbf.ioss.length = wbf.wIdx + 1 := by simpa using h.wIdx
  obtain ⟨front, cur, hioss⟩ : ∃ front cur, wbf.ioss = front ++ [cur] :=
    ⟨_, _, (dropLast_append_getLast (by
      intro hnil
      simp [hnil] at hlen)).symm⟩
  have hidx : wbf.wIdx = front.length := by
    rw [hioss, length_append] at hlen
    exact (Nat.succ_injective hlen).symm
  have hmap : wbf.ioss.map IoSli.dims = front.map IoSli.dims ++ [cur.dims] := by
    rw [hioss, map_append]
    rfl
  have hfst : Prod.fst ∘ IoSli.dims = IoSli.wPos := rfl
  have hfull := h.full
  have hroom := h.room
  have hsound := h.sound
  have hwritten := h.written
  have hdrained := h.drained
  have hcontent := h.content
  rw [hmap, hidx, take_left' (by simp)] at hfull
  rw [hmap, hidx, drop_left' (by simp)] at hroom
  rw [hmap, List.map_append, List.sum_append, List.map_map, hfst] at hwritten
  rw [hioss] at hsound hcontent hdrained
  rw [take_append_of_le_length (hidx ▸ h.rIdx_le)] at hdrained
  rw [flatMap_append, flatMap_singleton] at hcontent
  exact ⟨front, cur, hioss, hidx, fun ios hios ↦ hfull _ (mem_map_of_mem hios),
    hroom _ (mem_singleton_self _), fun ios hios ↦ hsound ios (mem_append_left _ hios),
    hsound cur (mem_append_right _ (mem_singleton_self _)), hwritten, hdrained, hcontent⟩

/-! ### Writes -/

/-- The slice a buffer writes to has the room of the queue, and what is written to it is put at
the end of the queue. -/
theorem Holds.cur (h : wbf.Holds q) : ∃ ios, wbf.getIosli wbf.wIdx = some ios ∧ ios.Sound ∧
    ios.writable = q.room ∧ ∀ bs : List UInt8, bs.length ≤ q.room →
      (wbf.setIosli wbf.wIdx (ios.extend bs)).Holds (q.put bs) := by
  have hrIdx := h.rIdx_le
  obtain ⟨front, cur, hioss, hidx, hfull, hroom, hfront, hcur, hwritten, hdrained, hcontent⟩ :=
    h.parts
  refine ⟨cur, getIosli_wIdx hioss hidx, hcur, hroom, fun bs hbs ↦ ?_⟩
  refine .of_split front (cur.extend bs) ?_ hidx hfull ?_ hfront
    (hcur.extend (by omega)) ?_ (hidx ▸ hrIdx) hdrained ?_ h.step
  · exact set_wIdx hioss hidx _
  · change cur.capacity - (cur.wPos + bs.length) = BlockQueue.roomAfter q.room q.step bs.length
    rw [BlockQueue.roomAfter, if_pos hbs, ← hroom, IoSli.writable, Nat.sub_sub]
  · change _ + (cur.wPos + bs.length) = (q.log ++ bs).length
    rw [length_append, ← hwritten, Nat.add_assoc]
  · rw [hcur.toBytes_extend, BlockQueue.content_put, ← hcontent, append_assoc]

/-- A new slice is a new block of the queue. -/
theorem Holds.addIosli (h : wbf.Holds q) (hq : q.room = 0) :
    (wbf.addIosli (IoSli.make wbf.expansionStep)).Holds q.grow := by
  have hrIdx := h.rIdx_le
  obtain ⟨front, cur, hioss, hidx, hfull, hroom, hfront, hcur, hwritten, hdrained, hcontent⟩ :=
    h.parts
  have hcurFull : cur.wPos = cur.capacity := by
    have := hcur.wPos_le
    rw [IoSli.writable, hq] at hroom
    omega
  refine .of_split (front ++ [cur]) (IoSli.make wbf.expansionStep) ?_ ?_ ?_ ?_ ?_
    (IoSli.sound_make _) ?_ ?_ ?_ ?_ h.step
  · exact congrArg (· ++ [IoSli.make wbf.expansionStep]) hioss
  · change wbf.wIdx + 1 = _
    rw [hidx, length_append]
    rfl
  · intro ios hios
    rcases mem_append.mp hios with hios | hios
    · exact hfull ios hios
    · exact mem_singleton.mp hios ▸ hcurFull
  · exact h.step
  · intro ios hios
    rcases mem_append.mp hios with hios | hios
    · exact hfront ios hios
    · exact mem_singleton.mp hios ▸ hcur
  · rw [map_append, sum_append]
    exact hwritten
  · rw [length_append]
    change wbf.rIdx ≤ _
    omega
  · change ∀ ios ∈ (front ++ [cur]).take wbf.rIdx, _
    rw [take_append_of_le_length (hidx ▸ hrIdx)]
    exact hdrained
  · rw [flatMap_append, flatMap_singleton, IoSli.toBytes_make, append_nil]
    exact hcontent

/-- The loop that expands a full buffer writes all bytes. The induction is on the number of
rounds, and before each of them the last slice is full. -/
theorem Holds.expandLoop : ∀ (fuel : ℕ) {wbf : WBuf} {q : BlockQueue UInt8} (bs : List UInt8),
    wbf.Holds q → q.step ≠ 0 → bs.length ≤ fuel → (bs ≠ [] → q.room = 0) →
      ∃ wbf', wbf.expandLoop fuel bs = some wbf' ∧ wbf'.Holds (q.put bs)
  | fuel, wbf, q, [], h, _, _, _ => by
    refine ⟨wbf, ?_, by rwa [BlockQueue.put_nil]⟩
    cases fuel <;> rfl
  | 0, _, _, _ :: _, _, _, hfuel, _ => absurd hfuel (by simp)
  | fuel + 1, wbf, q, b :: bs, h, hstep, hfuel, hroom => by
    have hgrow := h.addIosli (hroom (cons_ne_nil _ _))
    obtain ⟨ios, hget, hsound, hwritable, hput⟩ := hgrow.cur
    have hgrown : q.grow.room = q.step := rfl
    rw [WBuf.expandLoop, bind_eq_bind]
    simp only [hget, bind_some]
    generalize hn : (if (b :: bs).length < ios.writable then (b :: bs).length
      else ios.writable) = n
    have hle : ((b :: bs).take n).length ≤ q.grow.room := by
      rw [length_take, hgrown]
      split_ifs at hn <;> omega
    have hpos : 0 < n := by
      rw [hwritable, hgrown] at hn
      simp only [length_cons] at hn
      split_ifs at hn <;> omega
    rw [ios.writeBytes_eq (hwritable ▸ hle), bind_some]
    obtain ⟨wbf', hwbf', hholds⟩ := Holds.expandLoop fuel ((b :: bs).drop n) (hput _ hle)
      hstep (by
        rw [length_drop, length_cons]
        rw [length_cons] at hfuel
        omega) (by
        intro hne
        have hlt : n < (b :: bs).length := by
          by_contra hge
          exact hne (drop_eq_nil_of_le (by omega))
        change BlockQueue.roomAfter q.step q.step ((b :: bs).take n).length = 0
        rw [length_take, BlockQueue.roomAfter]
        rw [hwritable, hgrown] at hn
        split_ifs at hn ⊢ <;> omega)
    refine ⟨wbf', hwbf', ?_⟩
    rw [BlockQueue.put_put _ _ hle, take_append_drop,
      BlockQueue.grow_put _ (hroom (cons_ne_nil _ _)) hstep (cons_ne_nil _ _)] at hholds
    exact hholds

end WBuf

/-- A write to the queue that the buffer stands for: it fails when there is no room and the buffer
does not expand. -/
def append (q : BlockQueue UInt8) (bs : List UInt8) : WRes × BlockQueue UInt8 :=
  if bs.length ≤ q.room ∨ q.step ≠ 0 then (.ok, q.put bs) else (.noSpace, q)

namespace WBuf

variable {wbf : WBuf} {q : BlockQueue UInt8}

theorem Holds.writeBytes (h : wbf.Holds q) (bs : List UInt8) :
    ∃ wbf', wbf.writeBytes bs = some ((append q bs).1, wbf') ∧ wbf'.Holds (append q bs).2 := by
  obtain ⟨ios, hget, hsound, hwritable, hput⟩ := h.cur
  rw [WBuf.writeBytes, bind_eq_bind, hget, bind_some]
  simp only [hwritable, h.step]
  by_cases hle : bs.length ≤ q.room
  · rw [if_pos hle, ios.writeBytes_eq (hwritable ▸ hle), append, if_pos (.inl hle)]
    exact ⟨_, rfl, hput bs hle⟩
  · rw [if_neg hle]
    by_cases hstep : q.step = 0
    · rw [if_neg (not_not.mpr hstep), append, if_neg (by simp [hle, hstep])]
      exact ⟨wbf, rfl, h⟩
    · have htake : (bs.take q.room).length ≤ q.room := by
        rw [length_take]
        exact min_le_left _ _
      have hfull : (q.put (bs.take q.room)).room = 0 := by
        change BlockQueue.roomAfter q.room q.step (bs.take q.room).length = 0
        rw [BlockQueue.roomAfter, if_pos htake, length_take]
        omega
      obtain ⟨wbf', hwbf', hholds⟩ := Holds.expandLoop _ (bs.drop q.room)
        (hput _ htake) hstep le_rfl fun _ ↦ hfull
      rw [if_pos hstep, ios.writeBytes_eq (hwritable ▸ htake), append, if_pos (.inr hstep)]
      rw [BlockQueue.put_put _ _ htake, take_append_drop] at hholds
      refine ⟨wbf', ?_, hholds⟩
      simp only [bind_eq_bind, bind_some, hwbf']
      rfl

theorem Holds.writeHere (h : wbf.Holds q) (hroom : 0 < q.room) (b : UInt8) :
    ∃ wbf', wbf.writeHere b = some wbf' ∧ wbf'.Holds (q.put [b]) := by
  obtain ⟨ios, hget, hsound, hwritable, hput⟩ := h.cur
  have hone : [b].length ≤ q.room := hroom
  refine ⟨_, ?_, hput [b] hone⟩
  rw [WBuf.writeHere, bind_eq_bind, hget, bind_some, hsound.write_eq,
    ios.writeBytes_eq (hwritable ▸ hone)]
  rfl

theorem Holds.write (h : wbf.Holds q) (b : UInt8) :
    ∃ wbf', wbf.write b = some ((append q [b]).1, wbf') ∧ wbf'.Holds (append q [b]).2 := by
  obtain ⟨ios, hget, hsound, hwritable, hput⟩ := h.cur
  have hlen : wbf.ioss.length = wbf.wIdx + 1 := by simpa using h.wIdx
  have hcan : ios.canWrite = true ↔ 0 < q.room := by
    rw [← hwritable, IoSli.writable, IoSli.canWrite, decide_eq_true_iff]
    omega
  rw [WBuf.write, bind_eq_bind, hget, bind_some]
  simp only [hcan]
  by_cases hroom : 0 < q.room
  · obtain ⟨wbf', hwbf', hholds⟩ := h.writeHere hroom b
    rw [if_pos hroom, hwbf', append, if_pos (.inl hroom)]
    exact ⟨wbf', rfl, hholds⟩
  · have hnone : ¬ [b].length ≤ q.room := hroom
    rw [if_neg hroom, if_pos hlen.le]
    by_cases hstep : q.step = 0
    · rw [if_pos (h.step.trans hstep), append, if_neg (by tauto)]
      exact ⟨wbf, rfl, h⟩
    · have hzero : q.room = 0 := by omega
      obtain ⟨wbf', hwbf', hholds⟩ :=
        (h.addIosli hzero).writeHere (Nat.pos_of_ne_zero hstep) b
      rw [if_neg (h.step ▸ hstep), hwbf', append, if_pos (.inr hstep)]
      rw [BlockQueue.grow_put _ hzero hstep (cons_ne_nil _ _)] at hholds
      exact ⟨wbf', rfl, hholds⟩

section Wrap

variable {front : List IoSli} {cur : IoSli}

/-- The slice before wrapped bytes, which is full now -/
def cutAt (cur : IoSli) : IoSli := { cur with capacity := cur.wPos }

/-- Wrapped bytes -/
def wrapped (bs : List UInt8) : IoSli := ⟨0, bs.length, bs.length, bs, false⟩

/-- The slice behind wrapped bytes, with the room of the one before them -/
def behind (cur : IoSli) : IoSli := ⟨0, 0, cur.writable, cur.buf.drop cur.wPos, false⟩

theorem sound_cutAt (h : cur.Sound) : (cutAt cur).Sound := by
  obtain ⟨hr, hw, hc⟩ := h
  exact ⟨hr, le_rfl, hw.trans hc⟩

theorem sound_wrapped (bs : List UInt8) : (wrapped bs).Sound := ⟨Nat.zero_le _, le_rfl, le_rfl⟩

theorem sound_behind (h : cur.Sound) : (behind cur).Sound := by
  obtain ⟨hr, hw, hc⟩ := h
  refine ⟨le_rfl, Nat.zero_le _, ?_⟩
  change cur.capacity - cur.wPos ≤ (cur.buf.drop cur.wPos).length
  rw [length_drop]
  omega

/-- The slices after bytes are wrapped -/
theorem wrapBytes_eq (hioss : wbf.ioss = front ++ [cur]) (hidx : wbf.wIdx = front.length)
    (bs : List UInt8) : wbf.wrapBytes bs =
      some ⟨front ++ [cutAt cur] ++ [wrapped bs] ++ [behind cur], wbf.rIdx, wbf.wIdx + 2,
        wbf.expansionStep⟩ := by
  have hget := getIosli_wIdx hioss hidx
  have hset := set_wIdx hioss hidx (cutAt cur)
  have hcut : ({ cur with capacity := cur.wPos } : IoSli) = cutAt cur := rfl
  have hwrap : IoSli.wrap bs bs.length 0 bs.length = some (wrapped bs) :=
    if_pos ⟨Nat.zero_le _, le_rfl⟩
  have hbehind : IoSli.wrap ((cutAt cur).buf.drop (cutAt cur).wPos) cur.writable 0 0 =
      some (behind cur) :=
    if_pos ⟨le_rfl, Nat.zero_le _⟩
  have hprev : (front ++ [cutAt cur] ++ [wrapped bs])[wbf.wIdx]? = some (cutAt cur) := by
    rw [hidx, List.getElem?_append_left (by simp)]
    simp
  rw [WBuf.wrapBytes, bind_eq_bind, hget, bind_some]
  simp only [setIosli, WBuf.addIosli, getIosli, hcut, hset, hwrap, bind_some,
    Nat.add_sub_cancel, hprev, hbehind]
  rfl

/-- What all slices before wrapped bytes and these have in common -/
theorem forall_mem_wrapped {P : IoSli → Prop} (hfront : ∀ ios ∈ front, P ios) (hcut : P (cutAt cur))
    (hwrapped : P (wrapped bs)) : ∀ ios ∈ front ++ [cutAt cur] ++ [wrapped bs], P ios := by
  intro ios hios
  simp only [mem_append, mem_singleton] at hios
  rcases hios with (hios | rfl) | rfl
  · exact hfront ios hios
  · exact hcut
  · exact hwrapped

end Wrap

/-- Wrapped bytes are put at the end of the queue, and the room of the queue stays what it was. -/
theorem Holds.wrapBytes (h : wbf.Holds q) (bs : List UInt8) :
    ∃ wbf', wbf.wrapBytes bs = some wbf' ∧ wbf'.Holds (q.attach bs) := by
  have hrIdx := h.rIdx_le
  obtain ⟨front, cur, hioss, hidx, hfull, hroom, hfront, hcur, hwritten, hdrained, hcontent⟩ :=
    h.parts
  refine ⟨_, wrapBytes_eq hioss hidx bs, ?_⟩
  refine .of_split (front ++ [cutAt cur] ++ [wrapped bs]) (behind cur) rfl ?_
    (forall_mem_wrapped hfull rfl rfl) hroom
    (forall_mem_wrapped hfront (sound_cutAt hcur) (sound_wrapped bs)) (sound_behind hcur)
    ?_ ?_ ?_ ?_ h.step
  · change wbf.wIdx + 2 = _
    simp [hidx]
  · change _ + 0 = (q.log ++ bs).length
    rw [map_append, map_append, sum_append, sum_append, length_append, ← hwritten]
    rfl
  · change wbf.rIdx ≤ _
    simp only [length_append, length_singleton]
    omega
  · change ∀ ios ∈ (front ++ [cutAt cur] ++ [wrapped bs]).take wbf.rIdx, _
    rw [append_assoc, take_append_of_le_length (hidx ▸ hrIdx)]
    exact hdrained
  · have hempty : (behind cur).toBytes = [] := take_zero
    have hbytes : (wrapped bs).toBytes = bs := take_length
    rw [flatMap_append, flatMap_append, flatMap_singleton, flatMap_singleton,
      hempty, hbytes, append_nil, BlockQueue.content_attach, ← hcontent]
    rfl

/-! ### Reads -/

/-- The slice a buffer reads from: the bytes read from it are the first of the queue. -/
theorem Holds.reading (h : wbf.Holds q) : ∃ ios, wbf.getIosli wbf.rIdx = some ios ∧ ios.Sound ∧
    (∃ rest, q.content = ios.toBytes ++ rest) ∧
    (∀ n ≤ ios.readable, (wbf.setIosli wbf.rIdx (ios.advance n)).Holds (q.drop n)) ∧
    (ios.readable = 0 → wbf.rIdx < wbf.wIdx → { wbf with rIdx := wbf.rIdx + 1 }.Holds q) ∧
    (ios.readable = 0 → wbf.wIdx ≤ wbf.rIdx → q.content = []) := by
  have hlen : wbf.ioss.length = wbf.wIdx + 1 := by simpa using h.wIdx
  have hrIdx := h.rIdx_le
  have hlt : wbf.rIdx < wbf.ioss.length := by omega
  set ios := wbf.ioss[wbf.rIdx] with hios
  have hsound : ios.Sound := h.sound _ (getElem_mem hlt)
  have hsplit : wbf.ioss.take wbf.rIdx ++ ios :: wbf.ioss.drop (wbf.rIdx + 1) = wbf.ioss := by
    rw [hios, ← drop_eq_getElem_cons hlt, take_append_drop]
  have hdone : (wbf.ioss.take wbf.rIdx).flatMap IoSli.toBytes = [] := by
    rw [flatMap_eq_nil_iff]
    exact h.drained
  have hcontent : q.content =
      ios.toBytes ++ (wbf.ioss.drop (wbf.rIdx + 1)).flatMap IoSli.toBytes := by
    rw [← h.content]
    conv_lhs => rw [← hsplit]
    rw [flatMap_append, hdone, nil_append, flatMap_cons]
  have hzero : ios.readable = 0 → ios.toBytes = [] := fun hr ↦
    eq_nil_of_length_eq_zero (hsound.length_toBytes.trans hr)
  refine ⟨ios, List.getElem?_eq_getElem hlt, hsound, ⟨_, hcontent⟩, ?_, ?_, ?_⟩
  · intro n hn
    have hset : (wbf.setIosli wbf.rIdx (ios.advance n)).ioss =
        wbf.ioss.take wbf.rIdx ++ ios.advance n :: wbf.ioss.drop (wbf.rIdx + 1) := by
      change wbf.ioss.set _ _ = _
      rw [set_eq_take_append_cons_drop, if_pos hlt]
    have hdims : (wbf.setIosli wbf.rIdx (ios.advance n)).ioss.map IoSli.dims =
        wbf.ioss.map IoSli.dims := by
      rw [hset, map_append, map_cons, IoSli.dims_advance, ← map_cons, ← map_append, hsplit]
    refine ⟨?_, ?_, ?_, ?_, ?_, h.rIdx_le, ?_, ?_, h.step⟩
    · intro other hother
      rcases mem_or_eq_of_mem_set hother with hother | rfl
      · exact h.sound other hother
      · exact hsound.advance hn
    · exact hdims ▸ h.wIdx
    · exact hdims ▸ h.full
    · exact hdims ▸ h.room
    · exact hdims ▸ h.written
    · rw [hset]
      change ∀ other ∈ (wbf.ioss.take wbf.rIdx ++ _).take wbf.rIdx, _
      rw [take_left' (by rw [length_take]; omega)]
      exact h.drained
    · rw [hset, flatMap_append, hdone, nil_append, flatMap_cons,
        ios.toBytes_advance, BlockQueue.content_drop, hcontent, drop_append_of_le_length]
      rw [hsound.length_toBytes]
      exact hn
  · intro hr hnext
    refine ⟨h.sound, h.wIdx, h.full, h.room, h.written, hnext, ?_, h.content, h.step⟩
    change ∀ other ∈ wbf.ioss.take (wbf.rIdx + 1), _
    rw [take_succ_eq_append_getElem hlt]
    intro other hother
    rcases mem_append.mp hother with hother | hother
    · exact h.drained other hother
    · exact mem_singleton.mp hother ▸ hzero hr
  · intro hr hlast
    rw [hcontent, hzero hr, drop_eq_nil_of_le (by omega)]
    rfl

/-- The loop of the reads takes the first bytes of the queue. The induction is on the rounds: a
slice that is used up counts for one round more, the others for two. -/
theorem Holds.takeLoop : ∀ (fuel : ℕ) {wbf : WBuf} {q : BlockQueue UInt8} {n : ℕ}, wbf.Holds q →
    n ≤ q.content.length → 0 < n ∨ q.content ≠ [] ∨ wbf.rIdx < wbf.wIdx →
    2 * (wbf.wIdx + 1 - wbf.rIdx) ≤ fuel ∨ 2 * (wbf.wIdx + 1 - wbf.rIdx) ≤ fuel + 1 ∧
      (∃ ios, wbf.getIosli wbf.rIdx = some ios ∧ ios.readable = 0) →
    ∃ wbf', wbf.takeLoop fuel n = some (q.content.take n, wbf') ∧ wbf'.Holds (q.drop n)
  | 0, wbf, _, _, h, _, _, hfuel => by
    have := h.rIdx_le
    omega
  | fuel + 1, wbf, q, n, h, hn, hgo, hfuel => by
    obtain ⟨ios, hget, hsound, ⟨rest, hrest⟩, hread, hpass, hlast⟩ := h.reading
    have hle := h.rIdx_le
    rw [WBuf.takeLoop, if_neg (by omega), bind_eq_bind, hget, bind_some]
    by_cases hr : 0 < ios.readable
    · rw [if_pos hr]
      simp only
      generalize htoRead : (if ios.readable ≤ n then ios.readable else n) = m
      have hm : m ≤ ios.readable := by split_ifs at htoRead <;> omega
      have hbytes := hsound.length_toBytes
      rw [ios.readBytes_eq hm, bind_eq_bind, bind_some]
      simp only
      by_cases hmore : 0 < n - m
      · have hall : m = ios.readable := by split_ifs at htoRead <;> omega
        have htwice : 2 * (wbf.wIdx + 1 - wbf.rIdx) ≤ fuel + 1 := by
          rcases hfuel with hfuel | ⟨_, other, hother, hzero⟩
          · exact hfuel
          · obtain rfl := some.inj (hget.symm.trans hother)
            omega
        have hused : (wbf.setIosli wbf.rIdx (ios.advance m)).getIosli wbf.rIdx =
            some (ios.advance m) := by
          obtain ⟨hlt, _⟩ := List.getElem?_eq_some_iff.mp hget
          exact List.getElem?_set_self hlt
        obtain ⟨wbf', hwbf', hholds⟩ := Holds.takeLoop (n := n - m) fuel (hread m hm) (by
            rw [BlockQueue.content_drop, length_drop]
            omega) (.inl hmore) (.inr ⟨htwice, _, hused, by
            change ios.wPos - (ios.rPos + m) = 0
            rw [hall, IoSli.readable]
            omega⟩)
        rw [if_pos hmore, hwbf', bind_eq_bind, bind_some]
        refine ⟨wbf', ?_, ?_⟩
        · have htake : ios.toBytes.take m = ios.toBytes :=
            take_of_length_le (by omega)
          have hdrop : q.content.drop m = rest := by
            rw [hrest, drop_left' (by omega)]
          have hfirst : ios.toBytes.take n = ios.toBytes :=
            take_of_length_le (by omega)
          rw [BlockQueue.content_drop, hdrop, htake, hrest, take_append, hfirst, hbytes, hall]
          rfl
        · rw [BlockQueue.drop_drop, Nat.add_sub_cancel' (by omega)] at hholds
          exact hholds
      · have hall : m = n := by split_ifs at htoRead <;> omega
        rw [if_neg hmore, hall]
        refine ⟨_, ?_, hread n (hall ▸ hm)⟩
        rw [hrest, take_append_of_le_length (by omega)]
        rfl
    · have hzero : ios.readable = 0 := by omega
      have hnext : wbf.rIdx < wbf.wIdx := by
        by_contra hge
        have hnil := hlast hzero (by omega)
        rw [hnil] at hn hgo
        simp at hn hgo
        omega
      rw [if_neg hr]
      by_cases hpos : 0 < n
      · obtain ⟨wbf', hwbf', hholds⟩ := Holds.takeLoop (n := n) fuel (hpass hzero hnext) hn
          (.inl hpos) (by
            refine .inl ?_
            change 2 * (wbf.wIdx + 1 - (wbf.rIdx + 1)) ≤ fuel
            rcases hfuel with hfuel | ⟨hfuel, _⟩ <;> omega)
        rw [if_pos hpos]
        exact ⟨wbf', hwbf', hholds⟩
      · obtain rfl : n = 0 := by omega
        rw [if_neg hpos, BlockQueue.drop_zero]
        exact ⟨_, rfl, hpass hzero hnext⟩

theorem Holds.readBytes (h : wbf.Holds q) {n : ℕ} (hn : n ≤ q.content.length)
    (hgo : 0 < n ∨ q.content ≠ [] ∨ wbf.rIdx < wbf.wIdx) :
    ∃ wbf', wbf.readBytes n = some (q.content.take n, wbf') ∧ wbf'.Holds (q.drop n) :=
  Holds.takeLoop _ h hn hgo (.inl (Nat.le_succ _))

/-- The loop of `_z_wbuf_read`. The induction is on the number of the slices left. -/
theorem Holds.readLoop : ∀ (left : ℕ) {wbf : WBuf}, wbf.Holds q → q.content ≠ [] →
    left = wbf.wIdx + 1 - wbf.rIdx →
    ∃ b wbf', wbf.readLoop left = some (b, wbf') ∧ q.content.take 1 = [b] ∧ wbf'.Holds (q.drop 1)
  | 0, wbf, h, _, hleft => by
    have := h.rIdx_le
    omega
  | left + 1, wbf, h, hne, hleft => by
    obtain ⟨ios, hget, hsound, ⟨rest, hrest⟩, hread, hpass, hlast⟩ := h.reading
    rw [WBuf.readLoop, bind_eq_bind, hget, bind_some]
    by_cases hr : 0 < ios.readable
    · obtain ⟨b, hb, htake⟩ := hsound.read_eq hr
      have hbytes := hsound.length_toBytes
      refine ⟨b, _, ?_, ?_, hread 1 hr⟩
      · rw [if_pos hr, hb]
        rfl
      · rw [hrest, take_append_of_le_length (by omega), htake]
    · have hzero : ios.readable = 0 := by omega
      have hnext : wbf.rIdx < wbf.wIdx := by
        by_contra hge
        exact hne (hlast hzero (by omega))
      rw [if_neg hr]
      refine Holds.readLoop left (hpass hzero hnext) hne ?_
      change left = wbf.wIdx + 1 - (wbf.rIdx + 1)
      omega

theorem Holds.read (h : wbf.Holds q) (hne : q.content ≠ []) :
    ∃ b wbf', wbf.read = some (b, wbf') ∧ q.content.take 1 = [b] ∧ wbf'.Holds (q.drop 1) :=
  Holds.readLoop _ h hne rfl

/-- The slices from the read index up to the write index hold what is left to read. -/
theorem Holds.unread (h : wbf.Holds q) :
    ((wbf.ioss.take (wbf.wIdx + 1)).drop wbf.rIdx).flatMap IoSli.toBytes = q.content := by
  have hlen : wbf.ioss.length = wbf.wIdx + 1 := by simpa using h.wIdx
  have hdone : (wbf.ioss.take wbf.rIdx).flatMap IoSli.toBytes = [] := by
    rw [flatMap_eq_nil_iff]
    exact h.drained
  rw [take_of_length_le hlen.le, ← h.content]
  conv_rhs => rw [← take_append_drop wbf.rIdx wbf.ioss]
  rw [flatMap_append, hdone, nil_append]

theorem Holds.sum_readable (h : wbf.Holds q) {ioss : List IoSli} (hsub : ioss ⊆ wbf.ioss) :
    (ioss.map IoSli.readable).sum = (ioss.flatMap IoSli.toBytes).length := by
  rw [length_flatMap]
  exact congrArg List.sum (map_congr_left fun ios hios ↦
    (h.sound ios (hsub hios)).length_toBytes.symm)

theorem Holds.len (h : wbf.Holds q) : wbf.len = q.content.length := by
  rw [WBuf.len, h.sum_readable, h.unread]
  exact fun ios hios ↦ mem_of_mem_take (mem_of_mem_drop hios)

/-- Slices copied one behind the other into a buffer with room for all of them -/
theorem readable_foldl_write (ioss : List IoSli) : ∀ zbf : ZBuf,
    (ioss.flatMap IoSli.toBytes).length ≤ zbf.spaceLeft →
      (ioss.foldl (fun zbf ios ↦ zbf.write ios.toBytes) zbf).readable =
        zbf.readable ++ ioss.flatMap IoSli.toBytes := by
  induction ioss with
  | nil => exact fun zbf _ ↦ (append_nil _).symm
  | cons ios ioss ih =>
    intro zbf hroom
    rw [flatMap_cons, length_append] at hroom
    have hfit : ios.toBytes.length ≤ zbf.spaceLeft := by omega
    rw [foldl_cons, ih, zbf.readable_write hfit, flatMap_cons, append_assoc]
    rw [ZBuf.spaceLeft, zbf.bytes_write hfit, length_append, ZBuf.capacity_write]
    rw [ZBuf.spaceLeft] at hroom
    omega

theorem Holds.toZbuf (h : wbf.Holds q) :
    ∃ zbf, wbf.toZbuf = some zbf ∧ zbf.readable = q.content := by
  have hlen : wbf.ioss.length = wbf.wIdx + 1 := by simpa using h.wIdx
  refine ⟨_, if_neg (by omega), ?_⟩
  rw [readable_foldl_write, h.unread, ZBuf.readable_make, nil_append]
  rw [h.unread, ← h.len]
  exact le_rfl

/-! ### Positions -/

/-- The slices before the one that is written to start where the bytes written to them end. -/
theorem Holds.getWpos (h : wbf.Holds q) : wbf.getWpos = some q.log.length := by
  obtain ⟨front, cur, hioss, hidx, hfull, hroom, hfront, hcur, hwritten, hdrained, hcontent⟩ :=
    h.parts
  rw [WBuf.getWpos, getIosli_wIdx hioss hidx, ← hwritten, ← startOf_wIdx hioss hidx hfull]
  rfl

/-- A position in the last slice, when the slices before it are full. The induction is on these,
each of which the loop passes. -/
theorem setWposLoop_append (pos : ℕ) (cur : IoSli) (hcur : pos ≤ cur.capacity)
    (hread : cur.rPos ≤ pos) : ∀ {front : List IoSli},
    (∀ ios ∈ front, ios.wPos = ios.capacity) → front = [] ∨ 0 < pos →
      setWposLoop ((front.map IoSli.capacity).sum + pos) (front ++ [cur]) =
        some (front.length, front ++ [{ cur with wPos := pos }])
  | [], _, _ => by
    change setWposLoop (0 + pos) [cur] = _
    rw [Nat.zero_add, setWposLoop, if_pos ⟨hcur, hread⟩]
    rfl
  | ios :: front, hfull, hpos => by
    have hpos : 0 < pos := hpos.resolve_left (cons_ne_nil _ _)
    have hsum : ((ios :: front).map IoSli.capacity).sum + pos =
        ios.capacity + ((front.map IoSli.capacity).sum + pos) := by
      rw [map_cons, sum_cons, Nat.add_assoc]
    have hsame : ({ ios with wPos := ios.capacity } : IoSli) = ios := by
      obtain ⟨rPos, wPos, capacity, buf, isAlloc⟩ := ios
      obtain rfl : wPos = capacity := hfull _ mem_cons_self
      rfl
    rw [hsum, cons_append, setWposLoop, if_neg (by omega), if_neg (by omega),
      Nat.add_sub_cancel_left, setWposLoop_append pos cur hcur hread
        (fun other hother ↦ hfull other (mem_cons_of_mem _ hother)) (.inr hpos), hsame]
    rfl

/-- A write position lies inside the slice that is written to, behind what was read of it. -/
def Within (wbf : WBuf) (pos : ℕ) : Prop :=
  ∀ ios, wbf.getIosli wbf.wIdx = some ios → wbf.startOf wbf.wIdx + ios.rPos ≤ pos ∧
    (wbf.wIdx = 0 ∨ wbf.startOf wbf.wIdx < pos)

theorem Holds.setWpos (h : wbf.Holds q) {pos : ℕ} (hpos : pos ≤ q.log.length)
    (hwithin : wbf.Within pos) :
    ∃ wbf', wbf.setWpos pos = some wbf' ∧ wbf'.Holds (q.setBack pos) := by
  have hrIdx := h.rIdx_le
  obtain ⟨front, cur, hioss, hidx, hfull, hroom, hfront, hcur, hwritten, hdrained, hcontent⟩ :=
    h.parts
  have hcaps : (front.map IoSli.capacity).sum = (front.map IoSli.wPos).sum :=
    congrArg List.sum (map_congr_left fun ios hios ↦ (hfull ios hios).symm)
  obtain ⟨hbehind, hinside⟩ := hwithin cur (getIosli_wIdx hioss hidx)
  rw [startOf_wIdx hioss hidx hfull] at hbehind hinside
  obtain ⟨p, rfl⟩ : ∃ p, pos = (front.map IoSli.wPos).sum + p := ⟨_, (Nat.add_sub_cancel'
    (by omega)).symm⟩
  have hread := hcur.rPos_le
  have hcap := hcur.wPos_le
  have hlong := hcur.capacity_le
  have hfirst : front = [] ∨ 0 < p := hinside.imp
    (fun hz ↦ eq_nil_of_length_eq_zero (hidx ▸ hz)) fun hlt ↦ by omega
  have hloop := setWposLoop_append p cur (by omega) (by omega) hfull hfirst
  rw [hcaps, ← hioss] at hloop
  have hsound : ({ cur with wPos := p } : IoSli).Sound := by
    refine ⟨?_, ?_, hlong⟩
    · change cur.rPos ≤ p
      omega
    · change p ≤ cur.capacity
      omega
  have hcut : ({ cur with wPos := p } : IoSli).toBytes = cur.toBytes.take (p - cur.rPos) := by
    rw [IoSli.toBytes, IoSli.toBytes, take_take]
    change List.take (p - cur.rPos) _ = _
    rw [IoSli.readable, min_eq_left (by omega)]
  have hlen := congrArg List.length hcontent
  rw [length_append, BlockQueue.length_content, hcur.length_toBytes, IoSli.readable] at hlen
  have htaken := q.taken_le
  refine ⟨⟨_, _, _, _⟩, by rw [WBuf.setWpos, hloop]; rfl, .of_split _ _ rfl rfl hfull ?_ hfront hsound
    ?_ (hidx ▸ hrIdx) hdrained ?_ h.step⟩
  · change cur.capacity - p = q.room + (q.log.length - _)
    rw [← hroom, IoSli.writable]
    omega
  · change _ + p = (q.log.take _).length
    rw [length_take]
    omega
  · have hsplit : (front.map IoSli.wPos).sum + p - q.taken =
        (front.flatMap IoSli.toBytes).length + (p - cur.rPos) := by omega
    rw [q.content_setBack (by omega), hcut, ← hcontent, hsplit, take_length_add_append]

end WBuf

end ZenohPico.Protocol
