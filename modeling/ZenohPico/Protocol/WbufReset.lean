import ZenohPico.Protocol.WbufRuns

/-!
A write buffer after a reset, beside a newly made one.

A reset keeps the slices that the buffer expanded with, and writes go to these before new ones are
made. `WBuf.Like` says that two buffers agree in the slices up to the write index and have only
empty slices behind it; two such buffers give the same replies.
-/

open List Option

namespace ZenohPico.Protocol

variable {s t : IoSli} {n : ℕ} {bs : List UInt8}

namespace IoSli

/-- Two slices have the same positions and the same bytes written to them. -/
structure Same (s t : IoSli) : Prop where
  rPos : s.rPos = t.rPos
  wPos : s.wPos = t.wPos
  capacity : s.capacity = t.capacity
  bytes : s.buf.take s.wPos = t.buf.take t.wPos
  sound_left : s.Sound
  sound_right : t.Sound

/-- An empty slice of a given capacity -/
structure Fresh (capacity : ℕ) (s : IoSli) : Prop where
  rPos : s.rPos = 0
  wPos : s.wPos = 0
  capacity_eq : s.capacity = capacity
  capacity_le : capacity ≤ s.buf.length

theorem fresh_make (capacity : ℕ) : (make capacity).Fresh capacity :=
  ⟨rfl, rfl, rfl, by rw [make, length_replicate]⟩

theorem Fresh.same {capacity : ℕ} (hs : s.Fresh capacity) (ht : t.Fresh capacity) : s.Same t := by
  obtain ⟨hsr, hsw, hsc, hsl⟩ := hs
  obtain ⟨htr, htw, htc, htl⟩ := ht
  refine ⟨by omega, by omega, by omega, ?_, ⟨by omega, by omega, by omega⟩,
    ⟨by omega, by omega, by omega⟩⟩
  rw [hsw, htw, take_zero, take_zero]

theorem Same.readable (h : s.Same t) : s.readable = t.readable := by
  rw [IoSli.readable, IoSli.readable, h.rPos, h.wPos]

theorem Same.writable (h : s.Same t) : s.writable = t.writable := by
  rw [IoSli.writable, IoSli.writable, h.capacity, h.wPos]

theorem toBytes_eq (ios : IoSli) : ios.toBytes = (ios.buf.take ios.wPos).drop ios.rPos := by
  rw [toBytes, readable, drop_take]

theorem Same.toBytes (h : s.Same t) : s.toBytes = t.toBytes := by
  rw [toBytes_eq, toBytes_eq, h.bytes, h.rPos]

theorem Same.advance (h : s.Same t) (hn : n ≤ s.readable) : (s.advance n).Same (t.advance n) :=
  ⟨congrArg (· + n) h.rPos, h.wPos, h.capacity, h.bytes, h.sound_left.advance hn,
    h.sound_right.advance (h.readable ▸ hn)⟩

theorem Same.extend (h : s.Same t) (hbs : bs.length ≤ s.writable) :
    (s.extend bs).Same (t.extend bs) := by
  have hwritten {ios : IoSli} (hios : ios.Sound) :
      (ios.extend bs).buf.take (ios.extend bs).wPos = ios.buf.take ios.wPos ++ bs := by
    have hlen : (ios.buf.take ios.wPos ++ bs).length = ios.wPos + bs.length := by
      obtain ⟨hr, hw, hc⟩ := hios
      rw [length_append, length_take]
      omega
    exact take_left' hlen
  refine ⟨h.rPos, congrArg (· + bs.length) h.wPos, h.capacity, ?_, h.sound_left.extend hbs,
    h.sound_right.extend (h.writable ▸ hbs)⟩
  rw [hwritten h.sound_left, hwritten h.sound_right, h.bytes]

/-- The end of a slice cut off, and what is behind it -/
theorem Same.cut {s t : IoSli} (h : s.Same t) :
    ({ s with capacity := s.wPos } : IoSli).Same { t with capacity := t.wPos } :=
  ⟨h.rPos, h.wPos, h.wPos, h.bytes,
    ⟨h.sound_left.rPos_le, le_rfl, h.sound_left.wPos_le.trans h.sound_left.capacity_le⟩,
    ⟨h.sound_right.rPos_le, le_rfl, h.sound_right.wPos_le.trans h.sound_right.capacity_le⟩⟩

end IoSli

variable {ρ : Type}

namespace WBuf

open IoSli

/-- Two buffers agree up to the write index, the first one has only empty slices behind it and the
second one has none there. -/
structure Like (a b : WBuf) : Prop where
  rIdx : a.rIdx = b.rIdx
  wIdx : a.wIdx = b.wIdx
  step : a.expansionStep = b.expansionStep
  length : b.ioss.length = b.wIdx + 1
  used : ∀ i ≤ a.wIdx, ∃ s t, a.ioss[i]? = some s ∧ b.ioss[i]? = some t ∧ s.Same t
  spare : ∀ i s, a.wIdx < i → a.ioss[i]? = some s → s.Fresh a.expansionStep
  fixed : a.expansionStep = 0 → a.ioss.length = a.wIdx + 1

variable {a b : WBuf}

theorem Like.length_lt (h : a.Like b) : a.wIdx < a.ioss.length := by
  obtain ⟨s, t, hs, -, -⟩ := h.used a.wIdx le_rfl
  exact (List.getElem?_eq_some_iff.mp hs).1

variable {i : ℕ}

/-- Both buffers after a change of one of the slices in which they agree -/
theorem Like.setIosli (h : a.Like b) (hi : i ≤ a.wIdx) (hst : s.Same t) :
    (a.setIosli i s).Like (b.setIosli i t) := by
  have hlt := h.length_lt
  have hlength := h.length
  have hwIdx := h.wIdx
  refine ⟨h.rIdx, h.wIdx, h.step, ?_, ?_, ?_, ?_⟩
  · exact (length_set ..).trans h.length
  · intro j hj
    obtain ⟨s', t', hs', ht', hst'⟩ := h.used j hj
    change j ≤ a.wIdx at hj
    change ∃ s t, (a.ioss.set _ _)[j]? = some s ∧ (b.ioss.set _ _)[j]? = some t ∧ s.Same t
    by_cases hij : i = j
    · subst hij
      exact ⟨s, t, List.getElem?_set_self (by omega), List.getElem?_set_self (by omega), hst⟩
    · exact ⟨s', t', by rwa [List.getElem?_set_ne hij], by rwa [List.getElem?_set_ne hij], hst'⟩
  · intro j s' hj hs'
    change (a.ioss.set _ _)[j]? = some s' at hs'
    change a.wIdx < j at hj
    rw [List.getElem?_set_ne (by omega)] at hs'
    exact h.spare j s' hj hs'
  · intro hstep
    exact (length_set ..).trans (h.fixed hstep)

/-- The write index goes on in both buffers: in the second one to a new slice, in the first one to a
slice that agrees with it and is not among those before. -/
theorem Like.grow (h : a.Like b) {ioss : List IoSli} (hkept : ∀ i ≤ a.wIdx, ioss[i]? = a.ioss[i]?)
    (hs : ioss[a.wIdx + 1]? = some s) (hst : s.Same t)
    (hspare : ∀ i s', a.wIdx + 1 < i → ioss[i]? = some s' → s'.Fresh a.expansionStep)
    (hfixed : a.expansionStep = 0 → ioss.length = a.wIdx + 1 + 1) :
    { a with ioss, wIdx := a.wIdx + 1 }.Like (b.addIosli t) := by
  have hlength := h.length
  have hwIdx := h.wIdx
  refine ⟨h.rIdx, congrArg (· + 1) h.wIdx, h.step, ?_, ?_, hspare, hfixed⟩
  · change (b.ioss ++ _).length = b.wIdx + 1 + 1
    rw [length_append, h.length]
    rfl
  · intro i hi
    change i ≤ a.wIdx + 1 at hi
    change ∃ s t, ioss[i]? = some s ∧ (b.ioss ++ _)[i]? = some t ∧ s.Same t
    rcases Nat.le_add_one_iff.mp hi with hi | rfl
    · obtain ⟨s, t, hs, ht, hst⟩ := h.used i hi
      exact ⟨s, t, (hkept i hi).trans hs, by rwa [List.getElem?_append_left (by omega)], hst⟩
    · refine ⟨s, t, hs, ?_, hst⟩
      rw [hwIdx, ← hlength, List.getElem?_concat_length]

/-- A new slice in both buffers. In the first one the next of the empty slices is used instead. -/
theorem Like.addIosli_make (h : a.Like b) (hstep : a.expansionStep ≠ 0) :
    (a.addIosli (IoSli.make a.expansionStep)).Like
      (b.addIosli (IoSli.make b.expansionStep)) := by
  have hlt := h.length_lt
  have hnew {i : ℕ} {s : IoSli} (hi : a.wIdx < i)
      (hs : (a.ioss ++ [IoSli.make a.expansionStep])[i]? = some s) : s.Fresh a.expansionStep := by
    rcases lt_or_ge i a.ioss.length with hlt | hge
    · rw [List.getElem?_append_left hlt] at hs
      exact h.spare i s hi hs
    · rw [List.getElem?_append_right hge] at hs
      obtain ⟨_, hget⟩ := List.getElem?_eq_some_iff.mp hs
      rw [getElem_singleton] at hget
      exact hget ▸ fresh_make _
  have hsome : ∃ s, (a.ioss ++ [IoSli.make a.expansionStep])[a.wIdx + 1]? = some s :=
    ⟨_, List.getElem?_eq_getElem (by
      rw [length_append, length_singleton]
      omega)⟩
  obtain ⟨s, hs⟩ := hsome
  refine h.grow (fun i hi ↦ List.getElem?_append_left (by omega)) hs
    ((hnew (Nat.lt_succ_self _) hs).same (h.step ▸ fresh_make _)) (fun i s' hi hs' ↦ ?_)
    fun hz ↦ absurd hz hstep
  exact hnew ((Nat.lt_succ_self _).trans hi) hs'

/-- The slices at an index up to the write index -/
theorem Like.getIosli (h : a.Like b) (hi : i ≤ a.wIdx) :
    ∃ s t, a.getIosli i = some s ∧ b.getIosli i = some t ∧ s.Same t := h.used i hi

/-- What two results have in common: neither is there, or both, with the same reply and buffers
that agree. -/
def Alike {ρ : Type} : Option (ρ × WBuf) → Option (ρ × WBuf) → Prop :=
  Option.Rel fun x y ↦ x.1 = y.1 ∧ x.2.Like y.2

theorem alike_some {r : ρ} (h : a.Like b) : Alike (some (r, a)) (some (r, b)) :=
  .some ⟨rfl, h⟩

theorem alike_map {σ : Type} {x y : Option (ρ × WBuf)} (h : Alike x y) (f : ρ → σ) :
    Alike (x.bind fun p ↦ some (f p.1, p.2)) (y.bind fun p ↦ some (f p.1, p.2)) := by
  cases h with
  | some h => exact .some ⟨congrArg f h.1, h.2⟩
  | none => exact .none

/-! ### Writes -/

theorem Like.writeHere (h : a.Like b) (v : UInt8) :
    Option.Rel Like (a.writeHere v) (b.writeHere v) := by
  obtain ⟨s, t, hs, ht, hst⟩ := h.getIosli le_rfl
  rw [WBuf.writeHere, WBuf.writeHere, ← h.wIdx, hs, ht, bind_eq_bind, bind_some,
    bind_some, hst.sound_left.write_eq, hst.sound_right.write_eq]
  by_cases hroom : [v].length ≤ s.writable
  · rw [s.writeBytes_eq hroom, t.writeBytes_eq (hst.writable ▸ hroom)]
    exact .some (h.setIosli le_rfl (hst.extend hroom))
  · rw [IoSli.writeBytes, IoSli.writeBytes, if_neg hroom, if_neg (hst.writable ▸ hroom)]
    exact .none

theorem alike_of_rel (r : ρ) {x y : Option WBuf} (h : Option.Rel Like x y) :
    Alike (x.bind fun wbf ↦ some (r, wbf)) (y.bind fun wbf ↦ some (r, wbf)) := by
  cases h with
  | some h => exact alike_some h
  | none => exact .none

/-- The empty slice behind the write index of the first buffer, beside a new one of the second -/
theorem Like.next (h : a.Like b) (hmore : a.wIdx + 1 < a.ioss.length) :
    { a with wIdx := a.wIdx + 1 }.Like (b.addIosli (IoSli.make b.expansionStep)) := by
  have hs := List.getElem?_eq_getElem hmore
  refine h.grow (fun _ _ ↦ rfl) hs
    ((h.spare _ _ (Nat.lt_succ_self _) hs).same (h.step ▸ fresh_make _))
    (fun i s' hi hs' ↦ h.spare i s' ((Nat.lt_succ_self _).trans hi) hs') fun hstep ↦ ?_
  exact absurd (h.fixed hstep) (by omega)

theorem Like.write (h : a.Like b) (v : UInt8) : Alike (a.write v) (b.write v) := by
  obtain ⟨s, t, hs, ht, hst⟩ := h.getIosli le_rfl
  have hlength := h.length
  have hwIdx := h.wIdx
  have hcan : s.canWrite = t.canWrite := by
    rw [IoSli.canWrite, IoSli.canWrite, hst.wPos, hst.capacity]
  rw [WBuf.write, WBuf.write, ← h.wIdx, hs, ht, bind_eq_bind, bind_eq_bind,
    bind_some, bind_some, hcan]
  by_cases hroom : t.canWrite = true
  · rw [if_pos hroom, if_pos hroom]
    exact alike_of_rel _ (h.writeHere v)
  · rw [if_neg hroom, if_neg hroom, if_pos (by omega : b.ioss.length ≤ a.wIdx + 1)]
    by_cases hstep : a.expansionStep = 0
    · rw [if_pos (h.fixed hstep).le, if_pos hstep, if_pos (h.step ▸ hstep)]
      exact alike_some h
    · have hstep' : b.expansionStep ≠ 0 := h.step ▸ hstep
      rw [if_neg hstep, if_neg hstep']
      split_ifs with hlast
      · exact alike_of_rel _ ((h.addIosli_make hstep).writeHere v)
      · exact alike_of_rel _ ((h.next (by omega)).writeHere v)

/-- The loop that expands the buffers. The induction is on the number of rounds. -/
theorem Like.expandLoop : ∀ (fuel : ℕ) {a b : WBuf} (bs : List UInt8), a.Like b →
    a.expansionStep ≠ 0 → Option.Rel Like (a.expandLoop fuel bs) (b.expandLoop fuel bs)
  | fuel, a, b, [], h, _ => by
    cases fuel <;> exact .some h
  | 0, _, _, _ :: _, _, _ => .none
  | fuel + 1, a, b, v :: bs, h, hstep => by
    have hadd := h.addIosli_make hstep
    obtain ⟨s, t, hs, ht, hst⟩ := hadd.getIosli le_rfl
    rw [hadd.wIdx] at ht
    rw [WBuf.expandLoop, WBuf.expandLoop]
    simp only [hs, ht, bind_eq_bind, bind_some, ← hst.writable]
    generalize hn : (if (v :: bs).length < s.writable then (v :: bs).length else s.writable) = n
    have hfit : ((v :: bs).take n).length ≤ s.writable := by
      rw [length_take]
      split_ifs at hn <;> omega
    rw [s.writeBytes_eq hfit, t.writeBytes_eq (hst.writable ▸ hfit), bind_some,
      bind_some, ← hadd.wIdx]
    exact Like.expandLoop fuel _ (hadd.setIosli le_rfl (hst.extend hfit)) hstep

theorem Like.writeBytes (h : a.Like b) (bs : List UInt8) :
    Alike (a.writeBytes bs) (b.writeBytes bs) := by
  obtain ⟨s, t, hs, ht, hst⟩ := h.getIosli le_rfl
  rw [WBuf.writeBytes, WBuf.writeBytes, ← h.wIdx, hs, ht, bind_eq_bind,
    bind_eq_bind, bind_some, bind_some]
  simp only [← hst.writable, ← h.step]
  by_cases hroom : bs.length ≤ s.writable
  · rw [if_pos hroom, if_pos hroom, s.writeBytes_eq hroom, t.writeBytes_eq (hst.writable ▸ hroom)]
    exact alike_some (h.setIosli le_rfl (hst.extend hroom))
  · have hfit : (bs.take s.writable).length ≤ s.writable := by
      rw [length_take]
      exact min_le_left _ _
    rw [if_neg hroom, if_neg hroom]
    split_ifs with hstep
    · rw [s.writeBytes_eq hfit, t.writeBytes_eq (hst.writable ▸ hfit)]
      exact alike_of_rel _ (Like.expandLoop _ _ (h.setIosli le_rfl (hst.extend hfit)) hstep)
    · exact alike_some h

/-- A new slice in both buffers, when the first one has none behind the write index -/
theorem Like.addIosli (h : a.Like b) (hlast : a.wIdx + 1 = a.ioss.length) (hst : s.Same t) :
    (a.addIosli s).Like (b.addIosli t) := by
  have hlength : (a.ioss ++ [s]).length = a.wIdx + 1 + 1 := by
    rw [length_append, ← hlast]
    rfl
  refine h.grow (fun i hi ↦ List.getElem?_append_left (by omega))
    (by rw [hlast, List.getElem?_concat_length]) hst (fun i s' hi hs' ↦ ?_) fun _ ↦ hlength
  rw [List.getElem?_eq_none (by omega)] at hs'
  exact absurd hs' (by simp)

/-- The slice before the wrapped bytes, when these are added -/
theorem getIosli_addIosli {wbf : WBuf} (hlt : wbf.wIdx < wbf.ioss.length) (ios wios : IoSli) :
    ((wbf.setIosli wbf.wIdx ios).addIosli wios).getIosli wbf.wIdx = some ios := by
  change (wbf.ioss.set wbf.wIdx ios ++ [wios])[wbf.wIdx]? = some ios
  rw [List.getElem?_append_left (by rwa [length_set]), List.getElem?_set_self hlt]

theorem Like.wrapBytes (h : a.Like b) (hlast : a.wIdx + 1 = a.ioss.length) (bs : List UInt8) :
    Option.Rel Like (a.wrapBytes bs) (b.wrapBytes bs) := by
  obtain ⟨s, t, hs, ht, hst⟩ := h.getIosli le_rfl
  have hwrap : IoSli.wrap bs bs.length 0 bs.length = some ⟨0, bs.length, bs.length, bs, false⟩ :=
    if_pos ⟨Nat.zero_le _, le_rfl⟩
  have hwrapped : (⟨0, bs.length, bs.length, bs, false⟩ : IoSli).Sound :=
    ⟨Nat.zero_le _, le_rfl, le_rfl⟩
  have htail {ios : IoSli} (hios : ios.Sound) :
      (⟨0, 0, ios.writable, ios.buf.drop ios.wPos, false⟩ : IoSli).Sound := by
    obtain ⟨hr, hw, hc⟩ := hios
    refine ⟨le_rfl, Nat.zero_le _, ?_⟩
    change ios.capacity - ios.wPos ≤ (ios.buf.drop ios.wPos).length
    rw [length_drop]
    omega
  have hwrapTail (ios : IoSli) : IoSli.wrap (ios.buf.drop ios.wPos) ios.writable 0 0 =
      some ⟨0, 0, ios.writable, ios.buf.drop ios.wPos, false⟩ := if_pos ⟨le_rfl, Nat.zero_le _⟩
  have hsame : (⟨0, bs.length, bs.length, bs, false⟩ : IoSli).Same
      ⟨0, bs.length, bs.length, bs, false⟩ := ⟨rfl, rfl, rfl, rfl, hwrapped, hwrapped⟩
  have hadd := (h.setIosli le_rfl hst.cut).addIosli (hlast.trans (length_set ..).symm) hsame
  have hlastAdd : a.wIdx + 1 + 1 = (a.ioss.set a.wIdx { s with capacity := s.wPos } ++
      ([⟨0, bs.length, bs.length, bs, false⟩] : List IoSli)).length := by
    rw [length_append, length_set, ← hlast]
    rfl
  have hcut := getIosli_addIosli h.length_lt { s with capacity := s.wPos }
    ⟨0, bs.length, bs.length, bs, false⟩
  have hcut' := @getIosli_addIosli b (by have := h.length; omega)
    { t with capacity := t.wPos } ⟨0, bs.length, bs.length, bs, false⟩
  rw [h.wIdx] at ht
  simp only [WBuf.wrapBytes, hs, ht, hwrap, bind_eq_bind, bind_some]
  change Option.Rel Like (Option.bind (WBuf.getIosli _ a.wIdx) _)
    (Option.bind (WBuf.getIosli _ b.wIdx) _)
  rw [hcut, hcut', bind_some, bind_some]
  dsimp only
  rw [hwrapTail, hwrapTail]
  refine .some ?_
  rw [← h.wIdx]
  exact hadd.addIosli hlastAdd
    ⟨rfl, rfl, hst.writable, rfl, htail hst.sound_left, htail hst.sound_right⟩

/-! ### Reads -/

/-- Both buffers with the read index moved on -/
theorem Like.pass (h : a.Like b) :
    { a with rIdx := a.rIdx + 1 }.Like { b with rIdx := b.rIdx + 1 } :=
  ⟨congrArg (· + 1) h.rIdx, h.wIdx, h.step, h.length, h.used, h.spare, h.fixed⟩

theorem Like.readLoop : ∀ (left : ℕ) {a b : WBuf}, a.Like b → left = a.wIdx + 1 - a.rIdx →
    Alike (a.readLoop left) (b.readLoop left)
  | 0, _, _, _, _ => .none
  | left + 1, a, b, h, hleft => by
    obtain ⟨s, t, hs, ht, hst⟩ := h.getIosli (i := a.rIdx) (by omega)
    rw [WBuf.readLoop, WBuf.readLoop, ← h.rIdx, hs, ht, bind_eq_bind, bind_eq_bind,
      bind_some, bind_some, ← hst.readable]
    by_cases hr : 0 < s.readable
    · obtain ⟨v, hv, htake⟩ := hst.sound_left.read_eq hr
      obtain ⟨v', hv', htake'⟩ := hst.sound_right.read_eq (hst.readable ▸ hr)
      have heq : v = v' := by
        rw [hst.toBytes, htake'] at htake
        exact (singleton_inj.mp htake).symm
      subst heq
      rw [if_pos hr, if_pos hr, hv, hv']
      exact alike_some (h.setIosli (by omega) (hst.advance hr))
    · rw [if_neg hr, if_neg hr, h.rIdx]
      have hpass := h.pass
      rw [h.rIdx] at hpass
      refine Like.readLoop left hpass ?_
      change left = a.wIdx + 1 - (b.rIdx + 1)
      rw [← h.rIdx]
      omega

theorem Like.read (h : a.Like b) : Alike a.read b.read := by
  rw [WBuf.read, WBuf.read, ← h.wIdx, ← h.rIdx]
  exact Like.readLoop _ h rfl

theorem Like.takeLoop : ∀ (fuel : ℕ) {a b : WBuf} (n : ℕ), a.Like b →
    Alike (a.takeLoop fuel n) (b.takeLoop fuel n)
  | 0, _, _, _, _ => .none
  | fuel + 1, a, b, n, h => by
    rw [WBuf.takeLoop, WBuf.takeLoop, ← h.rIdx, ← h.wIdx]
    by_cases hbehind : a.wIdx < a.rIdx
    · rw [if_pos hbehind, if_pos hbehind]
      exact .none
    · obtain ⟨s, t, hs, ht, hst⟩ := h.getIosli (i := a.rIdx) (by omega)
      rw [if_neg hbehind, if_neg hbehind, hs, ht, bind_eq_bind, bind_eq_bind, bind_some, bind_some]
      simp only [← hst.readable]
      by_cases hr : 0 < s.readable
      · rw [if_pos hr, if_pos hr]
        generalize htoRead : (if s.readable ≤ n then s.readable else n) = m
        have hm : m ≤ s.readable := by split_ifs at htoRead <;> omega
        have hset := h.setIosli (i := a.rIdx) (by omega) (hst.advance hm)
        rw [s.readBytes_eq hm, t.readBytes_eq (hst.readable ▸ hm), ← hst.toBytes,
          bind_eq_bind, bind_some, bind_some]
        dsimp only
        split_ifs with hmore
        · exact alike_map (Like.takeLoop fuel (n - m) hset) (s.toBytes.take m ++ ·)
        · exact alike_some hset
      · have hpass := h.pass
        rw [← h.rIdx] at hpass
        rw [if_neg hr, if_neg hr]
        split_ifs with hmore
        · rw [h.wIdx] at hpass ⊢
          exact Like.takeLoop fuel n hpass
        · rw [h.wIdx] at hpass ⊢
          exact alike_some hpass

theorem Like.readBytes (h : a.Like b) (n : ℕ) : Alike (a.readBytes n) (b.readBytes n) := by
  rw [WBuf.readBytes, WBuf.readBytes, ← h.wIdx, ← h.rIdx]
  exact Like.takeLoop _ n h

/-- What the slices up to an index in which the buffers agree say of themselves -/
theorem Like.map_take (h : a.Like b) {α : Type} {f : IoSli → α}
    (hf : ∀ {s t : IoSli}, s.Same t → f s = f t) (hn : n ≤ a.wIdx + 1) :
    (a.ioss.take n).map f = (b.ioss.take n).map f := by
  refine ext_getElem? fun i ↦ ?_
  rw [List.getElem?_map, List.getElem?_map, List.getElem?_take, List.getElem?_take]
  split_ifs with hi
  · obtain ⟨s, t, hs, ht, hst⟩ := h.used i (by omega)
    rw [hs, ht, map_some, map_some, hf hst]
  · rfl

theorem Like.len (h : a.Like b) : a.len = b.len := by
  rw [WBuf.len, WBuf.len, ← h.rIdx, ← h.wIdx, map_drop, map_drop, h.map_take Same.readable le_rfl]

theorem Like.getWpos (h : a.Like b) : a.getWpos = b.getWpos := by
  obtain ⟨s, t, hs, ht, hst⟩ := h.getIosli le_rfl
  have hstart : a.startOf a.wIdx = b.startOf b.wIdx := by
    rw [startOf, startOf, ← h.wIdx, h.map_take Same.capacity (Nat.le_succ _)]
  rw [h.wIdx] at ht
  rw [WBuf.getWpos, WBuf.getWpos, hs, ht, hstart]
  exact congrArg (fun pos ↦ some (b.startOf b.wIdx + pos)) hst.wPos

theorem Like.toZbuf (h : a.Like b) : a.toZbuf = b.toZbuf := by
  have hlt := h.length_lt
  have hlength := h.length
  have hbytes := h.map_take Same.toBytes le_rfl
  rw [h.wIdx] at hbytes
  rw [WBuf.toZbuf, WBuf.toZbuf, if_neg (by omega), if_neg (by omega), h.len]
  have hfold (ioss : List IoSli) (zbf : ZBuf) :
      ioss.foldl (fun zbf ios ↦ zbf.write ios.toBytes) zbf =
        (ioss.map IoSli.toBytes).foldl ZBuf.write zbf := foldl_map.symm
  rw [hfold, hfold, map_drop, map_drop, h.rIdx, h.wIdx, hbytes]

/-! ### The reset -/

/-- A slice that the buffer has allocated and whose capacity is still that of a new one -/
structure Owned (capacity : ℕ) (ios : IoSli) : Prop where
  isAlloc : ios.isAlloc = true
  capacity_eq : ios.capacity = capacity
  capacity_le : capacity ≤ ios.buf.length

/-- All slices of a buffer are owned ones, and a buffer that does not expand has one of them. -/
structure Unwrapped (capacity : ℕ) (isExpandable : Bool) (wbf : WBuf) : Prop where
  owned : ∀ ios ∈ wbf.ioss, Owned capacity ios
  nonempty : wbf.ioss ≠ []
  step : wbf.expansionStep = if isExpandable then capacity else 0
  single : wbf.expansionStep = 0 → wbf.ioss.length = 1

theorem owned_make (capacity : ℕ) : Owned capacity (IoSli.make capacity) :=
  ⟨rfl, rfl, by rw [IoSli.make, length_replicate]⟩

theorem unwrapped_make (capacity : ℕ) (isExpandable : Bool) :
    Unwrapped capacity isExpandable (make capacity isExpandable) where
  owned _ hios := mem_singleton.mp hios ▸ owned_make capacity
  nonempty := cons_ne_nil _ _
  step := rfl
  single _ := rfl

variable {capacity : ℕ} {isExpandable : Bool}

/-- Slices none of which the loop of the reset removes -/
theorem resetLoop_owned : ∀ {ioss : List IoSli}, (∀ ios ∈ ioss, Owned capacity ios) →
    resetLoop ioss = ioss.map IoSli.reset
  | [], _ => rfl
  | [ios], h => if_pos (h ios mem_cons_self).isAlloc
  | ios :: next :: ioss, h => by
    rw [resetLoop, if_pos (h ios mem_cons_self).isAlloc,
      resetLoop_owned fun other hother ↦ h other (mem_cons_of_mem _ hother)]
    rfl

theorem Unwrapped.reset {wbf : WBuf} (h : Unwrapped capacity isExpandable wbf) :
    Unwrapped capacity isExpandable wbf.reset := by
  have hioss : wbf.reset.ioss = wbf.ioss.map IoSli.reset := resetLoop_owned h.owned
  refine ⟨?_, ?_, h.step, fun hstep ↦ ?_⟩
  · intro ios hios
    rw [hioss] at hios
    obtain ⟨old, hold, rfl⟩ := List.mem_map.mp hios
    obtain ⟨halloc, hcap, hlen⟩ := h.owned old hold
    exact ⟨halloc, hcap, hlen⟩
  · rw [hioss]
    simpa using h.nonempty
  · rw [hioss, length_map]
    exact h.single hstep

/-- A buffer of owned slices is after a reset like a new one. -/
theorem Unwrapped.like {wbf : WBuf} (h : Unwrapped capacity isExpandable wbf) :
    wbf.reset.Like (make capacity isExpandable) := by
  have hioss : wbf.reset.ioss = wbf.ioss.map IoSli.reset := resetLoop_owned h.owned
  have hfresh {i : ℕ} {s : IoSli} (hs : wbf.reset.ioss[i]? = some s) : s.Fresh capacity := by
    have hmem := mem_of_getElem? hs
    rw [hioss] at hmem
    obtain ⟨old, hold, rfl⟩ := List.mem_map.mp hmem
    obtain ⟨halloc, hcap, hlen⟩ := h.owned old hold
    exact ⟨rfl, rfl, hcap, hlen⟩
  have hpos : 0 < wbf.reset.ioss.length := by
    rw [hioss, length_map]
    exact length_pos_iff.mpr h.nonempty
  refine ⟨rfl, rfl, h.step, rfl, ?_, ?_, ?_⟩
  · intro i hi
    obtain rfl : i = 0 := Nat.le_zero.mp hi
    have hs := List.getElem?_eq_getElem hpos
    exact ⟨_, IoSli.make capacity, hs, rfl, (hfresh hs).same (fresh_make _)⟩
  · intro i s hi hs
    obtain ⟨hlt, _⟩ := List.getElem?_eq_some_iff.mp hs
    rw [hioss, length_map] at hlt
    have hne : wbf.expansionStep ≠ 0 := fun hz ↦ by
      have := h.single hz
      omega
    have hstep : wbf.expansionStep = capacity := by
      have hexp := h.step
      split_ifs at hexp
      · exact hexp
      · exact absurd hexp hne
    exact hstep ▸ hfresh hs
  · intro hstep
    rw [hioss, length_map]
    exact h.single hstep

/-! ### Calls that wrap nothing -/

variable {wbf : WBuf}

variable {ios ios' : IoSli}

theorem Owned.writeBytes (h : Owned capacity ios) (hios' : ios' ∈ ios.writeBytes bs) :
    Owned capacity ios' := by
  obtain ⟨halloc, hcap, hlen⟩ := h
  rw [IoSli.writeBytes] at hios'
  split_ifs at hios'
  · obtain rfl := some.inj hios'
    refine ⟨halloc, hcap, ?_⟩
    simp only [length_append, length_take, length_drop]
    omega
  · exact absurd hios' (not_mem_none _)

theorem Owned.write (h : Owned capacity ios) {b : UInt8} (hios' : ios' ∈ ios.write b) :
    Owned capacity ios' := by
  rw [IoSli.write] at hios'
  split_ifs at hios'
  · obtain rfl := some.inj hios'
    exact ⟨h.isAlloc, h.capacity_eq, h.capacity_le.trans (length_set ..).ge⟩
  · exact absurd hios' (not_mem_none _)

theorem Unwrapped.of_getIosli (h : Unwrapped capacity isExpandable wbf)
    (hios : ios ∈ wbf.getIosli i) : Owned capacity ios :=
  h.owned ios (mem_of_getElem? hios)

theorem Unwrapped.setIosli (h : Unwrapped capacity isExpandable wbf) (hios : Owned capacity ios) :
    Unwrapped capacity isExpandable (wbf.setIosli i ios) where
  owned other hother := by
    rcases mem_or_eq_of_mem_set hother with hother | rfl
    · exact h.owned other hother
    · exact hios
  nonempty hnil := h.nonempty (eq_nil_of_length_eq_zero
    ((length_set ..).symm.trans (congrArg List.length hnil)))
  step := h.step
  single hstep := (length_set ..).trans (h.single hstep)

theorem Unwrapped.addIosli_make (h : Unwrapped capacity isExpandable wbf)
    (hstep : wbf.expansionStep ≠ 0) :
    Unwrapped capacity isExpandable (wbf.addIosli (IoSli.make wbf.expansionStep)) where
  owned other hother := by
    have hcap : wbf.expansionStep = capacity := by
      have hexp := h.step
      split_ifs at hexp
      · exact hexp
      · exact absurd hexp hstep
    rcases mem_append.mp hother with hother | hother
    · exact h.owned other hother
    · rw [mem_singleton.mp hother, hcap]
      exact owned_make capacity
  nonempty hnil := cons_ne_nil _ _ (append_eq_nil_iff.mp hnil).2
  step := h.step
  single hz := absurd hz hstep

variable {wbf' : WBuf}

theorem Unwrapped.writeHere (h : Unwrapped capacity isExpandable wbf) {b : UInt8}
    (hw : wbf' ∈ wbf.writeHere b) : Unwrapped capacity isExpandable wbf' := by
  obtain ⟨ios, hios, hw⟩ := mem_bind_iff.mp hw
  obtain ⟨ios', hios', hw⟩ := mem_bind_iff.mp hw
  obtain rfl := some.inj hw
  exact h.setIosli ((h.of_getIosli hios).write hios')

theorem Unwrapped.write (h : Unwrapped capacity isExpandable wbf) {b : UInt8} {r : WRes}
    (hw : (r, wbf') ∈ wbf.write b) : Unwrapped capacity isExpandable wbf' := by
  obtain ⟨ios, hios, hw⟩ := mem_bind_iff.mp hw
  split_ifs at hw with hcan hlast hstep
  · obtain ⟨wbf'', hwbf'', hw⟩ := mem_bind_iff.mp hw
    obtain ⟨-, rfl⟩ := Prod.mk.inj (some.inj hw)
    exact h.writeHere hwbf''
  · obtain ⟨-, rfl⟩ := Prod.mk.inj (some.inj hw)
    exact h
  · obtain ⟨wbf'', hwbf'', hw⟩ := mem_bind_iff.mp hw
    obtain ⟨-, rfl⟩ := Prod.mk.inj (some.inj hw)
    exact (h.addIosli_make hstep).writeHere hwbf''
  · obtain ⟨wbf'', hwbf'', hw⟩ := mem_bind_iff.mp hw
    obtain ⟨-, rfl⟩ := Prod.mk.inj (some.inj hw)
    have hnext : Unwrapped capacity isExpandable { wbf with wIdx := wbf.wIdx + 1 } :=
      ⟨h.owned, h.nonempty, h.step, h.single⟩
    exact hnext.writeHere hwbf''

theorem Unwrapped.expandLoop : ∀ (fuel : ℕ) {wbf wbf' : WBuf} {bs : List UInt8},
    Unwrapped capacity isExpandable wbf → wbf.expansionStep ≠ 0 →
      wbf' ∈ wbf.expandLoop fuel bs → Unwrapped capacity isExpandable wbf'
  | fuel, wbf, _, [], h, _, hw => by
    cases fuel <;> exact some.inj hw ▸ h
  | 0, _, _, _ :: _, _, _, hw => absurd hw (not_mem_none _)
  | fuel + 1, wbf, wbf', b :: bs, h, hstep, hw => by
    have hadd := h.addIosli_make hstep
    obtain ⟨ios, hios, hw⟩ := mem_bind_iff.mp hw
    obtain ⟨ios', hios', hw⟩ := mem_bind_iff.mp hw
    exact Unwrapped.expandLoop fuel
      (hadd.setIosli ((hadd.of_getIosli hios).writeBytes hios')) hstep hw

theorem Unwrapped.writeBytes (h : Unwrapped capacity isExpandable wbf) {r : WRes}
    (hw : (r, wbf') ∈ wbf.writeBytes bs) : Unwrapped capacity isExpandable wbf' := by
  obtain ⟨ios, hios, hw⟩ := mem_bind_iff.mp hw
  dsimp only at hw
  split_ifs at hw with hroom hstep
  · obtain ⟨ios', hios', hw⟩ := mem_bind_iff.mp hw
    obtain ⟨-, rfl⟩ := Prod.mk.inj (some.inj hw)
    exact h.setIosli ((h.of_getIosli hios).writeBytes hios')
  · obtain ⟨ios', hios', hw⟩ := mem_bind_iff.mp hw
    obtain ⟨wbf'', hwbf'', hw⟩ := mem_bind_iff.mp hw
    obtain ⟨-, rfl⟩ := Prod.mk.inj (some.inj hw)
    exact Unwrapped.expandLoop _ (h.setIosli ((h.of_getIosli hios).writeBytes hios')) hstep hwbf''
  · obtain ⟨-, rfl⟩ := Prod.mk.inj (some.inj hw)
    exact h

theorem Owned.read (h : Owned capacity ios) {b : UInt8} (hios' : (b, ios') ∈ ios.read) :
    Owned capacity ios' := by
  rw [IoSli.read] at hios'
  split_ifs at hios'
  · obtain ⟨_, -, heq⟩ := map_eq_some_iff.mp hios'
    obtain ⟨-, rfl⟩ := Prod.mk.inj heq
    exact ⟨h.isAlloc, h.capacity_eq, h.capacity_le⟩
  · exact absurd hios' (not_mem_none _)

theorem Owned.readBytes (h : Owned capacity ios) (hios' : (bs, ios') ∈ ios.readBytes n) :
    Owned capacity ios' := by
  rw [IoSli.readBytes] at hios'
  split_ifs at hios'
  · obtain ⟨-, rfl⟩ := Prod.mk.inj (some.inj hios')
    exact ⟨h.isAlloc, h.capacity_eq, h.capacity_le⟩
  · exact absurd hios' (not_mem_none _)

theorem Unwrapped.pass (h : Unwrapped capacity isExpandable wbf) :
    Unwrapped capacity isExpandable { wbf with rIdx := wbf.rIdx + 1 } :=
  ⟨h.owned, h.nonempty, h.step, h.single⟩

theorem Unwrapped.readLoop : ∀ (left : ℕ) {wbf wbf' : WBuf} {b : UInt8},
    Unwrapped capacity isExpandable wbf → (b, wbf') ∈ wbf.readLoop left →
      Unwrapped capacity isExpandable wbf'
  | 0, _, _, _, _, hw => absurd hw (not_mem_none _)
  | left + 1, wbf, wbf', b, h, hw => by
    obtain ⟨ios, hios, hw⟩ := mem_bind_iff.mp hw
    split_ifs at hw
    · obtain ⟨⟨v, ios'⟩, hios', hw⟩ := mem_bind_iff.mp hw
      obtain ⟨-, rfl⟩ := Prod.mk.inj (some.inj hw)
      exact h.setIosli ((h.of_getIosli hios).read hios')
    · exact Unwrapped.readLoop left h.pass hw

theorem Unwrapped.takeLoop : ∀ (fuel : ℕ) {wbf wbf' : WBuf} {n : ℕ} {bs : List UInt8},
    Unwrapped capacity isExpandable wbf → (bs, wbf') ∈ wbf.takeLoop fuel n →
      Unwrapped capacity isExpandable wbf'
  | 0, _, _, _, _, _, hw => absurd hw (not_mem_none _)
  | fuel + 1, wbf, wbf', n, bs, h, hw => by
    rw [WBuf.takeLoop] at hw
    by_cases hbehind : wbf.wIdx < wbf.rIdx
    · rw [if_pos hbehind] at hw
      exact absurd hw (not_mem_none _)
    · rw [if_neg hbehind] at hw
      obtain ⟨ios, hios, hw⟩ := mem_bind_iff.mp hw
      by_cases hr : 0 < ios.readable
      · rw [if_pos hr] at hw
        obtain ⟨⟨bs', ios'⟩, hios', hw⟩ := mem_bind_iff.mp hw
        have hset := h.setIosli (i := wbf.rIdx) ((h.of_getIosli hios).readBytes hios')
        dsimp only at hw
        generalize n - (if ios.readable ≤ n then ios.readable else n) = m at hw
        split_ifs at hw
        · obtain ⟨⟨bs'', wbf''⟩, hwbf'', hw⟩ := mem_bind_iff.mp hw
          obtain ⟨-, rfl⟩ := Prod.mk.inj (some.inj hw)
          exact Unwrapped.takeLoop fuel hset hwbf''
        · obtain ⟨-, rfl⟩ := Prod.mk.inj (some.inj hw)
          exact hset
      · rw [if_neg hr] at hw
        dsimp only at hw
        split_ifs at hw
        · exact Unwrapped.takeLoop fuel h.pass hw
        · obtain ⟨-, rfl⟩ := Prod.mk.inj (some.inj hw)
          exact h.pass

/-- The loop of `_z_wbuf_set_wpos` changes write positions only. -/
theorem setWposLoop_owned : ∀ {ioss : List IoSli} {pos i : ℕ} {ioss' : List IoSli},
    (∀ ios ∈ ioss, Owned capacity ios) → (i, ioss') ∈ setWposLoop pos ioss →
      (∀ ios ∈ ioss', Owned capacity ios) ∧ ioss'.length = ioss.length
  | [], _, _, _, _, hw => absurd hw (not_mem_none _)
  | ios :: ioss, pos, i, ioss', h, hw => by
    have hfirst (w : ℕ) : Owned capacity { ios with wPos := w } := by
      obtain ⟨halloc, hcap, hlen⟩ := h ios mem_cons_self
      exact ⟨halloc, hcap, hlen⟩
    have hrest : ∀ other ∈ ioss, Owned capacity other :=
      fun other hother ↦ h other (mem_cons_of_mem _ hother)
    rw [setWposLoop] at hw
    split_ifs at hw
    · obtain ⟨-, rfl⟩ := Prod.mk.inj (some.inj hw)
      exact ⟨forall_mem_cons.mpr ⟨hfirst _, hrest⟩, rfl⟩
    · exact absurd hw (not_mem_none _)
    · obtain ⟨⟨j, others⟩, hothers, heq⟩ := map_eq_some_iff.mp hw
      obtain ⟨-, rfl⟩ := Prod.mk.inj heq
      obtain ⟨howned, hlen⟩ := setWposLoop_owned hrest hothers
      exact ⟨forall_mem_cons.mpr ⟨hfirst _, howned⟩, congrArg (· + 1) hlen⟩

theorem Unwrapped.setWpos (h : Unwrapped capacity isExpandable wbf) {pos : ℕ}
    (hw : wbf' ∈ wbf.setWpos pos) : Unwrapped capacity isExpandable wbf' := by
  obtain ⟨⟨i, ioss⟩, hioss, hw⟩ := mem_bind_iff.mp hw
  obtain rfl := some.inj hw
  obtain ⟨howned, hlen⟩ := setWposLoop_owned h.owned hioss
  refine ⟨howned, ?_, h.step, fun hstep ↦ hlen.trans (h.single hstep)⟩
  exact ne_nil_of_length_pos (hlen ▸ length_pos_iff.mpr h.nonempty)

theorem unwrapped_siphon {capacity' : ℕ} {isExpandable' : Bool} {dst src : WBuf}
    (hdst : Unwrapped capacity isExpandable dst) (hsrc : Unwrapped capacity' isExpandable' src)
    {r : WRes} {dst' src' : WBuf} (hw : (r, dst', src') ∈ dst.siphon src n) :
    Unwrapped capacity isExpandable dst' ∧ Unwrapped capacity' isExpandable' src' := by
  obtain ⟨ios, hios, hw⟩ := mem_bind_iff.mp hw
  split_ifs at hw
  · obtain ⟨⟨bs, src''⟩, hsrc'', hw⟩ := mem_bind_iff.mp hw
    obtain ⟨ios', hios', hw⟩ := mem_bind_iff.mp hw
    obtain ⟨-, heq⟩ := Prod.mk.inj (some.inj hw)
    obtain ⟨rfl, rfl⟩ := Prod.mk.inj heq
    exact ⟨hdst.setIosli ((hdst.of_getIosli hios).writeBytes hios'),
      Unwrapped.takeLoop _ hsrc hsrc''⟩
  · obtain ⟨-, heq⟩ := Prod.mk.inj (some.inj hw)
    obtain ⟨rfl, rfl⟩ := Prod.mk.inj heq
    exact ⟨hdst, hsrc⟩

end WBuf

open WBuf

/-! ### Runs -/

variable {ι : Type} [DecidableEq ι]

/-- The buffers that calls which wrap no bytes and resets lead to -/
inductive Reached (capacity : ι → ℕ) (isExpandable : ι → Bool) : (ι → WBuf) → Prop
  | make : Reached capacity isExpandable fun i ↦ WBuf.make (capacity i) (isExpandable i)
  | call {ws ws' : ι → WBuf} {c : WCall ι} {reply : WReply}
      (h : Reached capacity isExpandable ws) (hc : ∀ i bs, c ≠ .wrapBytes i bs)
      (hcall : call ws c = some (ws', reply)) : Reached capacity isExpandable ws'
  | reset {ws : ι → WBuf} (h : Reached capacity isExpandable ws) (i : ι) :
      Reached capacity isExpandable (Function.update ws i (ws i).reset)

variable {capacity : ι → ℕ} {isExpandable : ι → Bool} {ws : ι → WBuf}

theorem unwrapped_update (h : ∀ i, Unwrapped (capacity i) (isExpandable i) (ws i)) {i : ι}
    {wbf : WBuf} (hi : Unwrapped (capacity i) (isExpandable i) wbf) :
    ∀ j, Unwrapped (capacity j) (isExpandable j) (Function.update ws i wbf j) := by
  intro j
  by_cases hj : j = i
  · subst hj
    rwa [Function.update_self]
  · rw [Function.update_of_ne hj]
    exact h j

/-- A call that wraps no bytes leaves the slices of the buffers owned. -/
theorem unwrapped_call (h : ∀ i, Unwrapped (capacity i) (isExpandable i) (ws i)) {c : WCall ι}
    (hc : ∀ i bs, c ≠ .wrapBytes i bs) {ws' : ι → WBuf} {reply : WReply}
    (hcall : call ws c = some (ws', reply)) :
    ∀ i, Unwrapped (capacity i) (isExpandable i) (ws' i) := by
  cases c with
  | write i b =>
    obtain ⟨⟨r, wbf⟩, hwbf, heq⟩ := bind_eq_some_iff.mp hcall
    obtain ⟨rfl, -⟩ := Prod.mk.inj (some.inj heq)
    exact unwrapped_update h ((h i).write hwbf)
  | writeBytes i bs =>
    obtain ⟨⟨r, wbf⟩, hwbf, heq⟩ := bind_eq_some_iff.mp hcall
    obtain ⟨rfl, -⟩ := Prod.mk.inj (some.inj heq)
    exact unwrapped_update h ((h i).writeBytes hwbf)
  | wrapBytes i bs => exact absurd rfl (hc i bs)
  | read i =>
    obtain ⟨⟨b, wbf⟩, hwbf, heq⟩ := bind_eq_some_iff.mp hcall
    obtain ⟨rfl, -⟩ := Prod.mk.inj (some.inj heq)
    exact unwrapped_update h (Unwrapped.readLoop _ (h i) hwbf)
  | readBytes i length =>
    obtain ⟨⟨bs, wbf⟩, hwbf, heq⟩ := bind_eq_some_iff.mp hcall
    obtain ⟨rfl, -⟩ := Prod.mk.inj (some.inj heq)
    exact unwrapped_update h (Unwrapped.takeLoop _ (h i) hwbf)
  | siphon dst src length =>
    obtain ⟨⟨r, wdst, wsrc⟩, hsiphon, heq⟩ := bind_eq_some_iff.mp hcall
    obtain ⟨rfl, -⟩ := Prod.mk.inj (some.inj heq)
    obtain ⟨hdst, hsrc⟩ := unwrapped_siphon (h dst) (h src) hsiphon
    exact unwrapped_update (unwrapped_update h hdst) hsrc
  | toZbuf i =>
    obtain ⟨zbf, -, heq⟩ := bind_eq_some_iff.mp hcall
    obtain ⟨rfl, -⟩ := Prod.mk.inj (some.inj heq)
    exact h
  | len i =>
    obtain ⟨rfl, -⟩ := Prod.mk.inj (some.inj hcall)
    exact h
  | getWpos i =>
    obtain ⟨pos, -, heq⟩ := bind_eq_some_iff.mp hcall
    obtain ⟨rfl, -⟩ := Prod.mk.inj (some.inj heq)
    exact h
  | setWpos i pos =>
    obtain ⟨wbf, hwbf, heq⟩ := bind_eq_some_iff.mp hcall
    obtain ⟨rfl, -⟩ := Prod.mk.inj (some.inj heq)
    exact unwrapped_update h ((h i).setWpos hwbf)

theorem Reached.unwrapped (h : Reached capacity isExpandable ws) :
    ∀ i, Unwrapped (capacity i) (isExpandable i) (ws i) := by
  induction h with
  | make => exact fun i ↦ unwrapped_make _ _
  | call _ hc hcall ih => exact unwrapped_call ih hc hcall
  | reset _ i ih => exact unwrapped_update ih (ih i).reset

/-- The calls that write to a buffer and read from it, where bytes are wrapped while the slice
that is written to is the last one -/
def Follows (ws : Unit → WBuf) : WCall Unit → Prop
  | .wrapBytes _ _ => (ws ()).wIdx + 1 = (ws ()).ioss.length
  | .siphon _ _ _ => False
  | .setWpos _ _ => False
  | _ => True

/-- The result of a call on a buffer, beside that on a buffer that agrees with it -/
theorem rel_bind {x y : Option (ρ × WBuf)} (h : Alike x y) (ws ws' : Unit → WBuf) (f : ρ → WReply) :
    Option.Rel (fun p p' ↦ (p.1 ()).Like (p'.1 ()) ∧ p.2 = p'.2)
      (x.bind fun p ↦ some (Function.update ws () p.2, f p.1))
      (y.bind fun p ↦ some (Function.update ws' () p.2, f p.1)) := by
  cases h with
  | some h => exact .some ⟨h.2, congrArg f h.1⟩
  | none => exact .none

theorem rel_reply {α : Type} {ws ws' : Unit → WBuf} (h : (ws ()).Like (ws' ())) {x y : Option α}
    (hxy : x = y) (f : α → WReply) : Option.Rel (fun p p' ↦ (p.1 ()).Like (p'.1 ()) ∧ p.2 = p'.2)
      (x.bind fun a ↦ some (ws, f a)) (y.bind fun a ↦ some (ws', f a)) := by
  subst hxy
  cases x with
  | some a => exact .some ⟨h, rfl⟩
  | none => exact .none

/-- A call on two buffers that agree gives the same reply, and they still agree. -/
theorem like_call {ws ws' : Unit → WBuf} (h : (ws ()).Like (ws' ())) {c : WCall Unit}
    (hc : Follows ws c) :
    Option.Rel (fun p p' ↦ (p.1 ()).Like (p'.1 ()) ∧ p.2 = p'.2) (call ws c) (call ws' c) := by
  cases c with
  | write i b => exact rel_bind (h.write b) ws ws' .res
  | writeBytes i bs => exact rel_bind (h.writeBytes bs) ws ws' .res
  | wrapBytes i bs =>
    have hwrap := rel_bind (alike_of_rel () (h.wrapBytes hc bs)) ws ws' fun _ ↦ .res .ok
    rw [bind_assoc, bind_assoc] at hwrap
    exact hwrap
  | read i => exact rel_bind h.read ws ws' fun b ↦ .bytes [b]
  | readBytes i length => exact rel_bind (h.readBytes length) ws ws' .bytes
  | siphon dst src length => exact absurd hc id
  | toZbuf i => exact rel_reply h h.toZbuf fun zbf ↦ .bytes zbf.readable
  | len i => exact .some ⟨h, congrArg WReply.number h.len⟩
  | getWpos i => exact rel_reply h h.getWpos .number
  | setWpos i pos => exact absurd hc id

/-- Runs on two buffers that agree give the same replies. The induction is on the calls. -/
theorem like_runCalls (calls : List (WCall Unit)) : ∀ {ws ws' : Unit → WBuf},
    (ws ()).Like (ws' ()) → Along Follows ws calls →
      (runCalls ws calls).map Prod.snd = (runCalls ws' calls).map Prod.snd := by
  induction calls with
  | nil => exact fun _ _ ↦ rfl
  | cons c calls ih =>
    intro ws ws' h hall
    have hrel := like_call h hall.1
    have hnext := hall.2
    simp only [runCalls, bind_eq_bind]
    generalize hx : call ws c = x at hrel hnext
    generalize call ws' c = y at hrel
    cases hrel with
    | none => rfl
    | @some p p' hp =>
      obtain ⟨hlike, hreply⟩ := hp
      have hrest := ih hlike (hnext p.1 p.2 rfl)
      have hcons (o : Option ((Unit → WBuf) × List WReply)) :
          (o.bind fun q ↦ some (q.1, p'.2 :: q.2)).map Prod.snd =
            (o.map Prod.snd).map (p'.2 :: ·) := by
        cases o <;> rfl
      simp only [bind_some, hreply]
      exact (hcons _).trans ((congrArg _ hrest).trans (hcons _).symm)

/-- A buffer into which no bytes were wrapped is after a reset empty and at its start, it has only
slices it owns, and a run on it in which bytes are wrapped behind the last slice only gives back
what the run gives back on a new buffer. -/
theorem wbuf_reset_fresh (capacity : ι → ℕ) (isExpandable : ι → Bool) (ws : ι → WBuf)
    (h : Reached capacity isExpandable ws) (i : ι) :
    let wbf := (ws i).reset
    wbf.len = 0 ∧ wbf.getRpos = some 0 ∧ wbf.getWpos = some 0 ∧
      (∀ ios ∈ wbf.ioss, ios.isAlloc = true) ∧ ∀ calls, Along Follows (fun _ ↦ wbf) calls →
        (runCalls (fun _ ↦ wbf) calls).map Prod.snd =
          (runCalls (fun _ ↦ WBuf.make (capacity i) (isExpandable i)) calls).map Prod.snd := by
  have hunwrapped := h.unwrapped i
  have hlike := hunwrapped.like
  obtain ⟨s, t, hs, ht, hst⟩ := hlike.getIosli le_rfl
  have hpos : (ws i).reset.getRpos = some s.rPos := by
    rw [WBuf.getRpos]
    change (WBuf.getIosli _ 0).bind _ = _
    rw [show (ws i).reset.getIosli 0 = some s from hs]
    exact congrArg some (Nat.zero_add _)
  have hnew : t = IoSli.make (capacity i) := (some.inj ht).symm
  refine ⟨hlike.len, ?_, hlike.getWpos, fun ios hios ↦ (hunwrapped.reset.owned ios hios).isAlloc,
    fun calls hall ↦ like_runCalls calls hlike hall⟩
  rw [hpos, hst.rPos, hnew]
  rfl

/-- A buffer that expanded from two bytes to six, after a reset -/
theorem wbuf_reset_fresh_two :
    let grown : Unit → WBuf := fun _ ↦ ⟨[⟨0, 2, 2, [1, 2], true⟩, ⟨0, 2, 2, [3, 4], true⟩,
      ⟨0, 1, 2, [5, 0], true⟩], 0, 2, 2⟩
    (runCalls (fun _ ↦ (grown ()).reset) [.writeBytes () [7, 8, 9], .toZbuf ()]).map Prod.snd =
      some [.res .ok, .bytes [7, 8, 9]] := by
  intro grown
  have hcall : call (fun _ : Unit ↦ WBuf.make 2 true) (.writeBytes () [1, 2, 3, 4, 5]) =
      some (grown, .res .ok) := rfl
  have hreached : Reached (fun _ : Unit ↦ 2) (fun _ ↦ true) grown :=
    .call .make (fun i bs hc ↦ by cases hc) hcall
  have hrun := (wbuf_reset_fresh _ _ grown hreached ()).2.2.2.2
    [.writeBytes () [7, 8, 9], .toZbuf ()]
    (along_cons trivial rfl (along_cons trivial rfl trivial))
  exact hrun.trans (by decide)

/-- After bytes were wrapped, a reset leaves a slice that the buffer does not own, and less room
than a new buffer has. -/
theorem wbuf_reset_wrapped : ∃ ws, call (fun _ : Unit ↦ WBuf.make 4 false) (.wrapBytes () [1, 2]) =
        some (ws, .res .ok) ∧ (∃ ios ∈ (ws ()).reset.ioss, ios.isAlloc = false) ∧
      (runCalls (fun _ ↦ (ws ()).reset) [.writeBytes () [7, 8, 9]]).map Prod.snd =
        some [.res .noSpace] ∧
      (runCalls (fun _ : Unit ↦ WBuf.make 4 false) [.writeBytes () [7, 8, 9]]).map Prod.snd =
        some [.res .ok] :=
  ⟨_, rfl, by decide, by decide, by decide⟩

end ZenohPico.Protocol
