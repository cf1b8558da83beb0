import ZenohPico.Transport.SequenceNumber
import Mathlib.Tactic.Ring

/-!
The duplicate-suppression window of best-effort frames (`src/transport/utils.c`).

The window is a high-water mark and a bitmap of the numbers seen behind it. The
bitmap is an array of 64-bit words that is shifted when the mark moves forward.
-/

open List Option

namespace ZenohPico.Transport

/-! ### The source's functions -/

/-- `_Z_SN_WINDOW_WORDS` -/
def snWindowWords (reorderWindow : ℕ) : ℕ := (reorderWindow + 64 - 1) / 64

/-- `_z_sn_window_t`, for a build with `Z_BEST_EFFORT_REORDER_WINDOW = reorderWindow`. -/
structure SnWindow (reorderWindow : ℕ) where
  highWater : UInt64
  seen : List UInt64
  seen_length : seen.length = snWindowWords reorderWindow
deriving DecidableEq

/-- `_z_sn_window_result_t` -/
inductive SnWindowResult where
  | ahead
  | reordered
  | duplicate
  | tooOld
deriving DecidableEq, Repr

variable {reorderWindow : ℕ}

namespace SnWindow

/-- `_z_sn_window_contains` -/
def contains (window : SnWindow reorderWindow) (distance : ℕ) : Bool :=
  (window.seen.getD (distance / 64) 0 &&& ((1 : UInt64) <<< UInt64.ofNat (distance % 64))) != 0

/-- `_z_sn_window_mark` -/
def mark (window : SnWindow reorderWindow) (distance : ℕ) : SnWindow reorderWindow where
  highWater := window.highWater
  seen := window.seen.set (distance / 64)
    (window.seen.getD (distance / 64) 0 ||| ((1 : UInt64) <<< UInt64.ofNat (distance % 64)))
  seen_length := by rw [length_set, window.seen_length]

/-- The word the shifting loop of `_z_sn_window_advance` computes for index `dst`. -/
def advanceWord (wordShift bitShift : ℕ) (seen : List UInt64) (dst : ℕ) : UInt64 :=
  if wordShift ≤ dst then
    let src := dst - wordShift
    let value := seen.getD src 0 <<< UInt64.ofNat bitShift
    if bitShift ≠ 0 ∧ src ≠ 0 then
      value ||| (seen.getD (src - 1) 0 >>> UInt64.ofNat (64 - bitShift))
    else value
  else 0

/-- The in-place shifting loop of `_z_sn_window_advance`, from the last word to the first. -/
def advanceLoop (wordShift bitShift : ℕ) : ℕ → List UInt64 → List UInt64
  | 0, seen => seen
  | dst + 1, seen =>
    advanceLoop wordShift bitShift dst (seen.set dst (advanceWord wordShift bitShift seen dst))

/-- The bits of the last word that lie beyond the window are cleared. -/
def clearExcess (reorderWindow : ℕ) (seen : List UInt64) : List UInt64 :=
  let excess := snWindowWords reorderWindow * 64 - reorderWindow
  if excess ≠ 0 then
    seen.set (snWindowWords reorderWindow - 1)
      (seen.getD (snWindowWords reorderWindow - 1) 0 &&&
        ((0xFFFFFFFFFFFFFFFF : UInt64) >>> UInt64.ofNat excess))
  else seen

theorem advanceLoop_length (wordShift bitShift dst : ℕ) (seen : List UInt64) :
    (advanceLoop wordShift bitShift dst seen).length = seen.length := by
  induction dst generalizing seen with
  | zero => rfl
  | succ dst ih => rw [advanceLoop, ih, length_set]

theorem clearExcess_length (reorderWindow : ℕ) (seen : List UInt64) :
    (clearExcess reorderWindow seen).length = seen.length := by
  unfold clearExcess
  dsimp only
  split
  · rw [length_set]
  · rfl

/-- `_z_sn_window_advance` -/
def advance (window : SnWindow reorderWindow) (distance : ℕ) : SnWindow reorderWindow :=
  if reorderWindow ≤ distance then
    { window with
      seen := List.replicate (snWindowWords reorderWindow) 0
      seen_length := length_replicate }
  else
    { window with
      seen := clearExcess reorderWindow
        (advanceLoop (distance / 64) (distance % 64) (snWindowWords reorderWindow) window.seen)
      seen_length := by rw [clearExcess_length, advanceLoop_length, window.seen_length] }

/-- `_z_sn_window_capacity` -/
def capacity (reorderWindow : ℕ) (snResolution : UInt64) : ℕ :=
  let unambiguousCapacity := (snHalf snResolution + 1).toNat
  if unambiguousCapacity < reorderWindow then unambiguousCapacity else reorderWindow

/-- `_z_sn_window_reset` -/
def reset (reorderWindow : ℕ) (highWater : UInt64) : SnWindow reorderWindow where
  highWater := highWater
  seen := List.replicate (snWindowWords reorderWindow) 0
  seen_length := length_replicate

/-- `_z_sn_window_observe` -/
def observe (window : SnWindow reorderWindow) (snResolution value : UInt64) :
    SnWindow reorderWindow × SnWindowResult :=
  if snPrecedes snResolution window.highWater value then
    let distance := (value - window.highWater) &&& snResolution
    (({ window.advance distance.toNat with highWater := value } : SnWindow reorderWindow).mark 0,
      .ahead)
  else
    let distance := (window.highWater - value) &&& snResolution
    if capacity reorderWindow snResolution ≤ distance.toNat then (window, .tooOld)
    else if window.contains distance.toNat then (window, .duplicate)
    else (window.mark distance.toNat, .reordered)

end SnWindow

/-! ### Bits of the words -/

namespace SnWindow

/-- The bit of the bitmap that stands for a distance. -/
def bit (seen : List UInt64) (distance : ℕ) : Bool :=
  (seen.getD (distance / 64) 0).toBitVec.getLsbD (distance % 64)

theorem shift_amount (b : ℕ) (hb : b < 64) : ((UInt64.ofNat b).toBitVec % 64).toNat = b := by
  simp only [BitVec.toNat_umod, UInt64.toNat_toBitVec, UInt64.toNat_ofNat',
    show (64 : BitVec 64).toNat = 64 from rfl]
  omega

theorem getLsbD_shiftLeft_word (w : UInt64) (b j : ℕ) (hb : b < 64) (hj : j < 64) :
    (w <<< UInt64.ofNat b).toBitVec.getLsbD j = (decide (b ≤ j) && w.toBitVec.getLsbD (j - b)) := by
  rw [UInt64.toBitVec_shiftLeft, BitVec.shiftLeft_eq', BitVec.getLsbD_shiftLeft, shift_amount b hb]
  by_cases h : b ≤ j <;> simp [h, hj, Nat.not_lt.mpr, not_le.mp]

theorem getLsbD_shiftRight_word (w : UInt64) (b j : ℕ) (hb : b < 64) :
    (w >>> UInt64.ofNat b).toBitVec.getLsbD j = w.toBitVec.getLsbD (b + j) := by
  rw [UInt64.toBitVec_shiftRight, BitVec.ushiftRight_eq', BitVec.getLsbD_ushiftRight,
    shift_amount b hb]

theorem getLsbD_one_shift (b j : ℕ) (hb : b < 64) (hj : j < 64) :
    ((1 : UInt64) <<< UInt64.ofNat b).toBitVec.getLsbD j = decide (j = b) := by
  rw [getLsbD_shiftLeft_word 1 b j hb hj, show (1 : UInt64).toBitVec = 1#64 from rfl,
    BitVec.getLsbD_one, Bool.eq_iff_iff]
  simp only [Bool.and_eq_true, decide_eq_true_eq]
  omega

/-- Testing a word against one bit reads that bit. -/
theorem and_one_shift_ne_zero (w : UInt64) (b : ℕ) (hb : b < 64) :
    ((w &&& ((1 : UInt64) <<< UInt64.ofNat b)) != 0) = w.toBitVec.getLsbD b := by
  rw [Bool.eq_iff_iff, bne_iff_ne, ne_eq, ← UInt64.toBitVec_inj, UInt64.toBitVec_and,
    show (0 : UInt64).toBitVec = 0#64 from rfl]
  constructor
  · intro hne
    by_contra hbit
    apply hne
    apply BitVec.eq_of_getLsbD_eq
    intro j hj
    rw [BitVec.getLsbD_and, getLsbD_one_shift b j hb hj, BitVec.getLsbD_zero]
    by_cases hjb : j = b
    · subst hjb
      simp [hbit]
    · simp [hjb]
  · intro hbit hzero
    have := congrArg (BitVec.getLsbD · b) hzero
    simp only [BitVec.getLsbD_and, getLsbD_one_shift b b hb hb, hbit, BitVec.getLsbD_zero] at this
    simp at this

theorem contains_eq_bit (window : SnWindow reorderWindow) (distance : ℕ) :
    window.contains distance = bit window.seen distance :=
  and_one_shift_ne_zero _ _ (Nat.mod_lt _ (by omega))

theorem bit_replicate_zero (n distance : ℕ) : bit (List.replicate n 0) distance = false := by
  unfold bit
  rw [getD_eq_getElem?_getD, List.getElem?_replicate]
  split <;> exact BitVec.getLsbD_zero

/-- Marking a distance sets its bit and no other. -/
theorem bit_mark (window : SnWindow reorderWindow) {distance e : ℕ}
    (hd : distance < reorderWindow) :
    bit (window.mark distance).seen e = (decide (e = distance) || bit window.seen e) := by
  have hlen := window.seen_length
  have hlt : distance / 64 < window.seen.length := by
    rw [hlen]
    unfold snWindowWords
    omega
  unfold bit mark
  dsimp only
  by_cases hword : distance / 64 = e / 64
  · rw [hword, getD_eq_getElem?_getD, List.getElem?_set_self (by omega), getD_some,
      UInt64.toBitVec_or, BitVec.getLsbD_or,
      getLsbD_one_shift _ _ (Nat.mod_lt _ (by omega)) (Nat.mod_lt _ (by omega)), Bool.or_comm]
    congr 1
    rw [decide_eq_decide]
    omega
  · rw [getD_eq_getElem?_getD, List.getElem?_set_ne hword, ← getD_eq_getElem?_getD]
    have hne : e ≠ distance := by
      rintro rfl
      exact hword rfl
    simp [hne]

/-! ### Shifting the bitmap -/

theorem advanceWord_congr {wordShift bitShift k : ℕ} {a b : List UInt64}
    (h : ∀ i ≤ k, a.getD i 0 = b.getD i 0) :
    advanceWord wordShift bitShift a k = advanceWord wordShift bitShift b k := by
  unfold advanceWord
  dsimp only
  rw [h (k - wordShift) (by omega), h (k - wordShift - 1) (by omega)]

/-- The loop leaves every word below its start as the shift of the words it began with. -/
theorem getD_advanceLoop (wordShift bitShift n : ℕ) (seen : List UInt64) (hn : n ≤ seen.length)
    (k : ℕ) : (advanceLoop wordShift bitShift n seen).getD k 0 =
      if k < n then advanceWord wordShift bitShift seen k else seen.getD k 0 := by
  induction n generalizing seen with
  | zero => rfl
  | succ n ih =>
    rw [advanceLoop, ih _ (by rw [length_set]; omega)]
    rcases lt_trichotomy k n with hlt | heq | hgt
    · rw [if_pos hlt, if_pos (by omega)]
      -- the words read for index `k` lie below the word just written
      apply advanceWord_congr
      intro i hi
      rw [getD_eq_getElem?_getD, List.getElem?_set_ne (by omega), ← getD_eq_getElem?_getD]
    · subst heq
      rw [if_neg (by omega), if_pos (by omega), getD_eq_getElem?_getD,
        List.getElem?_set_self (by omega), getD_some]
    · rw [if_neg (by omega), if_neg (by omega), getD_eq_getElem?_getD,
        List.getElem?_set_ne (by omega), ← getD_eq_getElem?_getD]

/-- One shifted word holds the bits a distance further down. -/
theorem getLsbD_advanceWord (seen : List UInt64) (distance e : ℕ) :
    (advanceWord (distance / 64) (distance % 64) seen (e / 64)).toBitVec.getLsbD (e % 64) =
      (decide (distance ≤ e) && bit seen (e - distance)) := by
  have hb : distance % 64 < 64 := Nat.mod_lt _ (by omega)
  have hj : e % 64 < 64 := Nat.mod_lt _ (by omega)
  unfold advanceWord
  by_cases hword : distance / 64 ≤ e / 64
  · rw [if_pos hword]
    dsimp only
    by_cases hbits : distance % 64 ≤ e % 64
    · -- the bit comes from the word at the same offset
      rw [decide_eq_true (show distance ≤ e by omega), Bool.true_and]
      have hsource : bit seen (e - distance) =
          (seen.getD (e / 64 - distance / 64) 0).toBitVec.getLsbD (e % 64 - distance % 64) := by
        unfold bit
        rw [show (e - distance) / 64 = e / 64 - distance / 64 by omega,
          show (e - distance) % 64 = e % 64 - distance % 64 by omega]
      have hlow : (seen.getD (e / 64 - distance / 64) 0 <<<
          UInt64.ofNat (distance % 64)).toBitVec.getLsbD (e % 64) = bit seen (e - distance) := by
        rw [getLsbD_shiftLeft_word _ _ _ hb hj, decide_eq_true hbits, Bool.true_and, hsource]
      split
      · rename_i hcarry
        rw [UInt64.toBitVec_or, BitVec.getLsbD_or, hlow,
          getLsbD_shiftRight_word _ _ _ (by omega), BitVec.getLsbD_of_ge _ _ (by omega),
          Bool.or_false]
      · exact hlow
    · -- the bit is carried over from the word below
      have hlow : (seen.getD (e / 64 - distance / 64) 0 <<<
          UInt64.ofNat (distance % 64)).toBitVec.getLsbD (e % 64) = false := by
        rw [getLsbD_shiftLeft_word _ _ _ hb hj, decide_eq_false hbits, Bool.false_and]
      split
      · rename_i hcarry
        rw [UInt64.toBitVec_or, BitVec.getLsbD_or, hlow, Bool.false_or,
          getLsbD_shiftRight_word _ _ _ (by omega),
          decide_eq_true (show distance ≤ e by omega), Bool.true_and]
        unfold bit
        rw [show (e - distance) / 64 = e / 64 - distance / 64 - 1 by omega,
          show (e - distance) % 64 = 64 - distance % 64 + e % 64 by omega]
      · rename_i hcarry
        rw [hlow, decide_eq_false (show ¬ distance ≤ e by omega), Bool.false_and]
  · rw [if_neg hword, decide_eq_false (show ¬ distance ≤ e by omega), Bool.false_and]
    exact BitVec.getLsbD_zero

/-- Clearing the excess keeps every bit inside the window. -/
theorem bit_clearExcess {seen : List UInt64} {e : ℕ} (hlen : seen.length = snWindowWords reorderWindow)
    (he : e < reorderWindow) : bit (clearExcess reorderWindow seen) e = bit seen e := by
  have hwords : snWindowWords reorderWindow = (reorderWindow + 63) / 64 := rfl
  unfold clearExcess
  dsimp only
  split
  · rename_i hexcess
    unfold bit
    by_cases hlast : e / 64 = snWindowWords reorderWindow - 1
    · rw [hlast, getD_eq_getElem?_getD, List.getElem?_set_self (by omega), getD_some,
        UInt64.toBitVec_and, BitVec.getLsbD_and, getLsbD_shiftRight_word _ _ _ (by omega),
        show (0xFFFFFFFFFFFFFFFF : UInt64).toBitVec = BitVec.allOnes 64 from rfl,
        BitVec.getLsbD_allOnes, decide_eq_true (by omega), Bool.and_true]
    · rw [getD_eq_getElem?_getD, List.getElem?_set_ne (by omega), ← getD_eq_getElem?_getD]
  · rfl

/-- Advancing moves every bit inside the window up by the distance. -/
theorem bit_advance (window : SnWindow reorderWindow) {distance e : ℕ} (he : e < reorderWindow) :
    bit (window.advance distance).seen e =
      (decide (distance ≤ e) && bit window.seen (e - distance)) := by
  have hlen := window.seen_length
  have hwords : snWindowWords reorderWindow = (reorderWindow + 63) / 64 := rfl
  unfold advance
  split
  · rename_i hfar
    rw [bit_replicate_zero, decide_eq_false (by omega), Bool.false_and]
  · rw [bit_clearExcess (by rw [advanceLoop_length, hlen]) he, bit,
      getD_advanceLoop _ _ _ _ (by omega), if_pos (by omega), getLsbD_advanceWord]

/-! ### Observing a position -/

theorem capacity_le (reorderWindow : ℕ) (snResolution : UInt64) :
    capacity reorderWindow snResolution ≤ reorderWindow := by
  unfold capacity
  dsimp only
  split <;> omega

variable {bits : ℕ}

theorem toNat_snHalf_succ (h : IsResolution bits) :
    (snHalf (snMax bits) + 1).toNat = (snHalf (snMax bits)).toNat + 1 := by
  have hhalf := snHalf_toNat h
  have hle : snRange bits ≤ 2 ^ 64 := Nat.le_of_dvd (by positivity) (snRange_dvd h)
  rw [UInt64.toNat_add, UInt64.toNat_one, Nat.mod_eq_of_lt (by omega)]

/-- The capacity never exceeds half of the range. -/
theorem two_mul_capacity_le (reorderWindow : ℕ) (h : IsResolution bits) :
    2 * capacity reorderWindow (snMax bits) ≤ snRange bits := by
  have hhalf := snHalf_toNat h
  have hcap := toNat_snHalf_succ h
  unfold capacity
  dsimp only
  split <;> omega

theorem capacity_pos {reorderWindow : ℕ} (hW : 0 < reorderWindow) (h : IsResolution bits) :
    0 < capacity reorderWindow (snMax bits) := by
  have hcap := toNat_snHalf_succ h
  unfold capacity
  dsimp only
  split <;> omega

/-- What one observation can do, in terms of positions: the number of position `i` is observed
by a window whose mark stands at position `markAt`. -/
theorem observe_cases {window : SnWindow reorderWindow} (h : IsResolution bits)
    (hW : 0 < reorderWindow) {markAt i : ℤ} (hmark : window.highWater = snAt bits markAt)
    (hclose : SerialNumber.Close (snRange bits) markAt i) :
    (markAt < i ∧ ∃ window', window.observe (snMax bits) (snAt bits i) = (window', .ahead) ∧
      window'.highWater = snAt bits i ∧ ∀ e < reorderWindow, bit window'.seen e = (decide (e = 0) ||
          (decide ((i - markAt).toNat ≤ e) && bit window.seen (e - (i - markAt).toNat)))) ∨
    (i ≤ markAt ∧ capacity reorderWindow (snMax bits) ≤ (markAt - i).toNat ∧
      window.observe (snMax bits) (snAt bits i) = (window, .tooOld)) ∨
    (i ≤ markAt ∧ (markAt - i).toNat < capacity reorderWindow (snMax bits) ∧
      bit window.seen (markAt - i).toNat = true ∧
      window.observe (snMax bits) (snAt bits i) = (window, .duplicate)) ∨
    (i ≤ markAt ∧ (markAt - i).toNat < capacity reorderWindow (snMax bits) ∧
      bit window.seen (markAt - i).toNat = false ∧
      ∃ window', window.observe (snMax bits) (snAt bits i) = (window', .reordered) ∧
        window'.highWater = snAt bits markAt ∧
        ∀ e, bit window'.seen e = (decide (e = (markAt - i).toNat) || bit window.seen e)) := by
  obtain ⟨hfwd, hback⟩ := hclose
  rcases lt_or_ge markAt i with hlt | hle
  · left
    refine ⟨hlt, ({ window.advance ((snAt bits i - snAt bits markAt) &&& snMax bits).toNat with
      highWater := snAt bits i } : SnWindow reorderWindow).mark 0, ?_, rfl, ?_⟩
    · unfold observe
      rw [hmark, if_pos ((snPrecedes_iff_lt h ⟨hfwd, hback⟩).mpr hlt)]
    · intro e he
      have hdist : ((snAt bits i - snAt bits markAt) &&& snMax bits).toNat =
          (i - markAt).toNat := by
        have := masked_sub_snAt h markAt i
        rw [SerialNumber.distance_of_le hlt.le (by omega)] at this
        omega
      rw [bit_mark _ hW, hdist]
      congr 1
      exact bit_advance window he
  · right
    have hdist : ((window.highWater - snAt bits i) &&& snMax bits).toNat = (markAt - i).toNat := by
      have := masked_sub_snAt h i markAt
      rw [SerialNumber.distance_of_le hle (by omega)] at this
      rw [hmark]
      omega
    have hnot : snPrecedes (snMax bits) window.highWater (snAt bits i) = false := by
      rw [← Bool.not_eq_true, hmark, snPrecedes_iff_lt h ⟨hfwd, hback⟩]
      omega
    have hobserve : window.observe (snMax bits) (snAt bits i) =
        if capacity reorderWindow (snMax bits) ≤ (markAt - i).toNat then (window, .tooOld)
        else if bit window.seen (markAt - i).toNat then (window, .duplicate)
        else (window.mark (markAt - i).toNat, .reordered) := by
      unfold observe
      rw [hnot]
      simp only [Bool.false_eq_true, ↓reduceIte, hdist, contains_eq_bit]
    rw [hobserve]
    by_cases hcap : capacity reorderWindow (snMax bits) ≤ (markAt - i).toNat
    · left
      exact ⟨hle, hcap, if_pos hcap⟩
    · right
      have hcaple := capacity_le reorderWindow (snMax bits)
      cases hbit : bit window.seen (markAt - i).toNat with
      | true =>
        left
        refine ⟨hle, by omega, rfl, ?_⟩
        rw [if_neg hcap, if_pos rfl]
      | false =>
        right
        have hinside : (markAt - i).toNat < reorderWindow := by omega
        refine ⟨hle, by omega, rfl, window.mark (markAt - i).toNat, ?_, hmark, ?_⟩
        · rw [if_neg hcap, if_neg Bool.false_ne_true]
        · intro e
          exact bit_mark window hinside

end SnWindow

end ZenohPico.Transport
