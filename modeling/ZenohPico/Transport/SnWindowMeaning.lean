import ZenohPico.Transport.SnWindow
import Mathlib.Data.Finset.Basic

/-!
What the duplicate-suppression window is for (`src/transport/utils.c`): a highest position and
the set of the positions accepted since the reset.

`SeenNumbers` is that meaning, over positions without bound. `SnWindow.Denotes` ties it to the
mark and the bitmap, `SnWindow.Denotes.observe` is the step of the simulation and
`SnWindow.observeAll_reset` the run after a reset, for positions within half the range of the
highest one. Every masked word shows exactly one such position
(`existsUnique_inHalfRange`), the one at exactly half the range being the older of the two.
-/

namespace ZenohPico.Transport

/-! ### Positions in the range of a mark -/

/-- A position within half the range of the highest one. Half the range ahead and half the range
behind are one number, which stands for the position behind. -/
def InHalfRange (bits : ℕ) (highest i : ℤ) : Prop :=
  2 * (i - highest) < snRange bits ∧ 2 * (highest - i) ≤ snRange bits

/-- Every position lies within half the range of the highest one before it. -/
def StaysInHalfRange (bits : ℕ) : ℤ → List ℤ → Prop
  | _, [] => True
  | highest, i :: positions =>
    InHalfRange bits highest i ∧ StaysInHalfRange bits (max highest i) positions

/-! ### The meaning of a window -/

/-- The highest position seen and the positions accepted since the reset. -/
structure SeenNumbers where
  highest : ℤ
  numbers : Finset ℤ
  le_highest : ∀ i ∈ numbers, i ≤ highest

variable {seen : SeenNumbers} {i : ℤ}

namespace SeenNumbers

/-- Nothing was accepted since the reset. -/
def reset (highest : ℤ) : SeenNumbers where
  highest := highest
  numbers := ∅
  le_highest := by simp

/-- A position is accepted when it is newer than the highest one, or lies less than the capacity
below it and was not accepted since the reset. -/
def Accepts (capacity : ℕ) (seen : SeenNumbers) (i : ℤ) : Prop :=
  seen.highest < i ∨ (seen.highest - i < capacity ∧ i ∉ seen.numbers)

instance (capacity : ℕ) (seen : SeenNumbers) (i : ℤ) : Decidable (seen.Accepts capacity i) :=
  inferInstanceAs (Decidable (_ ∨ _))

/-- An accepted position becomes one of the accepted ones. -/
def accept (seen : SeenNumbers) (i : ℤ) : SeenNumbers where
  highest := max seen.highest i
  numbers := insert i seen.numbers
  le_highest j hj := by
    rcases Finset.mem_insert.mp hj with rfl | hmem
    · exact le_max_right _ _
    · exact (seen.le_highest j hmem).trans (le_max_left _ _)

/-- Observing one position, and whether it is accepted. -/
def observe (capacity : ℕ) (seen : SeenNumbers) (i : ℤ) : SeenNumbers × Bool :=
  if seen.Accepts capacity i then (seen.accept i, true) else (seen, false)

/-- Observing a list of positions. -/
def observeAll (capacity : ℕ) : SeenNumbers → List ℤ → SeenNumbers × List Bool
  | seen, [] => (seen, [])
  | seen, i :: positions =>
    let step := seen.observe capacity i
    let rest := observeAll capacity step.1 positions
    (rest.1, step.2 :: rest.2)

variable {capacity : ℕ}

theorem observe_of_accepts (h : seen.Accepts capacity i) :
    seen.observe capacity i = (seen.accept i, true) := if_pos h

theorem observe_of_not_accepts (h : ¬ seen.Accepts capacity i) :
    seen.observe capacity i = (seen, false) := if_neg h

/-- The highest position is the highest one seen, whether accepted or not. -/
theorem highest_observe (capacity : ℕ) (seen : SeenNumbers) (i : ℤ) :
    (seen.observe capacity i).1.highest = max seen.highest i := by
  by_cases haccepts : seen.Accepts capacity i
  · rw [observe_of_accepts haccepts]
    rfl
  · rw [observe_of_not_accepts haccepts]
    exact (max_eq_left (le_of_not_gt fun hlt ↦ haccepts (.inl hlt))).symm

/-- What is accepted was not accepted since the reset. -/
theorem Accepts.notMem (h : seen.Accepts capacity i) : i ∉ seen.numbers := by
  rcases h with hnewer | ⟨-, hnew⟩
  · exact fun hmem ↦ absurd (seen.le_highest i hmem) (not_le.mpr hnewer)
  · exact hnew

end SeenNumbers

/-! ### The simulation -/

/-- The results for which a frame is passed on. -/
def SnWindowResult.accepts : SnWindowResult → Bool
  | .ahead => true
  | .reordered => true
  | .duplicate => false
  | .tooOld => false

namespace SnWindow

variable {reorderWindow : ℕ} {bits : ℕ}

/-- Observing a list of numbers. -/
def observeAll (snResolution : UInt64) :
    SnWindow reorderWindow → List UInt64 → SnWindow reorderWindow × List SnWindowResult
  | window, [] => (window, [])
  | window, value :: values =>
    let step := window.observe snResolution value
    let rest := observeAll snResolution step.1 values
    (rest.1, step.2 :: rest.2)

/-- The mark shows the highest position, and the bits of the window are the accepted positions
in it. -/
structure Denotes (bits : ℕ) (window : SnWindow reorderWindow) (seen : SeenNumbers) : Prop where
  highWater : window.highWater = snAt bits seen.highest
  bit_iff : ∀ e < reorderWindow, bit window.seen e = true ↔ seen.highest - (e : ℤ) ∈ seen.numbers

theorem denotes_reset (bits : ℕ) (start : ℤ) :
    Denotes bits (reset reorderWindow (snAt bits start)) (SeenNumbers.reset start) where
  highWater := rfl
  bit_iff e _ := by simp [reset, bit_replicate_zero, SeenNumbers.reset]

variable {window window' : SnWindow reorderWindow}

/-- A number half the range behind the mark is too old. -/
theorem observe_half (h : IsResolution bits) {markAt : ℤ}
    (hmark : window.highWater = snAt bits markAt) (hhalf : 2 * (markAt - i) = snRange bits) :
    window.observe (snMax bits) (snAt bits i) = (window, .tooOld) := by
  have hmax := snHalf_toNat h
  have hcapacity := two_mul_capacity_le reorderWindow h
  have hback := masked_sub_snAt h i markAt
  rw [SerialNumber.distance_of_le (by omega) (by omega)] at hback
  have hnot : snPrecedes (snMax bits) window.highWater (snAt bits i) = false := by
    rw [← Bool.not_eq_true, hmark, snPrecedes_snAt h, SerialNumber.Precedes,
      SerialNumber.distance_of_lt (by omega) (by omega)]
    omega
  unfold observe
  rw [hnot, hmark]
  simp only [Bool.false_eq_true, ↓reduceIte]
  rw [if_pos (by omega)]

/-- Moving the mark to a newer position and marking it there. -/
theorem Denotes.ahead (hdenotes : Denotes bits window seen) (hlt : seen.highest < i)
    (hwater : window'.highWater = snAt bits i)
    (hbits : ∀ e < reorderWindow, bit window'.seen e = (decide (e = 0) ||
      (decide ((i - seen.highest).toNat ≤ e) && bit window.seen (e - (i - seen.highest).toNat)))) :
    Denotes bits window' (seen.accept i) := by
  have hhighest : (seen.accept i).highest = i := max_eq_right hlt.le
  constructor
  · rw [hhighest, hwater]
  · intro e he
    rw [hhighest, hbits e he, Bool.or_eq_true, Bool.and_eq_true, decide_eq_true_eq,
      decide_eq_true_eq, SeenNumbers.accept, Finset.mem_insert]
    refine or_congr (by omega) ?_
    constructor
    · rintro ⟨hle, hbit⟩
      have hmem := (hdenotes.bit_iff _ (by omega)).mp hbit
      rwa [show seen.highest - ((e - (i - seen.highest).toNat : ℕ) : ℤ) = i - e by omega] at hmem
    · intro hmem
      have hbound := seen.le_highest _ hmem
      refine ⟨by omega, (hdenotes.bit_iff _ (by omega)).mpr ?_⟩
      rwa [show seen.highest - ((e - (i - seen.highest).toNat : ℕ) : ℤ) = i - e by omega]

/-- Marking a position behind the mark. -/
theorem Denotes.reordered (hdenotes : Denotes bits window seen) (hle : i ≤ seen.highest)
    (hwater : window'.highWater = snAt bits seen.highest) (hbits : ∀ e, bit window'.seen e =
      (decide (e = (seen.highest - i).toNat) || bit window.seen e)) :
    Denotes bits window' (seen.accept i) := by
  have hhighest : (seen.accept i).highest = seen.highest := max_eq_left hle
  constructor
  · rw [hhighest, hwater]
  · intro e he
    rw [hhighest, hbits e, Bool.or_eq_true, decide_eq_true_eq, SeenNumbers.accept,
      Finset.mem_insert]
    exact or_congr (by omega) (hdenotes.bit_iff e he)

/-- One observation does what the meaning of the window says. -/
theorem Denotes.observe (hdenotes : Denotes bits window seen) (h : IsResolution bits)
    (hW : 0 < reorderWindow) (hrange : InHalfRange bits seen.highest i) :
    (window.observe (snMax bits) (snAt bits i)).2.accepts =
        (seen.observe (capacity reorderWindow (snMax bits)) i).2 ∧
      Denotes bits (window.observe (snMax bits) (snAt bits i)).1
        (seen.observe (capacity reorderWindow (snMax bits)) i).1 := by
  have hcapacity := capacity_le reorderWindow (snMax bits)
  have htwo := two_mul_capacity_le reorderWindow h
  by_cases hhalf : 2 * (seen.highest - i) = snRange bits
  · have hnot : ¬ seen.Accepts (capacity reorderWindow (snMax bits)) i := by
      unfold SeenNumbers.Accepts
      omega
    rw [observe_half h hdenotes.highWater hhalf, SeenNumbers.observe_of_not_accepts hnot]
    exact ⟨rfl, hdenotes⟩
  have hclose : SerialNumber.Close (snRange bits) seen.highest i :=
    ⟨hrange.1, lt_of_le_of_ne hrange.2 hhalf⟩
  rcases observe_cases h hW hdenotes.highWater hclose with
    ⟨hlt, window', hobserve, hwater, hbits⟩ | ⟨hle, hfar, hobserve⟩ |
    ⟨hle, hnear, hbit, hobserve⟩ | ⟨hle, hnear, hbit, window', hobserve, hwater, hbits⟩
  · rw [hobserve, SeenNumbers.observe_of_accepts (.inl hlt)]
    exact ⟨rfl, hdenotes.ahead hlt hwater hbits⟩
  · have hnot : ¬ seen.Accepts (capacity reorderWindow (snMax bits)) i := by
      unfold SeenNumbers.Accepts
      omega
    rw [hobserve, SeenNumbers.observe_of_not_accepts hnot]
    exact ⟨rfl, hdenotes⟩
  · have hmem := (hdenotes.bit_iff _ (by omega)).mp hbit
    rw [show seen.highest - ((seen.highest - i).toNat : ℤ) = i by omega] at hmem
    rw [hobserve, SeenNumbers.observe_of_not_accepts fun haccepts ↦ haccepts.notMem hmem]
    exact ⟨rfl, hdenotes⟩
  · have hnew : i ∉ seen.numbers := by
      intro hmem
      rw [← show seen.highest - ((seen.highest - i).toNat : ℤ) = i by omega,
        ← hdenotes.bit_iff _ (by omega), hbit] at hmem
      cases hmem
    rw [hobserve, SeenNumbers.observe_of_accepts (.inr ⟨by omega, hnew⟩)]
    exact ⟨rfl, hdenotes.reordered hle hwater hbits⟩

/-- Every list of observations does what the meaning of the window says. -/
theorem Denotes.observeAll (h : IsResolution bits) (hW : 0 < reorderWindow) :
    ∀ {positions : List ℤ} {window : SnWindow reorderWindow} {seen : SeenNumbers},
      Denotes bits window seen → StaysInHalfRange bits seen.highest positions →
      (window.observeAll (snMax bits) (positions.map (snAt bits))).2.map
            SnWindowResult.accepts =
          (seen.observeAll (capacity reorderWindow (snMax bits)) positions).2 ∧
        Denotes bits (window.observeAll (snMax bits) (positions.map (snAt bits))).1
          (seen.observeAll (capacity reorderWindow (snMax bits)) positions).1
  | [], _, _, hdenotes, _ => ⟨rfl, hdenotes⟩
  | i :: positions, window, seen, hdenotes, ⟨hrange, hrest⟩ => by
    obtain ⟨hresult, hnext⟩ := hdenotes.observe h hW hrange
    rw [← SeenNumbers.highest_observe (capacity reorderWindow (snMax bits)) seen i] at hrest
    obtain ⟨hresults, hfinal⟩ := Denotes.observeAll h hW hnext hrest
    refine ⟨?_, hfinal⟩
    simp only [SnWindow.observeAll, SeenNumbers.observeAll, List.map_cons]
    rw [hresult, hresults]

/-- After a reset, for every resolution and every list of numbers within half the range of the
highest one, a number is accepted exactly when it is newer than all before it, or lies in the
window below the highest and was not accepted since the reset; and the mark and the bitmap then
stand for exactly what was accepted. -/
theorem observeAll_reset (h : IsResolution bits) (hW : 0 < reorderWindow) (start : ℤ)
    (positions : List ℤ) (hrange : StaysInHalfRange bits start positions) :
    ((reset reorderWindow (snAt bits start)).observeAll (snMax bits)
          (positions.map (snAt bits))).2.map SnWindowResult.accepts =
        ((SeenNumbers.reset start).observeAll (capacity reorderWindow (snMax bits))
          positions).2 ∧
      Denotes bits ((reset reorderWindow (snAt bits start)).observeAll (snMax bits)
          (positions.map (snAt bits))).1
        ((SeenNumbers.reset start).observeAll (capacity reorderWindow (snMax bits))
          positions).1 :=
  Denotes.observeAll h hW (denotes_reset bits start) hrange

/-- A wrap of the seven-bit numbers in the middle of the window. -/
theorem observeAll_reset_wrap : StaysInHalfRange 0x00 126 [127, 129, 128, 127, 65, 66] ∧
      ((reset 256 (snAt 0x00 126)).observeAll (snMax 0x00)
          ([127, 129, 128, 127, 65, 66].map (snAt 0x00))).2.map SnWindowResult.accepts =
        [true, true, true, false, false, true] := by
  have hrange : StaysInHalfRange 0x00 126 [127, 129, 128, 127, 65, 66] := by
    simp only [StaysInHalfRange, InHalfRange]
    decide
  refine ⟨hrange, ?_⟩
  rw [(observeAll_reset (by decide) (by decide) 126 _ hrange).1]
  decide

end SnWindow

end ZenohPico.Transport
