import Mathlib.Data.List.Range
import Mathlib.Logic.Function.Basic
import Mathlib.Tactic.Common

/-!
A block of memory that knows which of its places were read or written.

The block goes on behind the places that an array in it has, so that an access out of bounds is one
that can be seen. Elements may take several places each: an array of them is read with their size as
the stride.
-/

open List Option

namespace ZenohPico.Foundations

variable {β : Type*}

/-- What is at each place, and the places that were touched -/
structure Block (β : Type*) where
  val : ℕ → β
  touched : List ℕ

/-- An element of `size` places -/
abbrev Cell (β : Type*) (size : ℕ) := Fin size → β

variable {size : ℕ}

/-- The element from a place on -/
def readCell (size : ℕ) (val : ℕ → β) (start : ℕ) : Cell β size := fun j ↦ val (start + j)

/-- The places with an element from a place on -/
def writeCell (val : ℕ → β) (start : ℕ) (e : Cell β size) : ℕ → β := fun i ↦
  if h : start ≤ i ∧ i - start < size then e ⟨i - start, h.2⟩ else val i

/-- The first `len` elements -/
def cells (size : ℕ) (val : ℕ → β) (len : ℕ) : List (Cell β size) :=
  (List.range len).map fun i ↦ readCell size val (i * size)

namespace Block

variable (b : Block β)

/-- A block that nothing has been done with -/
def untouched (val : ℕ → β) : Block β := ⟨val, []⟩

def set (i : ℕ) (x : β) : Block β := ⟨Function.update b.val i x, i :: b.touched⟩

def modify (i : ℕ) (f : β → β) : Block β := b.set i (f (b.val i))

/-- One place copied to another one -/
def copy (dst src : ℕ) : Block β := ⟨Function.update b.val dst (b.val src), dst :: src :: b.touched⟩

/-- As many places moved at once, where the two ranges may overlap -/
def moveRange (dst src n : ℕ) : Block β where
  val i := if dst ≤ i ∧ i < dst + n then b.val (src + (i - dst)) else b.val i
  touched := List.range' dst n ++ List.range' src n ++ b.touched

def modifyCell (start : ℕ) (f : Cell β size → Cell β size) : Block β where
  val := writeCell b.val start (f (readCell size b.val start))
  touched := List.range' start size ++ b.touched

/-- One element moved to another place, where `move` says what it leaves at the two -/
def moveCell (dst src : ℕ) (move : Cell β size → Cell β size → Cell β size × Cell β size) :
    Block β where
  val := writeCell
    (writeCell b.val src (move (readCell size b.val dst) (readCell size b.val src)).2) dst
    (move (readCell size b.val dst) (readCell size b.val src)).1
  touched := List.range' dst size ++ List.range' src size ++ b.touched

/-- As many elements moved one after the other -/
def moveCells (dst src n : ℕ)
    (move : Cell β size → Cell β size → Cell β size × Cell β size) : Block β :=
  (List.range n).foldl (fun b i ↦ b.moveCell (dst + i * size) (src + i * size) move) b

end Block

/-! ### Single places -/

section Places

variable {val val' : ℕ → β} {start i : ℕ} {e : Cell β size}

theorem writeCell_of_lt (h : i < start) : writeCell val start e i = val i :=
  dif_neg fun hand ↦ absurd hand.1 (Nat.not_le_of_lt h)

theorem writeCell_of_le (h : start + size ≤ i) : writeCell val start e i = val i := by
  refine dif_neg fun hand ↦ ?_
  omega

theorem writeCell_add {j : ℕ} (h : j < size) : writeCell val start e (start + j) = e ⟨j, h⟩ := by
  have hsub : start + j - start = j := Nat.add_sub_cancel_left _ _
  rw [writeCell, dif_pos ⟨Nat.le_add_right _ _, hsub.symm ▸ h⟩]
  congr 1
  exact Fin.ext hsub

theorem readCell_writeCell : readCell size (writeCell val start e) start = e := by
  funext j
  exact writeCell_add j.isLt

/-- An element is a range of places. -/
theorem readCell_eq_iff {start' : ℕ} : readCell size val start = readCell size val' start' ↔
      ∀ j < size, val (start + j) = val' (start' + j) := by
  rw [funext_iff]
  exact ⟨fun h j hj ↦ h ⟨j, hj⟩, fun h j ↦ h j j.isLt⟩

theorem cells_congr {len : ℕ} (h : ∀ i < len * size, val i = val' i) :
    cells size val len = cells size val' len := by
  refine map_congr_left fun i hi ↦ readCell_eq_iff.mpr fun j hj ↦ h _ ?_
  calc i * size + j < i * size + size := Nat.add_lt_add_left hj _
    _ = (i + 1) * size := (Nat.succ_mul i size).symm
    _ ≤ len * size := Nat.mul_le_mul_right _ (mem_range.mp hi)

theorem cells_succ (len : ℕ) :
    cells size val (len + 1) = cells size val len ++ [readCell size val (len * size)] := by
  rw [cells, range_succ, map_append]
  rfl

theorem readCell_writeCell_of_ne {j : ℕ} (h : j ≠ i) :
    readCell size (writeCell val (i * size) e) (j * size) = readCell size val (j * size) := by
  refine readCell_eq_iff.mpr fun k hk ↦ ?_
  rcases Nat.lt_or_gt_of_ne h with hlt | hgt
  · refine writeCell_of_lt ?_
    calc j * size + k < j * size + size := Nat.add_lt_add_left hk _
      _ = (j + 1) * size := (Nat.succ_mul j size).symm
      _ ≤ i * size := Nat.mul_le_mul_right _ hlt
  · refine writeCell_of_le ?_
    calc i * size + size = (i + 1) * size := (Nat.succ_mul i size).symm
      _ ≤ j * size := Nat.mul_le_mul_right _ hgt
      _ ≤ j * size + k := Nat.le_add_right _ _

end Places

section Listed

variable {γ : Type*} {f f' : ℕ → γ} {len i : ℕ} {x : γ}

theorem map_range_concat (h : ∀ i < len, f' i = f i) (hlen : f' len = x) :
    (List.range (len + 1)).map f' = (List.range len).map f ++ [x] := by
  rw [range_succ, map_append, map_singleton, hlen]
  congr 1
  exact map_congr_left fun i hi ↦ h i (mem_range.mp hi)

theorem map_range_set (h : ∀ j, j ≠ i → f' j = f j) (hi : f' i = x) :
    (List.range len).map f' = ((List.range len).map f).set i x := by
  refine ext_getElem? fun j ↦ ?_
  rw [List.getElem?_set, List.getElem?_map, List.getElem?_map, length_map, length_range]
  by_cases hj : j < len
  · rw [List.getElem?_range hj, map_some, map_some]
    split_ifs with hij hlt
    · rw [← hij, hi]
    · exact absurd (hij ▸ hj) hlt
    · rw [h j (Ne.symm hij)]
  · rw [List.getElem?_eq_none (by rw [length_range]; exact Nat.le_of_not_lt hj)]
    split_ifs with hij hlt
    · exact absurd (hij ▸ hlt) hj
    · rfl
    · rfl

end Listed

/-! ### Elements moved down by one -/

section Moves

variable {b : Block β} {move : Cell β size → Cell β size → Cell β size × Cell β size}
  {dst src i : ℕ}

theorem Block.moveCells_succ (n : ℕ) : b.moveCells dst src (n + 1) move =
    (b.moveCells dst src n move).moveCell (dst + n * size) (src + n * size) move := by
  rw [moveCells, range_succ, foldl_append]
  rfl

/-- The places that the moves touch -/
theorem Block.mem_touched_moveCells {n : ℕ} : i ∈ (b.moveCells dst src n move).touched ↔
      i ∈ b.touched ∨ (dst ≤ i ∧ i < dst + n * size) ∨ (src ≤ i ∧ i < src + n * size) := by
  induction n with
  | zero =>
    rw [Nat.zero_mul]
    refine ⟨.inl, ?_⟩
    rintro (hi | hi | hi)
    · exact hi
    · omega
    · omega
  | succ n ih =>
    rw [moveCells_succ, moveCell]
    simp only [mem_append, mem_range'_1, ih, Nat.succ_mul]
    by_cases hi : i ∈ b.touched
    · simp only [hi, true_or, or_true]
    · simp only [hi, false_or]
      omega

/-- Each element that is moved by its own size comes where the one before it was. -/
theorem Block.val_moveCells (b : Block β) (dst : ℕ) (hmove : ∀ d s, (move d s).1 = s) (n : ℕ) :
    (∀ i < dst, (b.moveCells dst (dst + size) n move).val i = b.val i) ∧
      (∀ j < n * size, (b.moveCells dst (dst + size) n move).val (dst + j) =
        b.val (dst + size + j)) ∧
      ∀ i, dst + n * size + size ≤ i → (b.moveCells dst (dst + size) n move).val i = b.val i := by
  induction n with
  | zero => exact ⟨fun _ _ ↦ rfl, fun j hj ↦ absurd hj (by omega), fun _ _ ↦ rfl⟩
  | succ n ih =>
    obtain ⟨hbefore, hmoved, hbehind⟩ := ih
    rw [moveCells_succ, moveCell]
    dsimp only
    refine ⟨fun i hi ↦ ?_, fun j hj ↦ ?_, fun i hi ↦ ?_⟩
    · rw [writeCell_of_lt (by omega), writeCell_of_lt (by omega), hbefore i hi]
    · rw [Nat.succ_mul] at hj
      by_cases hlast : n * size ≤ j
      · obtain ⟨k, rfl⟩ := Nat.exists_eq_add_of_le hlast
        rw [← Nat.add_assoc, writeCell_add (by omega), hmove, readCell, hbehind _ (by omega)]
        congr 1
        dsimp only
        omega
      · rw [writeCell_of_lt (by omega), writeCell_of_lt (by omega), hmoved j (by omega)]
    · rw [Nat.succ_mul] at hi
      rw [writeCell_of_le (by omega), writeCell_of_le (by omega), hbehind i (by omega)]

end Moves

/-! ### An element taken out -/

section Removal

variable {val val' : ℕ → β} {pos n : ℕ}

/-- What is behind the element moves by one. -/
theorem map_range_eq_eraseIdx_iff {γ : Type*} {f f' : ℕ → γ} :
    (List.range (pos + n)).map f' = ((List.range (pos + 1 + n)).map f).eraseIdx pos ↔
      (∀ i < pos, f' i = f i) ∧ ∀ k < n, f' (pos + k) = f (pos + 1 + k) := by
  have hlen : (((List.range (pos + 1 + n)).map f).eraseIdx pos).length = pos + n := by
    rw [length_eraseIdx_of_lt] <;> rw [length_map, length_range] <;> omega
  have hget : ∀ i < pos + n, (((List.range (pos + 1 + n)).map f).eraseIdx pos)[i]? =
      some (if i < pos then f i else f (i + 1)) := by
    intro i hi
    rw [List.getElem?_eraseIdx]
    split_ifs with hpos <;> rw [List.getElem?_map, List.getElem?_range (by omega), map_some]
  have hget' : ∀ i < pos + n, ((List.range (pos + n)).map f')[i]? = some (f' i) := by
    intro i hi
    rw [List.getElem?_map, List.getElem?_range hi, map_some]
  constructor
  · intro heq
    have hplace : ∀ i < pos + n, f' i = if i < pos then f i else f (i + 1) := fun i hi ↦
      some.inj ((hget' i hi).symm.trans (heq ▸ hget i hi))
    refine ⟨fun i hi ↦ ?_, fun k hk ↦ ?_⟩
    · rw [hplace i (by omega), if_pos hi]
    · rw [hplace (pos + k) (by omega), if_neg (by omega), Nat.add_right_comm]
  · rintro ⟨hbefore, hbehind⟩
    refine ext_getElem? fun i ↦ ?_
    by_cases hi : i < pos + n
    · rw [hget' i hi, hget i hi]
      split_ifs with hpos
      · rw [hbefore i hpos]
      · have hplace := hbehind (i - pos) (by omega)
        rw [show pos + (i - pos) = i by omega, show pos + 1 + (i - pos) = i + 1 by omega] at hplace
        rw [hplace]
    · rw [List.getElem?_eq_none, List.getElem?_eq_none]
      · rw [hlen]
        exact Nat.le_of_not_lt hi
      · rw [length_map, length_range]
        exact Nat.le_of_not_lt hi

/-- A place of a range of elements is one of an element of the range. -/
theorem forall_places_iff {P : ℕ → Prop} :
    (∀ k < n, ∀ j < size, P (k * size + j)) ↔ ∀ k < n * size, P k := by
  constructor
  · intro h k hk
    have hsize : 0 < size := Nat.pos_of_mul_pos_left (Nat.zero_lt_of_lt hk)
    have hplace := h (k / size) (Nat.div_lt_of_lt_mul (Nat.mul_comm n size ▸ hk)) (k % size)
      (Nat.mod_lt _ hsize)
    rwa [Nat.mul_comm, Nat.div_add_mod] at hplace
  · intro h k hk j hj
    refine h _ ?_
    calc k * size + j < k * size + size := Nat.add_lt_add_left hj _
      _ = (k + 1) * size := (Nat.succ_mul k size).symm
      _ ≤ n * size := Nat.mul_le_mul_right _ hk

/-- The places of the elements that are behind move by the size of one. -/
theorem cells_eq_eraseIdx_iff :
    cells size val' (pos + n) = (cells size val (pos + 1 + n)).eraseIdx pos ↔
      (∀ i < pos * size, val' i = val i) ∧
        ∀ k < n * size, val' (pos * size + k) = val ((pos + 1) * size + k) := by
  rw [cells, cells, map_range_eq_eraseIdx_iff]
  refine and_congr ?_ ?_
  · rw [← forall_places_iff]
    exact forall₂_congr fun i _ ↦ readCell_eq_iff
  · rw [← forall_places_iff]
    refine forall₂_congr fun k _ ↦ readCell_eq_iff.trans (forall₂_congr fun j _ ↦ ?_)
    rw [Nat.add_mul, Nat.add_assoc, Nat.add_mul (pos + 1), Nat.add_assoc]

end Removal

end ZenohPico.Foundations
