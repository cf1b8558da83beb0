import Mathlib.Data.List.Range
import Mathlib.Logic.Function.Basic
import Mathlib.Tactic.Common

/-!
The bit vector of a fixed capacity (`include/zenoh-pico/collections/static_bit_vector_template.h`).

Bits are packed into blocks of any width. The bits of the blocks that are behind the length of the
vector stay zero, since equality, counting and the scan for set bits read whole blocks. In the mode
that makes it a set, the length is the capacity, and only the operations that keep the length exist.
No operation sets a length and none combines two vectors: the length changes as bits are put in and
taken out, and the logical operations flip bits or ask whether all or any of them are set.
-/

open List Option

namespace ZenohPico.Collections

/-- The generated type, for a block type of `w` bits -/
structure StaticBitVector (w capacity : ℕ) where
  /-- `_blocks` -/
  blocks : ℕ → BitVec w
  /-- `_size` -/
  size : ℕ

namespace StaticBitVector

variable {w capacity : ℕ} (vec : StaticBitVector w capacity)

/-- `_new`, with the length 0, or the capacity for a set -/
def new (w capacity : ℕ) (isSet : Bool) : StaticBitVector w capacity where
  blocks := fun _ ↦ 0#w
  size := if isSet then capacity else 0

/-- The mask of one bit -/
def bitMask (w i : ℕ) : BitVec w := 1#w <<< (i % w)

/-- The mask of the bits below one -/
def lowMask (w rem : ℕ) : BitVec w := (1#w <<< rem) - 1#w

/-- The blocks that hold a bit of the vector -/
def numBlocks : ℕ := (vec.size + w - 1) / w

/-- `_const_at` -/
def constAt (i : ℕ) : Bool := vec.blocks (i / w) &&& bitMask w i != 0#w

/-- `_const_get` -/
def constGet (i : ℕ) : Option Bool := if vec.size ≤ i then none else some (vec.constAt i)

def setBlock (k : ℕ) (block : BitVec w) : StaticBitVector w capacity :=
  { vec with blocks := Function.update vec.blocks k block }

/-- `_set_at` -/
def setAt (i : ℕ) (value : Bool) : StaticBitVector w capacity :=
  vec.setBlock (i / w)
    (if value then vec.blocks (i / w) ||| bitMask w i else vec.blocks (i / w) &&& ~~~bitMask w i)

/-- `_flip_at` -/
def flipAt (i : ℕ) : StaticBitVector w capacity :=
  vec.setBlock (i / w) (vec.blocks (i / w) ^^^ bitMask w i)

/-- A loop that changes the first blocks one after the other -/
def mapBlocks (f : BitVec w → BitVec w) : ℕ → StaticBitVector w capacity
  | 0 => vec
  | n + 1 => (mapBlocks f n).setBlock n (f ((mapBlocks f n).blocks n))

/-- `_set_all` -/
def setAll (value : Bool) : StaticBitVector w capacity :=
  if value then
    let ones := vec.mapBlocks (fun _ ↦ BitVec.allOnes w) (vec.size / w)
    if 0 < vec.size % w then ones.setBlock (vec.size / w) (lowMask w (vec.size % w)) else ones
  else vec.mapBlocks (fun _ ↦ 0#w) vec.numBlocks

/-- `_flip_all` -/
def flipAll : StaticBitVector w capacity :=
  let flipped := vec.mapBlocks (~~~·) vec.numBlocks
  if vec.size % w ≠ 0 then
    flipped.setBlock (vec.numBlocks - 1)
      (flipped.blocks (vec.numBlocks - 1) &&& lowMask w (vec.size % w))
  else flipped

/-- The loop of `_append` -/
def setFrom (vec : StaticBitVector w capacity) : ℕ → List Bool → StaticBitVector w capacity
  | _, [] => vec
  | i, b :: elems => setFrom (vec.setAt i b) (i + 1) elems

/-- The loop of `_insert`, from the given index down -/
def shiftBack (vec : StaticBitVector w capacity) (index : ℕ) : ℕ → StaticBitVector w capacity
  | 0 => vec
  | i + 1 => if index < i + 1 then shiftBack (vec.setAt (i + 1) (vec.constAt i)) index i else vec

/-- The loop of `_remove`, for the given number of rounds -/
def shiftFront (vec : StaticBitVector w capacity) (i : ℕ) : ℕ → StaticBitVector w capacity
  | 0 => vec
  | n + 1 => shiftFront (vec.setAt i (vec.constAt (i + 1))) (i + 1) n

def setSize (n : ℕ) : StaticBitVector w capacity := { vec with size := n }

/-- The operations that change a vector -/
inductive Op
  | set (i : ℕ) (value : Bool)
  | flip (i : ℕ)
  | setAll (value : Bool)
  | flipAll
  | pushBack (value : Bool)
  | append (elems : List Bool)
  | popBack
  | insert (i : ℕ) (value : Bool)
  | remove (i : ℕ)
  | swapRemove (i : ℕ)
  | destroy
deriving DecidableEq, Repr

/-- What an operation returns, and what it stores in `*out` -/
structure OpResult where
  success : Bool
  out : Option Bool
deriving DecidableEq, Repr

/-- The operations, with what each returns. Those that return nothing count as successful. -/
def step : Op → OpResult × StaticBitVector w capacity
  | .set i value =>
    if vec.size ≤ i then (⟨false, none⟩, vec) else (⟨true, none⟩, vec.setAt i value)
  | .flip i => if vec.size ≤ i then (⟨false, none⟩, vec) else (⟨true, none⟩, vec.flipAt i)
  | .setAll value => (⟨true, none⟩, vec.setAll value)
  | .flipAll => (⟨true, none⟩, vec.flipAll)
  | .pushBack value =>
    if vec.size = capacity then (⟨false, none⟩, vec)
    else (⟨true, none⟩, (vec.setAt vec.size value).setSize (vec.size + 1))
  | .append elems =>
    if elems.length = 0 then (⟨true, none⟩, vec)
    else if capacity - vec.size < elems.length then (⟨false, none⟩, vec)
    else (⟨true, none⟩, (vec.setFrom vec.size elems).setSize (vec.size + elems.length))
  | .popBack =>
    if vec.size = 0 then (⟨false, none⟩, vec)
    else
      (⟨true, some (vec.constAt (vec.size - 1))⟩,
        (vec.setAt (vec.size - 1) false).setSize (vec.size - 1))
  | .insert i value =>
    if vec.size = capacity ∨ vec.size < i then (⟨false, none⟩, vec)
    else (⟨true, none⟩, ((vec.shiftBack i vec.size).setAt i value).setSize (vec.size + 1))
  | .remove i =>
    if vec.size ≤ i then (⟨false, none⟩, vec)
    else
      (⟨true, some (vec.constAt i)⟩,
        ((vec.shiftFront i (vec.size - 1 - i)).setAt (vec.size - 1) false).setSize (vec.size - 1))
  | .swapRemove i =>
    if vec.size ≤ i then (⟨false, none⟩, vec)
    else
      let moved := if i ≠ vec.size - 1 then vec.setAt i (vec.constAt (vec.size - 1)) else vec
      (⟨true, some (vec.constAt i)⟩, (moved.setAt (vec.size - 1) false).setSize (vec.size - 1))
  | .destroy => (⟨true, none⟩, { blocks := fun _ ↦ 0#w, size := 0 })

/-- The inner loop of `_count` -/
def countBlock (block : BitVec w) : ℕ :=
  if block = 0#w then 0 else (block.getLsbD 0).toNat + countBlock (block >>> 1)
termination_by block.toNat
decreasing_by
  rename_i hne
  rw [BitVec.toNat_ushiftRight, Nat.shiftRight_eq_div_pow]
  exact Nat.div_lt_self (Nat.pos_of_ne_zero fun h ↦ hne (BitVec.eq_of_toNat_eq h)) (by decide)

/-- `_count` -/
def count : ℕ := (List.range vec.numBlocks).foldl (fun cnt i ↦ cnt + countBlock (vec.blocks i)) 0

/-- `_eq` -/
def eq (left right : StaticBitVector w capacity) : Bool :=
  if left.size ≠ right.size then false
  else (List.range left.numBlocks).all fun i ↦ left.blocks i == right.blocks i

/-- `_all` -/
def all : Bool :=
  if vec.size = 0 then true
  else if (List.range (vec.size / w)).all (fun i ↦ vec.blocks i == BitVec.allOnes w) then
    if vec.size % w = 0 then true
    else vec.blocks (vec.size / w) ^^^ lowMask w (vec.size % w) == 0#w
  else false

/-- `_any` -/
def any : Bool :=
  if vec.size = 0 then false else (List.range vec.numBlocks).any fun i ↦ vec.blocks i != 0#w

/-- The inner loop of `_iter_next_true`, from the index of the lowest bit of the block -/
def scanBlock (block : BitVec w) (i : ℕ) : Option ℕ :=
  if block = 0#w then none
  else if block.getLsbD 0 then some i
  else scanBlock (block >>> 1) (i + 1)
termination_by block.toNat
decreasing_by
  rename_i hne _
  rw [BitVec.toNat_ushiftRight, Nat.shiftRight_eq_div_pow]
  exact Nat.div_lt_self (Nat.pos_of_ne_zero fun h ↦ hne (BitVec.eq_of_toNat_eq h)) (by decide)

/-- The outer loop of `_iter_next_true`, for the given number of blocks -/
def scanBlocks (blockIdx shift i : ℕ) : ℕ → ℕ
  | 0 => vec.size
  | n + 1 =>
    (scanBlock (vec.blocks blockIdx >>> shift) i).getD
      (scanBlocks (blockIdx + 1) 0 ((blockIdx + 1) * w) n)

/-- `_begin_true` -/
def beginTrue : ℕ := vec.scanBlocks 0 0 0 vec.numBlocks

/-- `_iter_next_true` -/
def iterNextTrue (pos : ℕ) : ℕ :=
  vec.scanBlocks ((pos + 1) / w) ((pos + 1) % w) (pos + 1) (vec.numBlocks - (pos + 1) / w)

/-- The indices that the loop over the set bits visits from one of them on, in at most the given
number of rounds -/
def iterTrue : ℕ → ℕ → List ℕ
  | 0, _ => []
  | fuel + 1, i => if i = vec.size then [] else i :: iterTrue fuel (vec.iterNextTrue i)

/-- The bits in order -/
def toList : List Bool := (List.range vec.size).map vec.constAt

/-- The length is at most the capacity, and every bit behind it is zero. -/
structure Canonical : Prop where
  size_le : vec.size ≤ capacity
  unused : ∀ i, vec.size ≤ i → vec.constAt i = false

/-- A run of operations on a new vector -/
def run (w capacity : ℕ) (isSet : Bool) (ops : List Op) : StaticBitVector w capacity :=
  ops.foldl (fun vec op ↦ (vec.step op).2) (new w capacity isSet)

/-- The same operations on a list of booleans -/
def listStep (capacity : ℕ) (l : List Bool) : Op → OpResult × List Bool
  | .set i value =>
    if i < l.length then (⟨true, none⟩, l.set i value) else (⟨false, none⟩, l)
  | .flip i => if i < l.length then (⟨true, none⟩, l.modify i (!·)) else (⟨false, none⟩, l)
  | .setAll value => (⟨true, none⟩, List.replicate l.length value)
  | .flipAll => (⟨true, none⟩, l.map (!·))
  | .pushBack value =>
    if l.length < capacity then (⟨true, none⟩, l ++ [value]) else (⟨false, none⟩, l)
  | .append elems =>
    if l.length + elems.length ≤ capacity then (⟨true, none⟩, l ++ elems) else (⟨false, none⟩, l)
  | .popBack => if 0 < l.length then (⟨true, l.getLast?⟩, l.dropLast) else (⟨false, none⟩, l)
  | .insert i value =>
    if l.length < capacity ∧ i ≤ l.length then (⟨true, none⟩, l.insertIdx i value)
    else (⟨false, none⟩, l)
  | .remove i => if i < l.length then (⟨true, l[i]?⟩, l.eraseIdx i) else (⟨false, none⟩, l)
  | .swapRemove i =>
    if i < l.length then (⟨true, l[i]?⟩, (l.set i (l.getLast?.getD false)).dropLast)
    else (⟨false, none⟩, l)
  | .destroy => (⟨true, none⟩, [])

/-- The same run on a list -/
def listRun (capacity : ℕ) (isSet : Bool) (ops : List Op) : List Bool :=
  ops.foldl (fun l op ↦ (listStep capacity l op).2)
    (List.replicate (if isSet then capacity else 0) false)

/-! ### Bits and blocks -/

section Bits

variable [Fact (0 < w)] {vec} {i j : ℕ}

theorem getLsbD_bitMask : (bitMask w i).getLsbD j = decide (j = i % w) := by
  rw [bitMask, BitVec.getLsbD_shiftLeft, BitVec.getLsbD_one]
  have hw : 0 < w := Fact.out
  by_cases heq : j = i % w
  · simp [heq, hw, Nat.mod_lt i hw]
  · by_cases hlt : j < i % w
    · simp [hlt, heq]
    · have hsub : j - i % w ≠ 0 := by omega
      simp [hsub, heq]

omit [Fact (0 < w)] in
theorem getLsbD_lowMask {rem : ℕ} (hrem : rem < w) :
    (lowMask w rem).getLsbD j = decide (j < rem) := by
  have hpos := Nat.two_pow_pos rem
  have hlt : 2 ^ rem < 2 ^ w := Nat.pow_lt_pow_right (by decide) hrem
  have hone : 1 < 2 ^ w := lt_of_le_of_lt hpos hlt
  have hnat : (lowMask w rem).toNat = 2 ^ rem - 1 := by
    rw [lowMask, BitVec.toNat_sub, BitVec.toNat_shiftLeft, BitVec.toNat_ofNat,
      Nat.mod_eq_of_lt hone, Nat.shiftLeft_eq, Nat.one_mul, Nat.mod_eq_of_lt hlt]
    have hsum : 2 ^ w - 1 + 2 ^ rem = 2 ^ rem - 1 + 2 ^ w := by omega
    rw [hsum, Nat.add_mod_right, Nat.mod_eq_of_lt (by omega)]
  rw [BitVec.getLsbD, hnat, Nat.testBit_two_pow_sub_one]

theorem constAt_eq_getLsbD : vec.constAt i = (vec.blocks (i / w)).getLsbD (i % w) := by
  have hlt : i % w < w := Nat.mod_lt i (Fact.out : 0 < w)
  cases hbit : (vec.blocks (i / w)).getLsbD (i % w) with
  | true =>
    refine bne_iff_ne.mpr fun hzero ↦ ?_
    have hget := congrArg (BitVec.getLsbD · (i % w)) hzero
    simp [getLsbD_bitMask, hbit] at hget
  | false =>
    rw [constAt, bne_eq_false_iff_eq]
    refine BitVec.eq_of_getLsbD_eq fun k hk ↦ ?_
    rw [BitVec.getLsbD_and, getLsbD_bitMask, BitVec.getLsbD_zero]
    by_cases hki : k = i % w
    · rw [hki, hbit, Bool.false_and]
    · rw [decide_eq_false hki, Bool.and_false]

omit [Fact (0 < w)] in
theorem eq_of_div_mod (hdiv : i / w = j / w) (hmod : i % w = j % w) : i = j := by
  rw [← Nat.div_add_mod i w, hdiv, hmod, Nat.div_add_mod]

omit [Fact (0 < w)] in
@[simp] theorem blocks_setBlock_self (k : ℕ) (block : BitVec w) :
    (vec.setBlock k block).blocks k = block := Function.update_self ..

omit [Fact (0 < w)] in
theorem blocks_setBlock_of_ne {k : ℕ} (h : j ≠ k) (block : BitVec w) :
    (vec.setBlock k block).blocks j = vec.blocks j := Function.update_of_ne h ..

/-- One bit of one block is changed. -/
theorem constAt_setBlock (block : BitVec w) (value : Bool)
    (hblock : ∀ k < w, block.getLsbD k =
      if k = i % w then value else (vec.blocks (i / w)).getLsbD k) :
    (vec.setBlock (i / w) block).constAt j = if j = i then value else vec.constAt j := by
  rw [constAt_eq_getLsbD, constAt_eq_getLsbD]
  by_cases hdiv : j / w = i / w
  · rw [hdiv, blocks_setBlock_self, hblock _ (Nat.mod_lt j (Fact.out : 0 < w))]
    refine if_congr ⟨eq_of_div_mod hdiv, fun h ↦ h ▸ rfl⟩ rfl rfl
  · have hji : j ≠ i := fun h ↦ hdiv (congrArg (· / w) h)
    rw [blocks_setBlock_of_ne hdiv, if_neg hji]

theorem constAt_setAt (value : Bool) :
    (vec.setAt i value).constAt j = if j = i then value else vec.constAt j := by
  refine constAt_setBlock _ _ fun k hk ↦ ?_
  cases value with
  | true =>
    rw [if_pos rfl, BitVec.getLsbD_or, getLsbD_bitMask]
    by_cases hki : k = i % w <;> simp [hki]
  | false =>
    rw [if_neg Bool.false_ne_true, BitVec.getLsbD_and, BitVec.getLsbD_not, getLsbD_bitMask]
    by_cases hki : k = i % w <;> simp [hki, hk]

theorem constAt_flipAt :
    (vec.flipAt i).constAt j = if j = i then !vec.constAt i else vec.constAt j := by
  refine constAt_setBlock _ _ fun k hk ↦ ?_
  rw [BitVec.getLsbD_xor, getLsbD_bitMask, constAt_eq_getLsbD]
  by_cases hki : k = i % w
  · simp [hki]
  · simp [hki]

omit [Fact (0 < w)] in
omit [Fact (0 < w)] in
omit [Fact (0 < w)] in
@[simp] theorem size_mapBlocks (f : BitVec w → BitVec w) (n : ℕ) :
    (vec.mapBlocks f n).size = vec.size := by
  induction n with
  | zero => rfl
  | succ n ih => exact ih

omit [Fact (0 < w)] in
theorem blocks_mapBlocks (f : BitVec w → BitVec w) (n k : ℕ) :
    (vec.mapBlocks f n).blocks k = if k < n then f (vec.blocks k) else vec.blocks k := by
  induction n with
  | zero => rfl
  | succ n ih =>
    rw [mapBlocks]
    by_cases hk : k = n
    · subst hk
      have hrest : (vec.mapBlocks f k).blocks k = vec.blocks k := ih.trans (if_neg (lt_irrefl k))
      rw [blocks_setBlock_self, hrest, if_pos (Nat.lt_succ_self k)]
    · rw [blocks_setBlock_of_ne hk, ih]
      exact if_congr (by omega) rfl rfl

theorem lt_size_of_div_lt (h : i / w < vec.size / w) : i < vec.size := by
  have hi := Nat.div_add_mod i w
  have hsize := Nat.div_add_mod vec.size w
  have hmod := Nat.mod_lt i (Fact.out : 0 < w)
  have hmul := Nat.mul_le_mul_left w (Nat.succ_le_of_lt h)
  rw [Nat.mul_succ] at hmul
  omega

omit [Fact (0 < w)] in
theorem lt_size_iff_of_div_eq (h : i / w = vec.size / w) : i < vec.size ↔ i % w < vec.size % w := by
  have hi := Nat.div_add_mod i w
  have hsize := Nat.div_add_mod vec.size w
  rw [h] at hi
  omega

theorem size_le_of_lt_div (h : vec.size / w < i / w) : vec.size ≤ i := by
  have hi := Nat.div_add_mod i w
  have hsize := Nat.div_add_mod vec.size w
  have hmod := Nat.mod_lt vec.size (Fact.out : 0 < w)
  have hmul := Nat.mul_le_mul_left w (Nat.succ_le_of_lt h)
  rw [Nat.mul_succ] at hmul
  omega

theorem numBlocks_eq : vec.numBlocks = vec.size / w + if vec.size % w = 0 then 0 else 1 := by
  have hw : 0 < w := Fact.out
  have hmod := Nat.mod_lt vec.size hw
  have hsize := Nat.div_add_mod vec.size w
  rw [numBlocks]
  split
  · next hzero =>
    have hsum : vec.size + w - 1 = w * (vec.size / w) + (w - 1) := by omega
    rw [hsum, Nat.mul_add_div hw, Nat.div_eq_of_lt (Nat.sub_lt hw Nat.one_pos)]
  · next hpos =>
    have hsum : vec.size + w - 1 = w * (vec.size / w + 1) + (vec.size % w - 1) := by
      rw [Nat.mul_succ]
      omega
    have hless : vec.size % w - 1 < w := by omega
    rw [hsum, Nat.mul_add_div hw, Nat.div_eq_of_lt hless, Nat.add_zero]

theorem size_le_numBlocks : vec.size ≤ vec.numBlocks * w := by
  have hw : 0 < w := Fact.out
  have hmod := Nat.mod_lt vec.size hw
  have hsize := Nat.div_add_mod vec.size w
  rw [numBlocks_eq, Nat.add_mul, Nat.mul_comm]
  split <;> omega

theorem constAt_setAll (h : vec.Canonical) (value : Bool) :
    (vec.setAll value).constAt j = (value && decide (j < vec.size)) := by
  have hw : 0 < w := Fact.out
  have hmod := Nat.mod_lt j hw
  cases value with
  | false =>
    rw [setAll, if_neg Bool.false_ne_true, constAt_eq_getLsbD, blocks_mapBlocks]
    split
    · exact BitVec.getLsbD_zero
    · next hblock =>
      rw [← constAt_eq_getLsbD]
      refine h.unused j ((vec.size_le_numBlocks).trans ?_)
      exact (Nat.le_div_iff_mul_le hw).mp (Nat.le_of_not_lt hblock)
  | true =>
    have hunused := h.unused j
    rw [constAt_eq_getLsbD] at hunused
    rw [setAll, if_pos rfl, Bool.true_and, constAt_eq_getLsbD]
    rcases Nat.lt_trichotomy (j / w) (vec.size / w) with hlt | heq | hgt
    · have hones : ((vec.mapBlocks (fun _ ↦ BitVec.allOnes w) (vec.size / w)).blocks
          (j / w)).getLsbD (j % w) = true := by
        rw [blocks_mapBlocks, if_pos hlt, BitVec.getLsbD_allOnes, decide_eq_true hmod]
      rw [decide_eq_true (lt_size_of_div_lt hlt)]
      split
      · rw [blocks_setBlock_of_ne hlt.ne, hones]
      · exact hones
    · have hiff := lt_size_iff_of_div_eq heq
      rw [heq] at hunused ⊢
      split
      · rw [blocks_setBlock_self, getLsbD_lowMask (Nat.mod_lt _ hw)]
        exact decide_eq_decide.mpr hiff.symm
      · rw [blocks_mapBlocks, if_neg (lt_irrefl _), hunused (by omega), decide_eq_false (by omega)]
    · have hsize := size_le_of_lt_div hgt
      have hzero : ((vec.mapBlocks (fun _ ↦ BitVec.allOnes w) (vec.size / w)).blocks
          (j / w)).getLsbD (j % w) = false := by
        rw [blocks_mapBlocks, if_neg hgt.not_gt, hunused hsize]
      rw [decide_eq_false hsize.not_gt]
      split
      · rw [blocks_setBlock_of_ne hgt.ne', hzero]
      · exact hzero

theorem constAt_flipAll (h : vec.Canonical) :
    vec.flipAll.constAt j = (decide (j < vec.size) && !vec.constAt j) := by
  have hw : 0 < w := Fact.out
  have hmod := Nat.mod_lt j hw
  have hunused := h.unused j
  have hblocks := @numBlocks_eq w capacity vec _
  rw [constAt_eq_getLsbD] at hunused ⊢
  rw [flipAll, constAt_eq_getLsbD]
  rcases Nat.lt_trichotomy (j / w) (vec.size / w) with hlt | heq | hgt
  · have hflipped : ((vec.mapBlocks (~~~·) vec.numBlocks).blocks (j / w)).getLsbD (j % w) =
        !(vec.blocks (j / w)).getLsbD (j % w) := by
      rw [blocks_mapBlocks, if_pos (by omega), BitVec.getLsbD_not, decide_eq_true hmod,
        Bool.true_and]
    rw [decide_eq_true (lt_size_of_div_lt hlt), Bool.true_and]
    split
    · next hrem =>
      rw [if_neg hrem] at hblocks
      rw [blocks_setBlock_of_ne (by omega), hflipped]
    · exact hflipped
  · have hiff := lt_size_iff_of_div_eq heq
    split
    · next hrem =>
      rw [if_neg hrem] at hblocks
      rw [heq, hblocks, Nat.add_sub_cancel, blocks_setBlock_self, blocks_mapBlocks,
        if_pos (Nat.lt_succ_self _), BitVec.getLsbD_and, BitVec.getLsbD_not,
        getLsbD_lowMask (Nat.mod_lt _ hw), decide_eq_true hmod, Bool.true_and, Bool.and_comm]
      exact congrArg (· && _) (decide_eq_decide.mpr hiff.symm)
    · next hrem =>
      rw [not_not] at hrem
      rw [if_pos hrem] at hblocks
      rw [blocks_mapBlocks, if_neg (by omega), hunused (by omega), decide_eq_false (by omega),
        Bool.false_and]
  · have hsize := size_le_of_lt_div hgt
    have hkept : ¬ j / w < vec.numBlocks := by
      rw [hblocks]
      split <;> omega
    have hzero : ((vec.mapBlocks (~~~·) vec.numBlocks).blocks (j / w)).getLsbD (j % w) = false := by
      rw [blocks_mapBlocks, if_neg hkept, hunused hsize]
    rw [decide_eq_false hsize.not_gt, Bool.false_and]
    split
    · next hrem =>
      rw [if_neg hrem] at hblocks
      have hne : j / w ≠ vec.numBlocks - 1 := by
        rw [hblocks, Nat.add_sub_cancel]
        exact hgt.ne'
      rw [blocks_setBlock_of_ne hne, hzero]
    · exact hzero

end Bits

/-! ### The list of the bits -/

/-- The vector has the length of a list and its bits, and zeros behind them. -/
structure Represents (l : List Bool) : Prop where
  size_eq : vec.size = l.length
  length_le : l.length ≤ capacity
  constAt_eq : ∀ i, vec.constAt i = l[i]?.getD false

section Represents

variable {vec} {l : List Bool}

theorem Represents.canonical (h : vec.Represents l) : vec.Canonical where
  size_le := h.size_eq.trans_le h.length_le
  unused i hi := by
    rw [h.constAt_eq, List.getElem?_eq_none (h.size_eq ▸ hi), getD_none]

theorem length_toList : vec.toList.length = vec.size := by
  rw [toList, length_map, length_range]

theorem getElem?_toList (i : ℕ) :
    vec.toList[i]? = if i < vec.size then some (vec.constAt i) else none := by
  split
  · next hi => rw [toList, List.getElem?_map, List.getElem?_range hi, map_some]
  · next hi => exact List.getElem?_eq_none (length_toList.trans_le (Nat.le_of_not_lt hi))

theorem Canonical.represents (h : vec.Canonical) : vec.Represents vec.toList where
  size_eq := length_toList.symm
  length_le := length_toList.trans_le h.size_le
  constAt_eq i := by
    rw [getElem?_toList]
    split
    · rfl
    · next hi => exact h.unused i (Nat.le_of_not_lt hi)

theorem Represents.toList_eq (h : vec.Represents l) : vec.toList = l := by
  refine ext_getElem? fun i ↦ ?_
  rw [getElem?_toList, h.constAt_eq, h.size_eq]
  split
  · next hi => rw [List.getElem?_eq_getElem hi, getD_some]
  · next hi => rw [List.getElem?_eq_none (Nat.le_of_not_lt hi)]

theorem represents_new (isSet : Bool) :
    (new w capacity isSet).Represents (List.replicate (if isSet then capacity else 0) false) where
  size_eq := length_replicate.symm
  length_le := by
    rw [length_replicate]
    split
    · exact le_rfl
    · exact Nat.zero_le _
  constAt_eq i := by
    have hzero : (new w capacity isSet).constAt i = false := by simp [constAt, new]
    have hfalse (n : ℕ) : (List.replicate n false)[i]?.getD false = false := by
      rw [List.getElem?_replicate]
      split <;> rfl
    rw [hzero, hfalse]

variable [Fact (0 < w)]

theorem Represents.setAt (h : vec.Represents l) {i : ℕ} (hi : i < l.length) (value : Bool) :
    (vec.setAt i value).Represents (l.set i value) where
  size_eq := h.size_eq.trans length_set.symm
  length_le := length_set.trans_le h.length_le
  constAt_eq j := by
    rw [constAt_setAt, h.constAt_eq, List.getElem?_set]
    by_cases hji : j = i
    · rw [if_pos hji, if_pos hji.symm, if_pos hi, getD_some]
    · rw [if_neg hji, if_neg (Ne.symm hji)]

theorem Represents.flipAt (h : vec.Represents l) {i : ℕ} (hi : i < l.length) :
    (vec.flipAt i).Represents (l.modify i (!·)) where
  size_eq := by
    rw [length_modify]
    exact h.size_eq
  length_le := by
    rw [length_modify]
    exact h.length_le
  constAt_eq j := by
    rw [constAt_flipAt, h.constAt_eq, h.constAt_eq, List.getElem?_modify]
    by_cases hji : j = i
    · subst hji
      rw [if_pos rfl, List.getElem?_eq_getElem hi]
      simp
    · simp [hji, Ne.symm hji]

omit [Fact (0 < w)] in
theorem size_setAll (value : Bool) : (vec.setAll value).size = vec.size := by
  rw [setAll]
  split
  · dsimp only
    split
    · exact size_mapBlocks _ _
    · exact size_mapBlocks _ _
  · exact size_mapBlocks _ _

omit [Fact (0 < w)] in
theorem size_flipAll : vec.flipAll.size = vec.size := by
  rw [flipAll]
  split
  · exact size_mapBlocks _ _
  · exact size_mapBlocks _ _

theorem Represents.setAll (h : vec.Represents l) (value : Bool) :
    (vec.setAll value).Represents (List.replicate l.length value) where
  size_eq := by rw [size_setAll, h.size_eq, length_replicate]
  length_le := length_replicate.trans_le h.length_le
  constAt_eq j := by
    rw [constAt_setAll h.canonical, h.size_eq, List.getElem?_replicate]
    by_cases hj : j < l.length <;> simp [hj]

theorem Represents.flipAll (h : vec.Represents l) : vec.flipAll.Represents (l.map (!·)) where
  size_eq := by rw [size_flipAll, h.size_eq, length_map]
  length_le := (length_map _).trans_le h.length_le
  constAt_eq j := by
    rw [constAt_flipAll h.canonical, h.size_eq, h.constAt_eq, List.getElem?_map]
    by_cases hj : j < l.length
    · simp [hj]
    · simp [hj]

theorem constAt_setFrom (i j : ℕ) (elems : List Bool) : (vec.setFrom i elems).constAt j =
      if i ≤ j then elems[j - i]?.getD (vec.constAt j) else vec.constAt j := by
  induction elems generalizing vec i with
  | nil => simp [setFrom]
  | cons b elems ih =>
    rw [setFrom, ih, constAt_setAt]
    rcases Nat.lt_trichotomy i j with hlt | rfl | hgt
    · have hnext : j - i = j - (i + 1) + 1 := by omega
      rw [if_pos (Nat.succ_le_of_lt hlt), if_pos hlt.le, if_neg hlt.ne', hnext,
        List.getElem?_cons_succ]
    · rw [if_neg (Nat.not_succ_le_self i), if_pos rfl, if_pos le_rfl, Nat.sub_self]
      rfl
    · rw [if_neg (by omega), if_neg hgt.ne, if_neg (by omega)]

theorem constAt_shiftBack (index n j : ℕ) : (vec.shiftBack index n).constAt j =
      if index < j ∧ j ≤ n then vec.constAt (j - 1) else vec.constAt j := by
  induction n generalizing vec with
  | zero => rw [shiftBack, if_neg (by omega)]
  | succ n ih =>
    rw [shiftBack]
    split
    · next hindex =>
      rw [ih]
      by_cases hin : index < j ∧ j ≤ n
      · have hne : j - 1 ≠ n + 1 := by omega
        rw [if_pos hin, constAt_setAt, if_neg hne, if_pos ⟨hin.1, hin.2.trans (Nat.le_succ n)⟩]
      · rw [if_neg hin, constAt_setAt]
        by_cases hj : j = n + 1
        · rw [if_pos hj, if_pos ⟨by omega, hj.le⟩, hj, Nat.add_sub_cancel]
        · have hout : ¬ (index < j ∧ j ≤ n + 1) := by omega
          rw [if_neg hj, if_neg hout]
    · rw [if_neg (by omega)]

theorem constAt_shiftFront (i n j : ℕ) : (vec.shiftFront i n).constAt j =
      if i ≤ j ∧ j < i + n then vec.constAt (j + 1) else vec.constAt j := by
  induction n generalizing vec i with
  | zero => rw [shiftFront, if_neg (by omega)]
  | succ n ih =>
    rw [shiftFront, ih]
    by_cases hin : i + 1 ≤ j ∧ j < i + 1 + n
    · have hne : j + 1 ≠ i := by omega
      have hin' : i ≤ j ∧ j < i + (n + 1) := by omega
      rw [if_pos hin, constAt_setAt, if_neg hne, if_pos hin']
    · rw [if_neg hin, constAt_setAt]
      by_cases hj : j = i
      · have hin' : i ≤ j ∧ j < i + (n + 1) := by omega
        rw [if_pos hj, if_pos hin', hj]
      · have hout : ¬ (i ≤ j ∧ j < i + (n + 1)) := by omega
        rw [if_neg hj, if_neg hout]

theorem Represents.pushBack (h : vec.Represents l) (hfree : l.length < capacity) (value : Bool) :
    ((vec.setAt vec.size value).setSize (vec.size + 1)).Represents (l ++ [value]) where
  size_eq := by
    rw [length_append, ← h.size_eq]
    rfl
  length_le := by
    rw [length_append]
    exact hfree
  constAt_eq j := by
    change (vec.setAt vec.size value).constAt j = _
    rw [constAt_setAt, h.constAt_eq, h.size_eq]
    rcases Nat.lt_trichotomy j l.length with hlt | rfl | hgt
    · rw [if_neg hlt.ne, List.getElem?_append_left hlt]
    · simp
    · rw [if_neg hgt.ne', List.getElem?_eq_none hgt.le,
        List.getElem?_eq_none (by rw [length_append]; exact hgt)]

theorem Represents.append (h : vec.Represents l) (elems : List Bool)
    (hfree : l.length + elems.length ≤ capacity) :
    ((vec.setFrom vec.size elems).setSize (vec.size + elems.length)).Represents (l ++ elems) where
  size_eq := by
    rw [length_append, ← h.size_eq]
    rfl
  length_le := by
    rw [length_append]
    exact hfree
  constAt_eq j := by
    change (vec.setFrom vec.size elems).constAt j = _
    rw [constAt_setFrom, h.constAt_eq, h.size_eq, List.getElem?_append]
    by_cases hj : j < l.length
    · rw [if_neg (by omega), if_pos hj]
    · rw [if_pos (by omega), if_neg hj, List.getElem?_eq_none (Nat.le_of_not_lt hj), getD_none]

/-- The last bit is cleared and cut off. -/
theorem Represents.dropLast (h : vec.Represents l) :
    ((vec.setAt (vec.size - 1) false).setSize (vec.size - 1)).Represents l.dropLast where
  size_eq := by
    rw [length_dropLast, ← h.size_eq]
    rfl
  length_le := by
    rw [length_dropLast]
    exact (Nat.sub_le _ _).trans h.length_le
  constAt_eq j := by
    change (vec.setAt (vec.size - 1) false).constAt j = _
    rw [constAt_setAt, h.constAt_eq, h.size_eq, List.getElem?_dropLast]
    by_cases hj : j < l.length - 1
    · rw [if_neg hj.ne, if_pos hj]
    · rw [if_neg hj]
      split
      · rfl
      · rw [List.getElem?_eq_none (by omega)]

theorem Represents.insert (h : vec.Represents l) (hfree : l.length < capacity) {i : ℕ}
    (hi : i ≤ l.length) (value : Bool) :
    (((vec.shiftBack i vec.size).setAt i value).setSize (vec.size + 1)).Represents
      (l.insertIdx i value) where
  size_eq := by
    rw [length_insertIdx_of_le_length hi, ← h.size_eq]
    rfl
  length_le := by
    rw [length_insertIdx_of_le_length hi]
    exact hfree
  constAt_eq j := by
    change ((vec.shiftBack i vec.size).setAt i value).constAt j = _
    rw [constAt_setAt, constAt_shiftBack, h.constAt_eq, h.constAt_eq, h.size_eq]
    rcases Nat.lt_trichotomy j i with hlt | rfl | hgt
    · rw [if_neg hlt.ne, if_neg (by omega), List.getElem?_insertIdx_of_lt hlt]
    · rw [if_pos rfl, List.getElem?_insertIdx_self, if_pos hi, getD_some]
    · rw [if_neg hgt.ne', List.getElem?_insertIdx_of_gt hgt]
      split
      · rfl
      · rw [List.getElem?_eq_none (by omega), List.getElem?_eq_none (by omega)]

theorem Represents.remove (h : vec.Represents l) {i : ℕ} (hi : i < l.length) :
    (((vec.shiftFront i (vec.size - 1 - i)).setAt (vec.size - 1) false).setSize
      (vec.size - 1)).Represents (l.eraseIdx i) where
  size_eq := by
    rw [length_eraseIdx_of_lt hi, ← h.size_eq]
    rfl
  length_le := by
    rw [length_eraseIdx_of_lt hi]
    exact (Nat.sub_le _ _).trans h.length_le
  constAt_eq j := by
    change ((vec.shiftFront i (vec.size - 1 - i)).setAt (vec.size - 1) false).constAt j = _
    rw [constAt_setAt, constAt_shiftFront, h.constAt_eq, h.constAt_eq, h.size_eq,
      List.getElem?_eraseIdx]
    by_cases hj : j < i
    · rw [if_neg (by omega), if_neg (by omega), if_pos hj]
    · rw [if_neg hj]
      by_cases hlast : j < l.length - 1
      · rw [if_neg hlast.ne, if_pos (by omega)]
      · rw [List.getElem?_eq_none (by omega : l.length ≤ j + 1)]
        split
        · rfl
        · rw [if_neg (by omega), List.getElem?_eq_none (by omega)]

omit [Fact (0 < w)] in
theorem Represents.getLast? (h : vec.Represents l) (hpos : 0 < l.length) :
    l.getLast? = some (vec.constAt (vec.size - 1)) := by
  rw [List.getLast?_eq_getElem?, h.constAt_eq, h.size_eq,
    List.getElem?_eq_getElem (Nat.sub_lt hpos Nat.one_pos), getD_some]

omit [Fact (0 < w)] in
theorem Represents.getElem? (h : vec.Represents l) {i : ℕ} (hi : i < l.length) :
    l[i]? = some (vec.constAt i) := by
  rw [h.constAt_eq, List.getElem?_eq_getElem hi, getD_some]

theorem Represents.swapRemove (h : vec.Represents l) {i : ℕ} (hi : i < l.length) :
    (((if i ≠ vec.size - 1 then vec.setAt i (vec.constAt (vec.size - 1)) else vec).setAt
      (vec.size - 1) false).setSize (vec.size - 1)).Represents
        (l.set i (l.getLast?.getD false)).dropLast := by
  have hpos := Nat.zero_lt_of_lt hi
  rw [h.getLast? hpos, getD_some]
  split
  · exact (h.setAt hi (vec.constAt (vec.size - 1))).dropLast
  · next hlast =>
    rw [not_not] at hlast
    have hsame : (l.set i (vec.constAt (vec.size - 1))).dropLast = l.dropLast := by
      refine ext_getElem? fun j ↦ ?_
      rw [List.getElem?_dropLast, List.getElem?_dropLast, length_set, List.getElem?_set]
      split
      · rw [if_neg (by rw [hlast, h.size_eq]; omega)]
      · rfl
    rw [hsame]
    exact h.dropLast

/-- Every operation does on the vector what it does on the list, and returns the same. -/
theorem Represents.step (h : vec.Represents l) (op : Op) :
    (vec.step op).2.Represents (listStep capacity l op).2 ∧
      (vec.step op).1 = (listStep capacity l op).1 := by
  have hsize := h.size_eq
  have hle := h.length_le
  cases op with
  | set i value =>
    rw [StaticBitVector.step, listStep]
    by_cases hi : i < l.length
    · rw [if_neg (by omega), if_pos hi]
      exact ⟨h.setAt hi value, rfl⟩
    · rw [if_pos (by omega), if_neg hi]
      exact ⟨h, rfl⟩
  | flip i =>
    rw [StaticBitVector.step, listStep]
    by_cases hi : i < l.length
    · rw [if_neg (by omega), if_pos hi]
      exact ⟨h.flipAt hi, rfl⟩
    · rw [if_pos (by omega), if_neg hi]
      exact ⟨h, rfl⟩
  | setAll value => exact ⟨h.setAll value, rfl⟩
  | flipAll => exact ⟨h.flipAll, rfl⟩
  | pushBack value =>
    rw [StaticBitVector.step, listStep]
    by_cases hfree : l.length < capacity
    · rw [if_neg (by omega), if_pos hfree]
      exact ⟨h.pushBack hfree value, rfl⟩
    · rw [if_pos (by omega), if_neg hfree]
      exact ⟨h, rfl⟩
  | append elems =>
    rw [StaticBitVector.step, listStep]
    by_cases hnil : elems.length = 0
    · rw [if_pos hnil, if_pos (by omega), length_eq_zero_iff.mp hnil, append_nil]
      exact ⟨h, rfl⟩
    · rw [if_neg hnil]
      by_cases hfree : l.length + elems.length ≤ capacity
      · rw [if_neg (by omega), if_pos hfree]
        exact ⟨h.append elems hfree, rfl⟩
      · rw [if_pos (by omega), if_neg hfree]
        exact ⟨h, rfl⟩
  | popBack =>
    rw [StaticBitVector.step, listStep]
    by_cases hpos : 0 < l.length
    · rw [if_neg (by omega), if_pos hpos, h.getLast? hpos]
      exact ⟨h.dropLast, rfl⟩
    · rw [if_pos (by omega), if_neg hpos]
      exact ⟨h, rfl⟩
  | insert i value =>
    rw [StaticBitVector.step, listStep]
    by_cases hfree : l.length < capacity ∧ i ≤ l.length
    · rw [if_neg (by omega), if_pos hfree]
      exact ⟨h.insert hfree.1 hfree.2 value, rfl⟩
    · rw [if_pos (by omega), if_neg hfree]
      exact ⟨h, rfl⟩
  | remove i =>
    rw [StaticBitVector.step, listStep]
    by_cases hi : i < l.length
    · rw [if_neg (by omega), if_pos hi, h.getElem? hi]
      exact ⟨h.remove hi, rfl⟩
    · rw [if_pos (by omega), if_neg hi]
      exact ⟨h, rfl⟩
  | swapRemove i =>
    rw [StaticBitVector.step, listStep]
    by_cases hi : i < l.length
    · rw [if_neg (by omega), if_pos hi, h.getElem? hi]
      exact ⟨h.swapRemove hi, rfl⟩
    · rw [if_pos (by omega), if_neg hi]
      exact ⟨h, rfl⟩
  | destroy =>
    refine ⟨⟨rfl, Nat.zero_le _, fun i ↦ ?_⟩, rfl⟩
    simp [StaticBitVector.step, listStep, constAt]

theorem represents_run (isSet : Bool) (ops : List Op) :
    (run w capacity isSet ops).Represents (listRun capacity isSet ops) := by
  have hfrom : ∀ (vec : StaticBitVector w capacity) l, vec.Represents l →
      (ops.foldl (fun vec op ↦ (vec.step op).2) vec).Represents
        (ops.foldl (fun l op ↦ (listStep capacity l op).2) l) := by
    induction ops with
    | nil => exact fun _ _ h ↦ h
    | cons op ops ih => exact fun _ _ h ↦ ih _ _ (h.step op).1
  exact hfrom _ _ (represents_new isSet)

end Represents

end StaticBitVector

end ZenohPico.Collections
