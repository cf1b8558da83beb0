import Mathlib.Data.Nat.Prime.Basic
import ZenohPico.Foundations.TouchedBlock

/-!
The two vectors of `src/collections/vec.c`: `_z_vec_t` of pointers to elements and `_z_svec_t`,
which keeps its elements themselves.

The memory of a vector goes on behind its capacity here, and an operation says which places of it
were read or written. Appending and setting keep the other elements of a vector. A removal does not:
that of `_z_vec_t` copies one element only and writes behind the last one, and that of `_z_svec_t`
gives a count of bytes to a move that counts elements.
-/

open List

namespace ZenohPico.Collections

open Foundations

/-! ### The vector of pointers -/

/-- `_z_vec_t`, with the memory at `_val`. The place of a `NULL` is `none`. -/
structure Vec (α : Type) where
  capacity : ℕ
  len : ℕ
  val : ℕ → Option α
  fits : len ≤ capacity

/-- What is done with a vector of this length -/
inductive VecOp (α : Type) (len : ℕ)
  /-- The block is what an allocation gives, if it gives one. -/
  | append (e : Option α) (block : Option (ℕ → Option α))
  | set (i : Fin len) (e : Option α)
  | remove (pos : Fin len)

namespace Vec

variable {α : Type}

def elements (v : Vec α) : List (Option α) := (List.range v.len).map v.val

theorem succ_le_grown (n : ℕ) : n + 1 ≤ n <<< 1 ||| 1 := by
  have hleft : n <<< 1 ≤ n <<< 1 ||| 1 := Nat.left_le_or
  have hright : 1 ≤ n <<< 1 ||| 1 := Nat.right_le_or
  rw [Nat.shiftLeft_eq] at hleft hright ⊢
  omega

/-- `_z_vec_append`, with the places that it touches in the old and in the new memory -/
def append (v : Vec α) (e : Option α) (block : Option (ℕ → Option α)) : Vec α × List ℕ :=
  if hfull : v.len = v.capacity then
    match block with
    | none => (v, [])
    | some block =>
      let copied : Block (Option α) :=
        ⟨fun i ↦ if i < v.capacity then v.val i else block i, List.range v.capacity⟩
      let written := copied.set v.len e
      (⟨v.capacity <<< 1 ||| 1, v.len + 1, written.val, hfull ▸ succ_le_grown v.len⟩,
        written.touched)
  else
    let written := (Block.untouched v.val).set v.len e
    (⟨v.capacity, v.len + 1, written.val, Nat.lt_of_le_of_ne v.fits hfull⟩, written.touched)

/-- `_z_vec_set` -/
def set (freeF : Option α → Option α) (v : Vec α) (i : ℕ) (e : Option α) : Vec α × List ℕ :=
  let freed :=
    if (v.val i).isSome then (Block.untouched v.val).modify i freeF else ⟨v.val, [i]⟩
  let written := freed.set i e
  ({ v with val := written.val }, written.touched)

/-- `_z_vec_remove`. Every pass of the loop copies to `pos`. -/
def remove (freeF : Option α → Option α) (v : Vec α) (pos : ℕ) : Vec α × List ℕ :=
  let freed := (Block.untouched v.val).modify pos freeF
  let shifted := (List.range' pos (v.len - pos)).foldl (fun b _ ↦ b.copy pos (pos + 1)) freed
  let cleared := shifted.set v.len none
  (⟨v.capacity, v.len - 1, cleared.val, (Nat.sub_le _ _).trans v.fits⟩, cleared.touched)

def step (freeF : Option α → Option α) (v : Vec α) : VecOp α v.len → Vec α × List ℕ
  | .append e block => v.append e block
  | .set i e => v.set freeF i e
  | .remove pos => v.remove freeF pos

/-- The elements that an operation is to leave. An element for which there is no memory is not
appended. -/
def left (v : Vec α) : VecOp α v.len → List (Option α)
  | .append e block =>
    if v.len = v.capacity ∧ block.isNone then v.elements else v.elements ++ [e]
  | .set i e => v.elements.set i e
  | .remove pos => v.elements.eraseIdx pos

/-- The places that an operation may touch: those of the elements, and the place of a new one -/
def extent (v : Vec α) : VecOp α v.len → ℕ
  | .append _ _ => v.len + 1
  | .set _ _ | .remove _ => v.len

/-- An operation leaves the other elements in their order, and keeps to their places. -/
structure KeepsOthers (freeF : Option α → Option α) (v : Vec α) (op : VecOp α v.len) : Prop where
  elements : (v.step freeF op).1.elements = v.left op
  inside : ∀ i ∈ (v.step freeF op).2, i < v.extent op

variable {freeF : Option α → Option α} {v : Vec α}

theorem append_keeps (e : Option α) (block : Option (ℕ → Option α)) :
    v.KeepsOthers freeF (.append e block) := by
  by_cases hfull : v.len = v.capacity
  · cases block with
    | none =>
      have hsame : v.append e none = (v, []) := by rw [append, dif_pos hfull]
      refine ⟨?_, ?_⟩
      · rw [step, hsame, left, if_pos ⟨hfull, rfl⟩]
      · rw [step, hsame]
        exact fun i hi ↦ absurd hi not_mem_nil
    | some block =>
      refine ⟨?_, ?_⟩
      · rw [left, if_neg (fun hand ↦ Bool.false_ne_true hand.2), step, append, dif_pos hfull]
        exact map_range_concat (fun i hi ↦ (Function.update_of_ne (Nat.ne_of_lt hi) _ _).trans
          (if_pos (hfull ▸ hi))) (Function.update_self ..)
      · rw [step, append, dif_pos hfull]
        intro i hi
        rcases mem_cons.mp hi with rfl | hi
        · exact Nat.lt_succ_self _
        · exact Nat.lt_succ_of_lt (hfull ▸ mem_range.mp hi)
  · refine ⟨?_, ?_⟩
    · rw [left, if_neg (fun hand ↦ hfull hand.1), step, append, dif_neg hfull]
      exact map_range_concat (fun i hi ↦ Function.update_of_ne (Nat.ne_of_lt hi) _ _)
        (Function.update_self ..)
    · rw [step, append, dif_neg hfull]
      intro i hi
      obtain rfl := mem_singleton.mp hi
      exact Nat.lt_succ_self _

theorem set_keeps (i : Fin v.len) (e : Option α) : v.KeepsOthers freeF (.set i e) := by
  refine ⟨?_, ?_⟩
  · refine map_range_set (fun j hj ↦ (Function.update_of_ne hj _ _).trans ?_)
      (Function.update_self ..)
    split_ifs
    · exact Function.update_of_ne hj _ _
    · rfl
  · intro j hj
    have hj : j = i := by
      rw [step, set] at hj
      split_ifs at hj <;> simpa [Block.set, Block.modify, Block.untouched] using hj
    rw [hj]
    exact i.isLt

/-- A removal writes behind the last element. -/
theorem not_remove_keeps (pos : Fin v.len) : ¬ v.KeepsOthers freeF (.remove pos) := fun h ↦
  absurd (h.inside v.len mem_cons_self) (Nat.lt_irrefl _)

end Vec

/-! ### The vector of elements -/

/-- `_z_svec_t` of elements of `size` bytes, with the memory at `_val`. No object is larger than the
difference of two pointers can be. -/
structure SVec (size : ℕ) where
  capacity : ℕ
  len : ℕ
  val : ℕ → UInt8
  fits : len ≤ capacity
  allocated : capacity * size < 2 ^ 63

/-- The functions on elements that a vector is used with, and whether elements are moved by them -/
structure ElementFns (size : ℕ) where
  clear : Cell UInt8 size → Cell UInt8 size
  move : Cell UInt8 size → Cell UInt8 size → Cell UInt8 size × Cell UInt8 size
  useElemF : Bool
  size_pos : 0 < size
  moved : useElemF = true → ∀ dst src, (move dst src).1 = src

inductive SVecOp (size len : ℕ)
  | append (e : Cell UInt8 size) (block : Option (ℕ → UInt8))
  | set (i : Fin len) (e : Cell UInt8 size)
  | remove (pos : Fin len)

namespace SVec

variable {size : ℕ}

def elements (v : SVec size) : List (Cell UInt8 size) := cells size v.val v.len

/-- `__z_svec_move_inner`. The count of `memmove` is a `size_t`. -/
def moveInner (fns : ElementFns size) (b : Block UInt8) (dst src num : ℕ) : Block UInt8 :=
  if fns.useElemF then b.moveCells dst src num fns.move
  else b.moveRange dst src (num * size % 2 ^ 64)

/-- The elements as `__z_svec_move_inner` moves them into another block -/
def moveInto (fns : ElementFns size) (src : ℕ → UInt8) (len : ℕ) (block : ℕ → UInt8) : ℕ → UInt8 :=
  if fns.useElemF then
    (List.range len).foldl (fun block i ↦ writeCell block (i * size)
      (fns.move (readCell size block (i * size)) (readCell size src (i * size))).1) block
  else fun i ↦ if i < len * size then src i else block i

/-- The capacity to which a vector grows -/
def grown (capacity : ℕ) : ℕ := if capacity = 0 then 1 else capacity <<< 1

theorem lt_grown (capacity : ℕ) : capacity < grown capacity := by
  unfold grown
  split_ifs with hzero
  · omega
  · rw [Nat.shiftLeft_eq]
    omega

/-- `_z_svec_expand`, with what an allocation gives -/
def expand (fns : ElementFns size) (v : SVec size) (block : Option (ℕ → UInt8)) :
    Option (SVec size × List ℕ) :=
  if h : grown v.capacity * size < 2 ^ 63 then
    block.map fun block ↦
      (⟨grown v.capacity, v.len, moveInto fns v.val v.len block,
        v.fits.trans (Nat.le_of_lt (lt_grown _)), h⟩, List.range (v.len * size))
  else none

variable {block : Option (ℕ → UInt8)} {touched : List ℕ}

theorem expand_eq_some {fns : ElementFns size} {v v' : SVec size}
    (h : v.expand fns block = some (v', touched)) :
    v'.len = v.len ∧ v'.capacity = grown v.capacity ∧ touched = List.range (v.len * size) ∧
      ∃ b, block = some b ∧ v'.val = moveInto fns v.val v.len b := by
  unfold expand at h
  split_ifs at h
  obtain ⟨b, rfl, heq⟩ := Option.map_eq_some_iff.mp h
  cases heq
  exact ⟨rfl, rfl, rfl, b, rfl, rfl⟩

theorem lt_of_expand {fns : ElementFns size} {v v' : SVec size}
    (h : v.expand fns block = some (v', touched)) : v'.len < v'.capacity := by
  obtain ⟨hlen, hcapacity, -⟩ := expand_eq_some h
  rw [hlen, hcapacity]
  exact Nat.lt_of_le_of_lt v.fits (lt_grown _)

/-- The new element behind the others -/
def write (v : SVec size) (h : v.len < v.capacity) (e : Cell UInt8 size) : SVec size :=
  ⟨v.capacity, v.len + 1, writeCell v.val (v.len * size) e, h, v.allocated⟩

/-- `_z_svec_append`, which gives an error where it finds no memory to grow -/
def append (fns : ElementFns size) (v : SVec size) (e : Cell UInt8 size)
    (block : Option (ℕ → UInt8)) : Option (SVec size × List ℕ) :=
  if hfull : v.len = v.capacity then
    match hexpand : v.expand fns block with
    | none => none
    | some (v', touched) =>
      some (v'.write (lt_of_expand hexpand) e, List.range' (v'.len * size) size ++ touched)
  else
    some (v.write (Nat.lt_of_le_of_ne v.fits hfull) e, List.range' (v.len * size) size)

/-- `_z_svec_set` -/
def set (fns : ElementFns size) (v : SVec size) (i : ℕ) (e : Cell UInt8 size) :
    SVec size × List ℕ :=
  let cleared := (Block.untouched v.val).modifyCell (i * size) fns.clear
  let written := cleared.modifyCell (i * size) fun _ ↦ e
  ({ v with val := written.val }, written.touched)

/-- `_z_svec_remove`. The count of the elements to move is one of bytes. -/
def remove (fns : ElementFns size) (v : SVec size) (pos : ℕ) : SVec size × List ℕ :=
  let cleared := (Block.untouched v.val).modifyCell (pos * size) fns.clear
  let moved := moveInner fns cleared (pos * size) ((pos + 1) * size) ((v.len - pos - 1) * size)
  (⟨v.capacity, v.len - 1, moved.val, (Nat.sub_le _ _).trans v.fits, v.allocated⟩, moved.touched)

/-- An operation. Where it gives an error the vector stays as it is. -/
def step (fns : ElementFns size) (v : SVec size) : SVecOp size v.len → SVec size × List ℕ
  | .append e block => (v.append fns e block).getD (v, [])
  | .set i e => v.set fns i e
  | .remove pos => v.remove fns pos

/-- The elements that an operation is to leave -/
def left (fns : ElementFns size) (v : SVec size) : SVecOp size v.len → List (Cell UInt8 size)
  | .append e block =>
    if (v.append fns e block).isSome then v.elements ++ [e] else v.elements
  | .set i e => v.elements.set i e
  | .remove pos => v.elements.eraseIdx pos

/-- The number of the places that an operation may touch -/
def extent (v : SVec size) : SVecOp size v.len → ℕ
  | .append _ _ => (v.len + 1) * size
  | .set _ _ | .remove _ => v.len * size

/-- An operation leaves the other elements in their order, and keeps to their places. -/
structure KeepsOthers (fns : ElementFns size) (v : SVec size) (op : SVecOp size v.len) : Prop where
  elements : (v.step fns op).1.elements = v.left fns op
  inside : ∀ i ∈ (v.step fns op).2, i < v.extent op

/-- The memory once the element at a position is cleared -/
def clearedAt (v : SVec size) (fns : ElementFns size) (pos : ℕ) : ℕ → UInt8 :=
  writeCell v.val (pos * size) (fns.clear (readCell size v.val (pos * size)))

/-- The bytes that `memmove` is told to move in a removal -/
def movedBytes (v : SVec size) (pos : ℕ) : ℕ := (v.len - pos - 1) * size * size % 2 ^ 64

/-- The count that a removal gives is the right one: no element is behind the position, or an
element is one byte. A count that wraps around to a smaller one makes no difference where the bytes
that are not moved are what they would become. -/
def CountFits (fns : ElementFns size) (v : SVec size) (pos : ℕ) : Prop :=
  pos + 1 = v.len ∨ size = 1 ∨ fns.useElemF = false ∧ v.movedBytes pos < (v.len - pos - 1) * size ∧
      ∀ k, v.movedBytes pos ≤ k → k < (v.len - pos - 1) * size →
        v.clearedAt fns pos (pos * size + k) = v.val ((pos + 1) * size + k)

variable {fns : ElementFns size} {v : SVec size}

/-- The elements are moved into the new memory. -/
theorem moveInto_eq (src block : ℕ → UInt8) {len i : ℕ} (hi : i < len * size) :
    moveInto fns src len block i = src i := by
  unfold moveInto
  split_ifs with huse
  · induction len with
    | zero => exact absurd hi (by omega)
    | succ len ih =>
      rw [range_succ, foldl_append, foldl_cons, foldl_nil, fns.moved huse]
      rw [Nat.succ_mul] at hi
      by_cases hlast : len * size ≤ i
      · obtain ⟨k, rfl⟩ := Nat.exists_eq_add_of_le hlast
        rw [writeCell_add (by omega), readCell]
      · rw [writeCell_of_lt (by omega), ih (by omega)]
  · exact if_pos hi

/-- The new element comes behind the others. -/
theorem elements_write {w : SVec size} (hroom : w.len < w.capacity) (e : Cell UInt8 size)
    (hlen : w.len = v.len) (hval : ∀ i < v.len * size, w.val i = v.val i) :
    (w.write hroom e).elements = v.elements ++ [e] := by
  rw [elements, write]
  dsimp only
  rw [cells_succ, readCell_writeCell, hlen, elements]
  congr 1
  exact cells_congr fun i hi ↦ (writeCell_of_lt hi).trans (hval i hi)

/-- An element is appended, in the old memory or in the new one, or there is an error. -/
theorem append_cases (fns : ElementFns size) (e : Cell UInt8 size)
    (block : Option (ℕ → UInt8)) : v.append fns e block = none ∨
      ∃ (w : SVec size) (touched : List ℕ) (hroom : w.len < w.capacity), v.append fns e block =
          some (w.write hroom e, List.range' (v.len * size) size ++ touched) ∧
        w.len = v.len ∧ (∀ i < v.len * size, w.val i = v.val i) ∧
        ∀ i ∈ touched, i < v.len * size := by
  unfold append
  split_ifs with hfull
  · split
    · exact .inl rfl
    · next w touched hexpand =>
      obtain ⟨hlen, -, rfl, block, -, hval⟩ := expand_eq_some hexpand
      refine .inr ⟨w, List.range (v.len * size), lt_of_expand hexpand, ?_, hlen, fun i hi ↦ ?_,
        fun i hi ↦ ?_⟩
      · exact congrArg (fun len ↦ some (w.write (lt_of_expand hexpand) e,
          List.range' (len * size) size ++ List.range (v.len * size))) hlen
      · rw [hval, moveInto_eq _ _ hi]
      · exact mem_range.mp hi
  · refine .inr ⟨v, [], Nat.lt_of_le_of_ne v.fits hfull, ?_, rfl, fun _ _ ↦ rfl, fun i hi ↦ ?_⟩
    · rw [append_nil]
    · exact absurd hi not_mem_nil

theorem append_keeps (e : Cell UInt8 size) (block : Option (ℕ → UInt8)) :
    v.KeepsOthers fns (.append e block) := by
  rcases v.append_cases fns e block with
    herror | ⟨w, touched, hroom, happend, hlen, hval, hin⟩
  · refine ⟨?_, ?_⟩
    · rw [step, left, herror]
      rfl
    · rw [step, herror]
      exact fun i hi ↦ absurd hi not_mem_nil
  · refine ⟨?_, ?_⟩
    · rw [step, left, happend, if_pos (Option.isSome_some), Option.getD_some]
      exact elements_write hroom e hlen hval
    · rw [step, happend, Option.getD_some, extent, Nat.succ_mul]
      intro i hi
      rcases mem_append.mp hi with hi | hi
      · exact (mem_range'_1.mp hi).2
      · exact Nat.lt_add_right _ (hin i hi)

theorem set_keeps (i : Fin v.len) (e : Cell UInt8 size) : v.KeepsOthers fns (.set i e) := by
  refine ⟨?_, ?_⟩
  · refine map_range_set (fun j hj ↦ ?_) readCell_writeCell
    exact (readCell_writeCell_of_ne hj).trans (readCell_writeCell_of_ne hj)
  · intro j hj
    have hplace : i * size ≤ j ∧ j < i * size + size := by
      rw [step, set, Block.modifyCell, Block.modifyCell, Block.untouched] at hj
      simpa only [mem_append, mem_range'_1, not_mem_nil, or_false, or_self] using hj
    calc j < i * size + size := hplace.2
      _ = (i + 1) * size := (Nat.succ_mul _ _).symm
      _ ≤ v.len * size := Nat.mul_le_mul_right _ i.isLt

/-! ### A removal from the vector of elements -/

/-- How many bytes a move of this count of elements goes through -/
def reach (fns : ElementFns size) (num : ℕ) : ℕ :=
  if fns.useElemF then num * size else num * size % 2 ^ 64

theorem mem_touched_moveInner {b : Block UInt8} {dst src num i : ℕ} :
    i ∈ (moveInner fns b dst src num).touched ↔ i ∈ b.touched ∨
      (dst ≤ i ∧ i < dst + reach fns num) ∨ (src ≤ i ∧ i < src + reach fns num) := by
  unfold moveInner reach
  split_ifs
  · exact Block.mem_touched_moveCells
  · rw [Block.moveRange, mem_append, mem_append, mem_range'_1, mem_range'_1, or_comm]

/-- The count of bytes is the right one only by chance. -/
theorem mod_eq_self_iff {n : ℕ} (hsize : 0 < size) (hn : n * size < 2 ^ 63) :
    n * size * size % 2 ^ 64 = n * size ↔ n = 0 ∨ size = 1 := by
  constructor
  · intro heq
    obtain ⟨k, rfl⟩ := Nat.exists_eq_add_one_of_ne_zero (Nat.ne_of_gt hsize)
    have hdvd : 2 ^ 64 ∣ n * (k + 1) * k := by
      have hsub := Nat.dvd_sub_mod (n := 2 ^ 64) (n * (k + 1) * (k + 1))
      rwa [heq, Nat.mul_succ, Nat.add_sub_cancel] at hsub
    rcases Nat.even_or_odd k with heven | hodd
    · have hcoprime : Nat.Coprime (2 ^ 64) (k + 1) :=
        (Nat.coprime_two_left.mpr heven.add_one).pow_left 64
      rw [Nat.mul_right_comm] at hdvd
      have hzero := Nat.eq_zero_of_dvd_of_lt (hcoprime.dvd_of_dvd_mul_right hdvd) (by
        rw [Nat.mul_succ] at hn
        omega)
      rcases Nat.mul_eq_zero.mp hzero with hn | hk
      · exact .inl hn
      · exact .inr (congrArg (· + 1) hk)
    · have hcoprime : Nat.Coprime (2 ^ 64) k := (Nat.coprime_two_left.mpr hodd).pow_left 64
      have hzero := Nat.eq_zero_of_dvd_of_lt (hcoprime.dvd_of_dvd_mul_right hdvd) (by omega)
      exact .inl ((Nat.mul_eq_zero.mp hzero).resolve_right (Nat.succ_ne_zero k))
  · rintro (rfl | rfl)
    · rw [Nat.zero_mul, Nat.zero_mul, Nat.zero_mod]
    · rw [Nat.mul_one, Nat.mul_one, Nat.mod_eq_of_lt]
      omega

theorem mul_mul_le_iff {n : ℕ} (hsize : 0 < size) :
    n * size * size ≤ n * size ↔ n = 0 ∨ size = 1 := by
  rcases Nat.eq_zero_or_pos n with rfl | hn
  · rw [Nat.zero_mul, Nat.zero_mul]
    exact iff_of_true le_rfl (.inl rfl)
  · have hcancel : n * size * size ≤ n * size * 1 ↔ size ≤ 1 :=
      Nat.mul_le_mul_left_iff (Nat.mul_pos hn hsize)
    rw [Nat.mul_one] at hcancel
    rw [hcancel]
    omega

section Removal

variable {pos n : ℕ}

/-- The memory after a removal -/
theorem val_remove : (v.remove fns pos).1.val =
    (moveInner fns ((Block.untouched v.val).modifyCell (pos * size) fns.clear) (pos * size)
      ((pos + 1) * size) ((v.len - pos - 1) * size)).val := rfl

theorem touched_remove_iff (hlen : v.len = pos + 1 + n) :
    (∀ i ∈ (v.remove fns pos).2, i < v.len * size) ↔ reach fns (n * size) ≤ n * size := by
  have hcount : v.len - pos - 1 = n := by omega
  have hend : v.len * size = (pos + 1) * size + n * size := by rw [hlen, Nat.add_mul]
  have hsucc : (pos + 1) * size = pos * size + size := Nat.succ_mul pos size
  have hsize := fns.size_pos
  rw [remove]
  dsimp only
  simp only [mem_touched_moveInner, hcount, hend, Block.modifyCell, Block.untouched,
    mem_append, mem_range'_1, not_mem_nil, or_false]
  constructor
  · intro hinside
    by_contra hmore
    have hplace := hinside ((pos + 1) * size + n * size) (by omega)
    omega
  · intro hreach i hi
    omega

theorem elements_remove_iff (hlen : v.len = pos + 1 + n) :
    (v.remove fns pos).1.elements = v.elements.eraseIdx pos ↔
      (∀ i < pos * size, (v.remove fns pos).1.val i = v.val i) ∧ ∀ k < n * size,
          (v.remove fns pos).1.val (pos * size + k) = v.val ((pos + 1) * size + k) := by
  have hshape : (v.remove fns pos).1.len = pos + n := by
    rw [remove]
    dsimp only
    omega
  rw [elements, elements, hshape, hlen]
  exact cells_eq_eraseIdx_iff

theorem clearedAt_of_lt {i : ℕ} (hi : i < pos * size) : v.clearedAt fns pos i = v.val i :=
  writeCell_of_lt hi

theorem clearedAt_behind (k : ℕ) :
    v.clearedAt fns pos (pos * size + size + k) = v.val ((pos + 1) * size + k) := by
  rw [Nat.succ_mul]
  exact writeCell_of_le (Nat.le_add_right _ _)

/-- The functions on elements move all elements that are behind, and more. -/
theorem elements_remove_of_use (hlen : v.len = pos + 1 + n) (huse : fns.useElemF = true) :
    (v.remove fns pos).1.elements = v.elements.eraseIdx pos := by
  have hcount : v.len - pos - 1 = n := by omega
  obtain ⟨hbefore, hmoved, -⟩ := Block.val_moveCells
    ((Block.untouched v.val).modifyCell (pos * size) fns.clear) (pos * size) (fns.moved huse)
    (n * size)
  rw [elements_remove_iff hlen, val_remove, moveInner, if_pos huse, hcount, Nat.succ_mul]
  refine ⟨fun i hi ↦ (hbefore i hi).trans (clearedAt_of_lt hi), fun k hk ↦ ?_⟩
  refine (hmoved k (hk.trans_le (Nat.le_mul_of_pos_right _ fns.size_pos))).trans ?_
  exact writeCell_of_le (Nat.le_add_right _ _)

/-- `memmove` moves the bytes that it is told to, and the others stay. -/
theorem elements_remove_of_memmove (hlen : v.len = pos + 1 + n) (huse : fns.useElemF = false) :
    (v.remove fns pos).1.elements = v.elements.eraseIdx pos ↔
      ∀ k, v.movedBytes pos ≤ k → k < n * size →
        v.clearedAt fns pos (pos * size + k) = v.val ((pos + 1) * size + k) := by
  have hcount : v.len - pos - 1 = n := by omega
  have hval : ∀ i, (v.remove fns pos).1.val i =
      if pos * size ≤ i ∧ i < pos * size + v.movedBytes pos then
        v.clearedAt fns pos ((pos + 1) * size + (i - pos * size))
      else v.clearedAt fns pos i := by
    intro i
    rw [val_remove, moveInner, huse]
    rfl
  rw [elements_remove_iff hlen]
  constructor
  · rintro ⟨-, hbehind⟩ k hmoved hk
    rw [← hbehind k hk, hval, if_neg (by omega)]
  · intro hsame
    refine ⟨fun i hi ↦ ?_, fun k hk ↦ ?_⟩
    · rw [hval, if_neg (by omega), clearedAt_of_lt hi]
    · rw [hval]
      split_ifs with hmoved
      · rw [Nat.add_sub_cancel_left, Nat.succ_mul, clearedAt_behind, Nat.succ_mul]
      · exact hsame k (by omega) hk

/-- A removal keeps the other elements just where its count is right. -/
theorem remove_keeps_iff (pos : Fin v.len) :
    v.KeepsOthers fns (.remove pos) ↔ v.CountFits fns pos := by
  obtain ⟨pos, hpos⟩ := pos
  obtain ⟨n, hlen⟩ : ∃ n, v.len = pos + 1 + n := Nat.exists_eq_add_of_le hpos
  have hcount : v.len - pos - 1 = n := by omega
  have hbytes : n * size < 2 ^ 63 :=
    ((Nat.mul_le_mul_right size (by omega)).trans (Nat.mul_le_mul_right size v.fits)).trans_lt
      v.allocated
  have hkeeps : v.KeepsOthers fns (.remove ⟨pos, hpos⟩) ↔
      (v.remove fns pos).1.elements = v.elements.eraseIdx pos ∧
        reach fns (n * size) ≤ n * size := by
    rw [← touched_remove_iff hlen]
    exact ⟨fun h ↦ ⟨h.elements, h.inside⟩, fun h ↦ ⟨h.1, h.2⟩⟩
  have hlast : pos + 1 = v.len ↔ n = 0 := by omega
  rw [hkeeps, CountFits, hcount, hlast, ← or_assoc]
  cases huse : fns.useElemF with
  | true =>
    rw [reach, if_pos huse, mul_mul_le_iff fns.size_pos]
    simp only [elements_remove_of_use hlen huse, true_and, Bool.true_eq_false, false_and, or_false]
  | false =>
    have hmoved : v.movedBytes pos = n * size * size % 2 ^ 64 := by rw [movedBytes, hcount]
    rw [reach, if_neg (by rw [huse]; exact Bool.false_ne_true),
      elements_remove_of_memmove hlen huse, ← hmoved, ← mod_eq_self_iff fns.size_pos hbytes,
      ← hmoved]
    constructor
    · rintro ⟨hsame, hle⟩
      rcases hle.lt_or_eq with hlt | heq
      · exact .inr ⟨rfl, hlt, hsame⟩
      · exact .inl heq
    · rintro (heq | ⟨-, hlt, hsame⟩)
      · exact ⟨fun k hk hk' ↦ absurd (heq ▸ hk) (Nat.not_le_of_lt hk'), heq.le⟩
      · exact ⟨hsame, hlt.le⟩

end Removal

end SVec

/-- Appending and setting keep the other elements of both vectors. A removal from the vector of
pointers never does, and one from the vector of elements does just where its count is right. -/
theorem keepsOthers_iff {α : Type} {size : ℕ} (freeF : Option α → Option α) (v : Vec α)
    (op : VecOp α v.len) (fns : ElementFns size) (w : SVec size) (sop : SVecOp size w.len) :
    (v.KeepsOthers freeF op ↔ ∀ pos, op ≠ .remove pos) ∧
      (w.KeepsOthers fns sop ↔ ∀ pos, sop = .remove pos → w.CountFits fns pos) := by
  constructor
  · cases op with
    | append e block => exact iff_of_true (v.append_keeps e block) (fun _ h ↦ nomatch h)
    | set i e => exact iff_of_true (v.set_keeps i e) (fun _ h ↦ nomatch h)
    | remove pos => exact iff_of_false (v.not_remove_keeps pos) (fun h ↦ h pos rfl)
  · cases sop with
    | append e block => exact iff_of_true (w.append_keeps e block) (fun _ h ↦ nomatch h)
    | set i e => exact iff_of_true (w.set_keeps i e) (fun _ h ↦ nomatch h)
    | remove pos =>
      rw [w.remove_keeps_iff pos]
      constructor
      · intro hfits pos' heq
        cases heq
        exact hfits
      · exact fun h ↦ h pos rfl

/-- Three elements in a vector with room for four -/
def threePointers : Vec ℕ := ⟨4, 3, fun i ↦ some i, by decide⟩

/-- Two elements of two bytes each -/
def twoPairs : SVec 2 := ⟨2, 2, fun i ↦ UInt8.ofNat i, by decide, by decide⟩

/-- Elements that are moved by `memmove`, and are set to zero where they are cleared -/
def plainFns : ElementFns 2 :=
  ⟨fun _ _ ↦ 0, fun _ src ↦ (src, src), false, by decide, fun h _ _ ↦ absurd h Bool.false_ne_true⟩

/-- The last one of three elements is lost where the first one is removed, and where the first one
of two is removed bytes behind the second one are read. -/
theorem not_keepsOthers_removeFirst :
    ¬ threePointers.KeepsOthers (fun _ ↦ none) (.remove ⟨0, by decide⟩) ∧
      (threePointers.step (fun _ ↦ none) (.remove ⟨0, by decide⟩)).1.elements = [some 1, some 1] ∧
      ¬ twoPairs.KeepsOthers plainFns (.remove ⟨0, by decide⟩) := by
  refine ⟨fun h ↦ ?_, by decide, fun h ↦ ?_⟩
  · exact absurd (h.inside 3 (by decide)) (by decide)
  · exact absurd (h.inside 4 (by decide)) (by decide)

end ZenohPico.Collections
