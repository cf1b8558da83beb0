import Mathlib.Data.List.Find
import ZenohPico.Collections.StaticBitVector

/-!
What is read of a bit vector by whole blocks
(`include/zenoh-pico/collections/static_bit_vector_template.h`): the number of set bits, equality,
whether all or any bits are set, and the loop over the set bits. Since the bits behind the length
are zero, each of them is what it is on the list of the bits.
-/

open List Option

namespace ZenohPico.Collections

namespace StaticBitVector

variable {w capacity : ℕ} (vec : StaticBitVector w capacity)

/-! ### Whole blocks -/

section Blocks

variable [Fact (0 < w)] {vec}

theorem constAt_mul_add (n : ℕ) {j : ℕ} (hj : j < w) :
    vec.constAt (n * w + j) = (vec.blocks n).getLsbD j := by
  have hw : 0 < w := Fact.out
  rw [constAt_eq_getLsbD, Nat.mul_comm, Nat.mul_add_div hw, Nat.div_eq_of_lt hj, Nat.add_zero,
    Nat.mul_add_mod, Nat.mod_eq_of_lt hj]

theorem div_lt_numBlocks {i : ℕ} (hi : i < vec.size) : i / w < vec.numBlocks :=
  (Nat.div_lt_iff_lt_mul (Fact.out : 0 < w)).mpr (hi.trans_le size_le_numBlocks)

theorem block_eq_zero_iff (k : ℕ) :
    vec.blocks k = 0#w ↔ ∀ j < w, vec.constAt (k * w + j) = false := by
  rw [BitVec.eq_of_getLsbD_eq_iff]
  refine forall₂_congr fun j hj ↦ ?_
  rw [constAt_mul_add k hj, BitVec.getLsbD_zero]

omit [Fact (0 < w)] in
theorem countBlock_step (block : BitVec w) :
    countBlock block = (block.getLsbD 0).toNat + countBlock (block >>> 1) := by
  by_cases hzero : block = 0#w
  · subst hzero
    rw [BitVec.zero_ushiftRight, BitVec.getLsbD_zero, Bool.toNat_false, Nat.zero_add]
  · rw [countBlock, if_neg hzero]

omit [Fact (0 < w)] in
theorem getLsbD_ushiftRight_one (block : BitVec w) (j : ℕ) :
    (block >>> 1).getLsbD j = block.getLsbD (j + 1) := by
  rw [BitVec.getLsbD_ushiftRight, Nat.add_comm]

omit [Fact (0 < w)] in
theorem getLsbD_ushiftRight_one_eq (block : BitVec w) :
    (block >>> 1).getLsbD = block.getLsbD ∘ Nat.succ :=
  funext (getLsbD_ushiftRight_one block)

variable {block : BitVec w}

omit [Fact (0 < w)] in
theorem eq_zero_of_unset (hbits : ∀ j, 0 ≤ j → block.getLsbD j = false) : block = 0#w :=
  BitVec.eq_of_getLsbD_eq fun j _ ↦ by rw [hbits j (Nat.zero_le j), BitVec.getLsbD_zero]

omit [Fact (0 < w)] in
theorem unset_ushiftRight_one {n : ℕ} (hbits : ∀ j, n + 1 ≤ j → block.getLsbD j = false) :
    ∀ j, n ≤ j → (block >>> 1).getLsbD j = false := fun j hj ↦ by
  rw [getLsbD_ushiftRight_one]
  exact hbits _ (Nat.succ_le_succ hj)

omit [Fact (0 < w)] in
theorem countBlock_eq_countP {n : ℕ} (hbits : ∀ j, n ≤ j → block.getLsbD j = false) :
    countBlock block = (List.range n).countP block.getLsbD := by
  induction n generalizing block with
  | zero =>
    rw [countBlock, if_pos (eq_zero_of_unset hbits)]
    rfl
  | succ n ih =>
    rw [countBlock_step, ih (unset_ushiftRight_one hbits), range_succ_eq_map,
      countP_cons, countP_map, getLsbD_ushiftRight_one_eq, Nat.add_comm]
    cases block.getLsbD 0 <;> rfl

theorem foldl_countBlock (n : ℕ) :
    (List.range n).foldl (fun cnt i ↦ cnt + countBlock (vec.blocks i)) 0 =
      (List.range (n * w)).countP vec.constAt := by
  induction n with
  | zero =>
    rw [Nat.zero_mul]
    rfl
  | succ n ih =>
    have hblock : countBlock (vec.blocks n) =
        (List.range w).countP (vec.constAt ∘ fun j ↦ n * w + j) := by
      rw [countBlock_eq_countP fun j hj ↦ BitVec.getLsbD_of_ge _ j hj]
      refine countP_congr fun j hj ↦ ?_
      rw [Function.comp_apply, constAt_mul_add n (mem_range.mp hj)]
    rw [range_succ, foldl_append, ih, Nat.succ_mul, range_add, countP_append, countP_map, ← hblock]
    rfl

theorem count_eq (h : vec.Canonical) : vec.count = vec.toList.count true := by
  have hsplit : vec.numBlocks * w = vec.size + (vec.numBlocks * w - vec.size) :=
    (Nat.add_sub_of_le size_le_numBlocks).symm
  have hrest : ((List.range (vec.numBlocks * w - vec.size)).map (vec.size + ·)).countP
      vec.constAt = 0 := by
    refine countP_eq_zero.mpr fun i hi ↦ ?_
    obtain ⟨j, -, rfl⟩ := List.mem_map.mp hi
    rw [h.unused _ (Nat.le_add_right _ _)]
    exact Bool.false_ne_true
  rw [count, foldl_countBlock, hsplit, range_add, countP_append, hrest, Nat.add_zero,
    toList, List.count, countP_map]
  refine countP_congr fun i _ ↦ ?_
  rw [Function.comp_apply, beq_true]

/-- Canonical vectors of one length are equal if and only if the blocks that are in use are. -/
theorem eq_iff_toList_eq {other : StaticBitVector w capacity} (h : vec.Canonical)
    (hother : other.Canonical) : vec.eq other = true ↔ vec.toList = other.toList := by
  rw [eq]
  by_cases hsize : vec.size = other.size
  · rw [if_neg (not_not.mpr hsize), List.all_eq_true]
    constructor
    · intro hblocks
      refine ext_getElem? fun i ↦ ?_
      rw [getElem?_toList, getElem?_toList, ← hsize]
      split
      · next hi =>
        have hblock := hblocks _ (mem_range.mpr (div_lt_numBlocks hi))
        rw [constAt_eq_getLsbD, constAt_eq_getLsbD, beq_iff_eq.mp hblock]
      · rfl
    · intro hlist k _
      rw [beq_iff_eq]
      refine BitVec.eq_of_getLsbD_eq fun j hj ↦ ?_
      rw [← constAt_mul_add k hj, ← constAt_mul_add k hj, h.represents.constAt_eq,
        hother.represents.constAt_eq, hlist]
  · rw [if_pos hsize]
    refine iff_of_false Bool.false_ne_true fun hlist ↦ hsize ?_
    rw [← length_toList, hlist, length_toList]

theorem any_iff (h : vec.Canonical) : vec.any = true ↔ ∃ i < vec.size, vec.constAt i = true := by
  have hused {i : ℕ} (hi : vec.constAt i = true) : i < vec.size := by
    by_contra hge
    rw [h.unused i (Nat.le_of_not_lt hge)] at hi
    exact Bool.false_ne_true hi
  rw [any]
  by_cases hzero : vec.size = 0
  · rw [if_pos hzero]
    refine iff_of_false Bool.false_ne_true ?_
    rintro ⟨i, hi, -⟩
    omega
  · rw [if_neg hzero, List.any_eq_true]
    constructor
    · rintro ⟨k, -, hk⟩
      rw [bne_iff_ne, ne_eq, block_eq_zero_iff] at hk
      simp only [not_forall, Bool.not_eq_false] at hk
      obtain ⟨j, -, hj⟩ := hk
      exact ⟨_, hused hj, hj⟩
    · rintro ⟨i, hi, hbit⟩
      refine ⟨i / w, mem_range.mpr (div_lt_numBlocks hi), bne_iff_ne.mpr fun hblock ↦ ?_⟩
      rw [constAt_eq_getLsbD, hblock, BitVec.getLsbD_zero] at hbit
      exact Bool.false_ne_true hbit

theorem all_iff (h : vec.Canonical) : vec.all = true ↔ ∀ i < vec.size, vec.constAt i = true := by
  have hw : 0 < w := Fact.out
  have hblocks : vec.all = true ↔ (∀ k < vec.size / w, vec.blocks k = BitVec.allOnes w) ∧
      (vec.size % w = 0 ∨ vec.blocks (vec.size / w) = lowMask w (vec.size % w)) := by
    rw [all]
    by_cases hzero : vec.size = 0
    · rw [if_pos hzero]
      exact iff_of_true rfl (by simp [hzero])
    · rw [if_neg hzero]
      simp only [List.all_eq_true, List.mem_range, beq_iff_eq]
      by_cases hfull : ∀ k < vec.size / w, vec.blocks k = BitVec.allOnes w
      · rw [if_pos hfull, and_iff_right hfull]
        by_cases hrem : vec.size % w = 0
        · simp [hrem]
        · simp [hrem]
      · rw [if_neg hfull]
        exact iff_of_false Bool.false_ne_true fun hand ↦ hfull hand.1
  rw [hblocks]
  constructor
  · rintro ⟨hfull, hlast⟩ i hi
    rw [constAt_eq_getLsbD]
    rcases Nat.lt_trichotomy (i / w) (vec.size / w) with hlt | heq | hgt
    · rw [hfull _ hlt, BitVec.getLsbD_allOnes, decide_eq_true (Nat.mod_lt i hw)]
    · have hmod := (lt_size_iff_of_div_eq heq).mp hi
      have hrem := hlast.resolve_left (Nat.ne_zero_of_lt hmod)
      rw [heq, hrem, getLsbD_lowMask (Nat.mod_lt _ hw), decide_eq_true hmod]
    · exact absurd hi (size_le_of_lt_div hgt).not_gt
  · intro hbits
    have hindex (k : ℕ) {j : ℕ} (hj : j < w) : (k * w + j) / w = k ∧ (k * w + j) % w = j := by
      rw [Nat.mul_comm, Nat.mul_add_div hw, Nat.div_eq_of_lt hj, Nat.mul_add_mod,
        Nat.mod_eq_of_lt hj]
      exact ⟨rfl, rfl⟩
    refine ⟨fun k hk ↦ BitVec.eq_of_getLsbD_eq fun j hj ↦ ?_, ?_⟩
    · have hlt : k * w + j < vec.size := lt_size_of_div_lt (by rwa [(hindex k hj).1])
      rw [← constAt_mul_add k hj, hbits _ hlt, BitVec.getLsbD_allOnes, decide_eq_true hj]
    · refine or_iff_not_imp_left.mpr fun _ ↦ BitVec.eq_of_getLsbD_eq fun j hj ↦ ?_
      rw [← constAt_mul_add _ hj, getLsbD_lowMask (Nat.mod_lt _ hw)]
      have hiff := lt_size_iff_of_div_eq (hindex (vec.size / w) hj).1
      rw [(hindex _ hj).2] at hiff
      by_cases hmod : j < vec.size % w
      · rw [hbits _ (hiff.mpr hmod), decide_eq_true hmod]
      · rw [h.unused _ (Nat.le_of_not_lt (mt hiff.mp hmod)), decide_eq_false hmod]

end Blocks

/-! ### The set bits in order -/

section Scan

variable [Fact (0 < w)] {vec}

omit [Fact (0 < w)] in
theorem scanBlock_step (block : BitVec w) (i : ℕ) :
    scanBlock block i = if block.getLsbD 0 then some i else scanBlock (block >>> 1) (i + 1) := by
  by_cases hzero : block = 0#w
  · subst hzero
    have hnone (i : ℕ) : scanBlock (0#w) i = none := by rw [scanBlock, if_pos rfl]
    rw [BitVec.zero_ushiftRight, BitVec.getLsbD_zero, if_neg Bool.false_ne_true, hnone, hnone]
  · rw [scanBlock, if_neg hzero]

omit [Fact (0 < w)] in
/-- The scan finds the lowest set bit. -/
theorem scanBlock_eq {n : ℕ} {block : BitVec w} (i : ℕ)
    (hbits : ∀ j, n ≤ j → block.getLsbD j = false) :
    scanBlock block i = ((List.range n).find? block.getLsbD).map (i + ·) := by
  induction n generalizing block i with
  | zero =>
    rw [scanBlock, if_pos (eq_zero_of_unset hbits)]
    rfl
  | succ n ih =>
    rw [scanBlock_step, ih _ (unset_ushiftRight_one hbits), range_succ_eq_map,
      List.find?_cons, List.find?_map, getLsbD_ushiftRight_one_eq]
    cases block.getLsbD 0 with
    | true => rfl
    | false =>
      rw [if_neg Bool.false_ne_true, Option.map_map]
      refine congrArg (Option.map · _) (funext fun j ↦ ?_)
      exact Nat.succ_add_eq_add_succ i j

/-- The first set bit of a stretch of indices, or the length -/
def firstTrue (vec : StaticBitVector w capacity) (s n : ℕ) : ℕ :=
  ((List.range' s n).find? vec.constAt).getD vec.size

omit [Fact (0 < w)] in
theorem firstTrue_append (s m n : ℕ) : vec.firstTrue s (m + n) =
      ((List.range' s m).find? vec.constAt).getD (vec.firstTrue (s + m) n) := by
  rw [firstTrue, ← List.range'_append_1, List.find?_append]
  cases (List.range' s m).find? vec.constAt <;> rfl

theorem scanBlock_ushiftRight {k shift : ℕ} : scanBlock (vec.blocks k >>> shift) (k * w + shift) =
      (List.range' (k * w + shift) (w - shift)).find? vec.constAt := by
  have hbits : ∀ j, w - shift ≤ j → (vec.blocks k >>> shift).getLsbD j = false := fun j hj ↦ by
    rw [BitVec.getLsbD_ushiftRight, BitVec.getLsbD_of_ge _ _ (by omega)]
  rw [scanBlock_eq _ hbits, List.range'_eq_map_range, List.find?_map]
  refine congrArg (Option.map _) (List.find?_congr fun j hj ↦ ?_)
  rw [mem_range] at hj
  rw [Function.comp_apply, Nat.add_assoc, constAt_mul_add k (by omega), BitVec.getLsbD_ushiftRight]

/-- The scan over blocks finds the first set bit from its index on. -/
theorem scanBlocks_eq {k shift : ℕ} (hshift : shift ≤ w) (n : ℕ) :
    vec.scanBlocks k shift (k * w + shift) n = vec.firstTrue (k * w + shift) (n * w - shift) := by
  induction n generalizing k shift with
  | zero => rw [Nat.zero_mul, Nat.zero_sub]; rfl
  | succ n ih =>
    have hlen : (n + 1) * w - shift = (w - shift) + n * w := by
      rw [Nat.succ_mul]
      omega
    have hnext : k * w + shift + (w - shift) = (k + 1) * w := by
      rw [Nat.succ_mul]
      omega
    have hrest : vec.scanBlocks (k + 1) 0 ((k + 1) * w) n = vec.firstTrue ((k + 1) * w) (n * w) :=
      ih (Nat.zero_le w)
    rw [scanBlocks, scanBlock_ushiftRight, hrest, hlen, firstTrue_append, hnext]

/-- Behind the length no bit is found. -/
theorem firstTrue_numBlocks (h : vec.Canonical) {s : ℕ} (hs : s ≤ vec.size) :
    vec.firstTrue s (vec.numBlocks * w - s) = vec.firstTrue s (vec.size - s) := by
  have hlen : vec.numBlocks * w - s = (vec.size - s) + (vec.numBlocks * w - vec.size) := by
    have hle := @size_le_numBlocks w capacity vec _
    omega
  have hnone : vec.firstTrue (s + (vec.size - s)) (vec.numBlocks * w - vec.size) = vec.size := by
    have hfind : (List.range' (s + (vec.size - s)) (vec.numBlocks * w - vec.size)).find?
        vec.constAt = none := by
      refine List.find?_eq_none.mpr fun i hi ↦ ?_
      rw [mem_range'_1] at hi
      rw [h.unused i (by omega)]
      exact Bool.false_ne_true
    rw [firstTrue, hfind, getD_none]
  rw [hlen, firstTrue_append, hnone]
  rfl

theorem beginTrue_eq (h : vec.Canonical) : vec.beginTrue = vec.firstTrue 0 vec.size := by
  have hscan := @scanBlocks_eq w capacity vec _ 0 0 (Nat.zero_le w) vec.numBlocks
  rw [Nat.zero_mul, Nat.zero_add] at hscan
  rw [beginTrue, hscan, firstTrue_numBlocks h (Nat.zero_le _), Nat.sub_zero]

theorem iterNextTrue_eq (h : vec.Canonical) {pos : ℕ} (hpos : pos < vec.size) :
    vec.iterNextTrue pos = vec.firstTrue (pos + 1) (vec.size - (pos + 1)) := by
  have hmod : (pos + 1) % w ≤ w := (Nat.mod_lt _ (Fact.out : 0 < w)).le
  have hsplit : (pos + 1) / w * w + (pos + 1) % w = pos + 1 := by
    rw [Nat.mul_comm, Nat.div_add_mod]
  have hscan := @scanBlocks_eq w capacity vec _ ((pos + 1) / w) _ hmod
    (vec.numBlocks - (pos + 1) / w)
  rw [hsplit, Nat.sub_mul, Nat.sub_sub, hsplit, firstTrue_numBlocks h hpos] at hscan
  exact hscan

/-- From any index on, the loop visits the set bits in order. -/
theorem iterTrue_firstTrue (h : vec.Canonical) {s n fuel : ℕ} (hs : s + n = vec.size)
    (hfuel : n < fuel) :
    vec.iterTrue fuel (vec.firstTrue s n) = (List.range' s n).filter vec.constAt := by
  induction n generalizing s fuel with
  | zero =>
    obtain ⟨fuel, rfl⟩ := Nat.exists_eq_succ_of_ne_zero hfuel.ne'
    rw [iterTrue]
    exact if_pos rfl
  | succ n ih =>
    rw [List.range'_succ, filter_cons, firstTrue, List.range'_succ, List.find?_cons]
    cases hbit : vec.constAt s with
    | true =>
      obtain ⟨fuel, rfl⟩ := Nat.exists_eq_succ_of_ne_zero (Nat.zero_lt_of_lt hfuel).ne'
      have hlen : vec.size - (s + 1) = n := by omega
      have hnext : vec.iterNextTrue s = vec.firstTrue (s + 1) n := by
        rw [iterNextTrue_eq h (by omega), hlen]
      rw [if_pos rfl, getD_some, iterTrue, if_neg (by omega), hnext,
        ih (by omega) (Nat.lt_of_succ_lt_succ hfuel)]
    | false =>
      rw [if_neg Bool.false_ne_true]
      exact ih (by omega) (Nat.lt_of_succ_lt hfuel)

end Scan

/-! ### The vector and its list -/

/-- The vector answers as its list does. -/
structure Agrees : Prop where
  unused : ∀ i, vec.toList.length ≤ i → vec.constAt i = false
  get_eq : ∀ i, vec.constGet i = vec.toList[i]?
  count_eq : vec.count = vec.toList.count true
  all_iff : vec.all = true ↔ ∀ b ∈ vec.toList, b = true
  any_iff : vec.any = true ↔ true ∈ vec.toList
  iterate : ∀ fuel, vec.toList.length < fuel → vec.iterTrue fuel vec.beginTrue =
    (List.range vec.toList.length).filter fun i ↦ vec.toList[i]?.getD false

theorem mem_toList (b : Bool) : b ∈ vec.toList ↔ ∃ i < vec.size, vec.constAt i = b := by
  rw [toList, List.mem_map]
  simp only [mem_range]

theorem Canonical.agrees [Fact (0 < w)] {vec : StaticBitVector w capacity} (h : vec.Canonical) :
    vec.Agrees where
  unused i hi := h.unused i (length_toList.symm.trans_le hi)
  get_eq i := by
    rw [constGet, getElem?_toList]
    by_cases hi : i < vec.size
    · rw [if_neg (Nat.not_le_of_lt hi), if_pos hi]
    · rw [if_pos (Nat.le_of_not_lt hi), if_neg hi]
  count_eq := StaticBitVector.count_eq h
  all_iff := by
    rw [StaticBitVector.all_iff h]
    constructor
    · intro hall b hb
      obtain ⟨i, hi, rfl⟩ := (vec.mem_toList b).mp hb
      exact hall i hi
    · exact fun hall i hi ↦ hall _ ((vec.mem_toList _).mpr ⟨i, hi, rfl⟩)
  any_iff := (StaticBitVector.any_iff h).trans (vec.mem_toList true).symm
  iterate fuel hfuel := by
    rw [length_toList] at hfuel ⊢
    rw [beginTrue_eq h, iterTrue_firstTrue h (Nat.zero_add _) hfuel, range_eq_range']
    refine filter_congr fun i _ ↦ ?_
    rw [h.represents.constAt_eq]

/-- For every block width, capacity and run of operations the vector is the list that the same
operations make, every operation returns what it does on the list, and equality, counting and the
loop over the set bits are those of the list. -/
theorem bitVector_refines_list [Fact (0 < w)] (isSet : Bool) (ops : List Op) :
    (run w capacity isSet ops).toList = listRun capacity isSet ops ∧
      (run w capacity isSet ops).Agrees ∧ (∀ op, ((run w capacity isSet ops).step op).1 =
        (listStep capacity (listRun capacity isSet ops) op).1) ∧
      ∀ isSet' ops', (run w capacity isSet ops).eq (run w capacity isSet' ops') = true ↔
        listRun capacity isSet ops = listRun capacity isSet' ops' := by
  have hrun := @represents_run w capacity _ isSet ops
  refine ⟨hrun.toList_eq, hrun.canonical.agrees, fun op ↦ (hrun.step op).2, fun isSet' ops' ↦ ?_⟩
  have hother := @represents_run w capacity _ isSet' ops'
  rw [eq_iff_toList_eq hrun.canonical hother.canonical, hrun.toList_eq, hother.toList_eq]

/-- Ten bits in blocks of eight -/
theorem bitVector_refines_list_flipAll :
    (run 8 10 true [.flipAll, .set 9 false]).toList = listRun 10 true [.flipAll, .set 9 false] :=
  have : Fact (0 < 8) := ⟨by decide⟩
  (bitVector_refines_list true [.flipAll, .set 9 false]).1

end StaticBitVector

end ZenohPico.Collections
