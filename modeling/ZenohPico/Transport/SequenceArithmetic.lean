import ZenohPico.Transport.SequenceNumber
import Mathlib.Logic.Equiv.Defs
import Mathlib.Logic.Function.Iterate

/-!
The arithmetic of sequence numbers under any mask (`src/transport/utils.c`).

A mask of `k` bits makes a circle of `2 ^ k` numbers out of the machine word. In numbers, the
word operations of the source are addition and subtraction on that circle.
-/

namespace ZenohPico.Transport

/-- The resolution of `k` bits -/
def snResolution (k : ℕ) : UInt64 := UInt64.ofNat (2 ^ k - 1)

section Circle

variable {k : ℕ} {a b : UInt64}

theorem two_pow_le (hk : k ≤ 64) : 2 ^ k ≤ 2 ^ 64 := Nat.pow_le_pow_right (by decide) hk

theorem toNat_snResolution (hk : k ≤ 64) : (snResolution k).toNat = 2 ^ k - 1 := by
  have hle := two_pow_le hk
  have hpos := Nat.two_pow_pos k
  rw [snResolution, UInt64.toNat_ofNat', Nat.mod_eq_of_lt (by omega)]

theorem le_snResolution_iff (hk : k ≤ 64) : a ≤ snResolution k ↔ a.toNat < 2 ^ k := by
  have hpos := Nat.two_pow_pos k
  rw [UInt64.le_iff_toNat_le, toNat_snResolution hk]
  omega

/-- Masking with a resolution is reduction modulo its number of values. -/
theorem toNat_and_snResolution (hk : k ≤ 64) (x : UInt64) :
    (x &&& snResolution k).toNat = x.toNat % 2 ^ k := by
  rw [UInt64.toNat_and, toNat_snResolution hk, Nat.and_two_pow_sub_one_eq_mod]

theorem toNat_snHalf (hk : k ≤ 64) : (snHalf (snResolution k)).toNat = (2 ^ k - 1) / 2 := by
  have hshift : (1 : UInt64).toNat % 64 = 1 := by decide
  rw [snHalf, UInt64.toNat_shiftRight, hshift, toNat_snResolution hk, Nat.shiftRight_one]

/-! ### The operations in numbers -/

theorem toNat_snIncrement_resolution (hk : k ≤ 64) (a : UInt64) :
    (snIncrement (snResolution k) a).toNat = (a.toNat + 1) % 2 ^ k := by
  rw [snIncrement, toNat_and_snResolution hk, UInt64.toNat_add, UInt64.toNat_one,
    Nat.mod_mod_of_dvd _ (Nat.pow_dvd_pow 2 hk)]

/-- The masked difference is the way from the one number to the other on the circle. -/
theorem toNat_snDistance (hk : k ≤ 64) (ha : a ≤ snResolution k) (b : UInt64) :
    ((b - a) &&& snResolution k).toNat = (b.toNat + (2 ^ k - a.toNat)) % 2 ^ k := by
  have hlt := (le_snResolution_iff hk).mp ha
  obtain ⟨q, hq⟩ := Nat.pow_dvd_pow 2 hk
  have hqpos : 0 < q := Nat.pos_of_ne_zero fun h ↦ by
    rw [h, Nat.mul_zero] at hq
    exact absurd hq (by decide)
  have hword : 2 ^ 64 - a.toNat + b.toNat = b.toNat + (2 ^ k - a.toNat) + 2 ^ k * (q - 1) := by
    have hle : 2 ^ k ≤ 2 ^ k * q := Nat.le_mul_of_pos_right _ hqpos
    have hsub : 2 ^ k * (q - 1) = 2 ^ k * q - 2 ^ k := by rw [Nat.mul_sub, Nat.mul_one]
    omega
  rw [toNat_and_snResolution hk, UInt64.toNat_sub,
    Nat.mod_mod_of_dvd _ (Nat.pow_dvd_pow 2 hk), hword, Nat.add_mul_mod_self_left]

theorem toNat_snDecrement_resolution (hk : k ≤ 64) (ha : a ≤ snResolution k) :
    (snDecrement (snResolution k) a).toNat = (a.toNat + (2 ^ k - 1)) % 2 ^ k := by
  rcases Nat.eq_zero_or_pos k with rfl | hpos
  · rw [snDecrement, toNat_and_snResolution hk, Nat.pow_zero, Nat.mod_one, Nat.mod_one]
  · have hone : (1 : UInt64) ≤ snResolution k := by
      rw [le_snResolution_iff hk]
      exact Nat.one_lt_two_pow (by omega)
    exact toNat_snDistance hk hone a

theorem snIncrement_le (hk : k ≤ 64) (a : UInt64) :
    snIncrement (snResolution k) a ≤ snResolution k := by
  rw [le_snResolution_iff hk, toNat_snIncrement_resolution hk]
  exact Nat.mod_lt _ (Nat.two_pow_pos k)

theorem snDecrement_le (hk : k ≤ 64) (a : UInt64) :
    snDecrement (snResolution k) a ≤ snResolution k := by
  rw [le_snResolution_iff hk, snDecrement, toNat_and_snResolution hk]
  exact Nat.mod_lt _ (Nat.two_pow_pos k)

theorem snDecrement_snIncrement (hk : k ≤ 64) (ha : a ≤ snResolution k) :
    snDecrement (snResolution k) (snIncrement (snResolution k) a) = a := by
  have hlt := (le_snResolution_iff hk).mp ha
  have hpos := Nat.two_pow_pos k
  apply UInt64.toNat_inj.mp
  rw [toNat_snDecrement_resolution hk (snIncrement_le hk a), toNat_snIncrement_resolution hk,
    Nat.mod_add_mod]
  have hround : a.toNat + 1 + (2 ^ k - 1) = a.toNat + 2 ^ k := by omega
  rw [hround, Nat.add_mod_right, Nat.mod_eq_of_lt hlt]

theorem snIncrement_snDecrement (hk : k ≤ 64) (ha : a ≤ snResolution k) :
    snIncrement (snResolution k) (snDecrement (snResolution k) a) = a := by
  have hlt := (le_snResolution_iff hk).mp ha
  have hpos := Nat.two_pow_pos k
  apply UInt64.toNat_inj.mp
  rw [toNat_snIncrement_resolution hk, toNat_snDecrement_resolution hk ha, Nat.mod_add_mod]
  have hround : a.toNat + (2 ^ k - 1) + 1 = a.toNat + 2 ^ k := by omega
  rw [hround, Nat.add_mod_right, Nat.mod_eq_of_lt hlt]

/-- The numbers of a resolution, turned by one -/
def snTurn (hk : k ≤ 64) : Equiv.Perm { sn : UInt64 // sn ≤ snResolution k } where
  toFun sn := ⟨snIncrement (snResolution k) sn.val, snIncrement_le hk sn.val⟩
  invFun sn := ⟨snDecrement (snResolution k) sn.val, snDecrement_le hk sn.val⟩
  left_inv sn := Subtype.ext (snDecrement_snIncrement hk sn.property)
  right_inv sn := Subtype.ext (snIncrement_snDecrement hk sn.property)

/-! ### Several increments -/

theorem toNat_iterate_snIncrement (hk : k ≤ 64) (ha : a ≤ snResolution k) (n : ℕ) :
    ((snIncrement (snResolution k))^[n] a).toNat = (a.toNat + n) % 2 ^ k := by
  induction n with
  | zero => exact (Nat.mod_eq_of_lt ((le_snResolution_iff hk).mp ha)).symm
  | succ n ih =>
    rw [Function.iterate_succ_apply', toNat_snIncrement_resolution hk, ih, Nat.mod_add_mod,
      Nat.add_assoc]

theorem iterate_snIncrement_le (hk : k ≤ 64) (ha : a ≤ snResolution k) (n : ℕ) :
    (snIncrement (snResolution k))^[n] a ≤ snResolution k := by
  rw [le_snResolution_iff hk, toNat_iterate_snIncrement hk ha]
  exact Nat.mod_lt _ (Nat.two_pow_pos k)

/-- The distance to a number is the one number of increments below the size of the circle that
lead to it. -/
theorem toNat_snDistance_eq_iff (hk : k ≤ 64) (ha : a ≤ snResolution k) (hb : b ≤ snResolution k)
    {n : ℕ} (hn : n < 2 ^ k) : ((b - a) &&& snResolution k).toNat = n ↔
      b = (snIncrement (snResolution k))^[n] a := by
  have hlta := (le_snResolution_iff hk).mp ha
  have hltb := (le_snResolution_iff hk).mp hb
  rw [← UInt64.toNat_inj, toNat_iterate_snIncrement hk ha, toNat_snDistance hk ha]
  constructor
  · rintro rfl
    rw [Nat.add_mod_mod]
    have hround : a.toNat + (b.toNat + (2 ^ k - a.toNat)) = b.toNat + 2 ^ k := by omega
    rw [hround, Nat.add_mod_right, Nat.mod_eq_of_lt hltb]
  · intro h
    rw [h, Nat.mod_add_mod]
    have hround : a.toNat + n + (2 ^ k - a.toNat) = n + 2 ^ k := by omega
    rw [hround, Nat.add_mod_right, Nat.mod_eq_of_lt hn]

theorem snPrecedes_iff_distance (k : ℕ) (a b : UInt64) : snPrecedes (snResolution k) a b = true ↔
      1 ≤ ((b - a) &&& snResolution k).toNat ∧
        ((b - a) &&& snResolution k).toNat ≤ (snHalf (snResolution k)).toNat := by
  rw [snPrecedes, Bool.and_eq_true, decide_eq_true_eq, bne_iff_ne, UInt64.le_iff_toNat_le, Ne,
    ← UInt64.toNat_inj, UInt64.toNat_zero]
  omega

/-- One number precedes another if and only if half the circle of increments at most lead from it
to the other. -/
theorem snPrecedes_iff_iterate (hk : k ≤ 64) (ha : a ≤ snResolution k) (hb : b ≤ snResolution k) :
    snPrecedes (snResolution k) a b = true ↔ ∃ n, 1 ≤ n ∧ n ≤ (snHalf (snResolution k)).toNat ∧
        b = (snIncrement (snResolution k))^[n] a := by
  have hpos := Nat.two_pow_pos k
  have hhalf : (snHalf (snResolution k)).toNat < 2 ^ k := by
    rw [toNat_snHalf hk]
    omega
  rw [snPrecedes_iff_distance]
  constructor
  · rintro ⟨hone, hle⟩
    exact ⟨_, hone, hle, (toNat_snDistance_eq_iff hk ha hb (hle.trans_lt hhalf)).mp rfl⟩
  · rintro ⟨n, hone, hle, hiter⟩
    rw [(toNat_snDistance_eq_iff hk ha hb (hle.trans_lt hhalf)).mpr hiter]
    exact ⟨hone, hle⟩

/-- On a stretch of at most half the circle, precedence is the order of the positions. -/
theorem snPrecedes_iterate (hk : k ≤ 64) (ha : a ≤ snResolution k) {i j : ℕ}
    (hi : i ≤ (snHalf (snResolution k)).toNat) (hj : j ≤ (snHalf (snResolution k)).toNat) :
    snPrecedes (snResolution k) ((snIncrement (snResolution k))^[i] a)
      ((snIncrement (snResolution k))^[j] a) = true ↔ i < j := by
  have hpos := Nat.two_pow_pos k
  have hhalf := toNat_snHalf hk
  have hile := iterate_snIncrement_le hk ha i
  have hjle := iterate_snIncrement_le hk ha j
  have hdistance {m : ℕ} (hm : m < 2 ^ k)
      (hsum : (a.toNat + i + m) % 2 ^ k = (a.toNat + j) % 2 ^ k) :
      (((snIncrement (snResolution k))^[j] a - (snIncrement (snResolution k))^[i] a)
        &&& snResolution k).toNat = m := by
    rw [toNat_snDistance_eq_iff hk hile hjle hm, ← UInt64.toNat_inj,
      toNat_iterate_snIncrement hk hile, toNat_iterate_snIncrement hk ha,
      toNat_iterate_snIncrement hk ha, Nat.mod_add_mod, hsum]
  rw [snPrecedes_iff_distance]
  rcases Nat.lt_or_ge i j with hlt | hge
  · rw [hdistance (m := j - i) (by omega) (by congr 1; omega)]
    omega
  · rcases Nat.eq_or_lt_of_le hge with rfl | hgt
    · rw [hdistance (m := 0) hpos rfl]
      omega
    · have hround : a.toNat + i + (2 ^ k - (i - j)) = a.toNat + j + 2 ^ k := by omega
      rw [hdistance (m := 2 ^ k - (i - j)) (by omega) (by rw [hround, Nat.add_mod_right])]
      omega

theorem snPrecedes_self (hk : k ≤ 64) (ha : a ≤ snResolution k) :
    snPrecedes (snResolution k) a a = false :=
  Bool.eq_false_iff.mpr fun h ↦ absurd ((snPrecedes_iterate hk ha (i := 0) (j := 0)
    (Nat.zero_le _) (Nat.zero_le _)).mp h) (Nat.lt_irrefl 0)

theorem snPrecedes_asymm (hk : k ≤ 64) (ha : a ≤ snResolution k) (hb : b ≤ snResolution k)
    (hab : snPrecedes (snResolution k) a b = true) : snPrecedes (snResolution k) b a = false := by
  obtain ⟨n, hone, hle, rfl⟩ := (snPrecedes_iff_iterate hk ha hb).mp hab
  exact Bool.eq_false_iff.mpr fun h ↦ absurd ((snPrecedes_iterate hk ha (j := 0) hle
    (Nat.zero_le _)).mp h) (Nat.not_lt_zero n)

/-- Under a mask of at least one bit, numbers are consecutive if and only if the second is the
increment of the first; under no mask at all none are. -/
theorem snConsecutive_iff_snIncrement (hk : k ≤ 64) (ha : a ≤ snResolution k)
    (hb : b ≤ snResolution k) : snConsecutive (snResolution k) a b = true ↔
      snResolution k ≠ 0 ∧ b = snIncrement (snResolution k) a := by
  rw [snConsecutive, beq_iff_eq, ← UInt64.toNat_inj, UInt64.toNat_one]
  rcases Nat.eq_zero_or_pos k with rfl | hpos
  · have hzero : snResolution 0 = 0 := by decide
    rw [toNat_and_snResolution hk, Nat.pow_zero, Nat.mod_one, hzero]
    simp
  · have htwo : 1 < 2 ^ k := Nat.one_lt_two_pow (by omega)
    have hne : snResolution k ≠ 0 := by
      rw [Ne, ← UInt64.toNat_inj, toNat_snResolution hk, UInt64.toNat_zero]
      omega
    rw [toNat_snDistance_eq_iff hk ha hb htwo]
    exact ⟨fun h ↦ ⟨hne, h⟩, fun h ↦ h.2⟩

end Circle

/-- Sequence numbers turn on a circle, and one precedes another when at most half of it lies
between them. -/
theorem sequenceNumber_arithmetic {k : ℕ} (hk : k ≤ 64) :
    (∃ turn : Equiv.Perm { sn : UInt64 // sn ≤ snResolution k },
      (∀ sn, (turn sn).val = snIncrement (snResolution k) sn.val) ∧
        ∀ sn, (turn.symm sn).val = snDecrement (snResolution k) sn.val) ∧
      (∀ a b, a ≤ snResolution k → b ≤ snResolution k → (snPrecedes (snResolution k) a b = true ↔
          ∃ n, 1 ≤ n ∧ n ≤ (snHalf (snResolution k)).toNat ∧
            b = (snIncrement (snResolution k))^[n] a) ∧
        (snPrecedes (snResolution k) a b = true → snPrecedes (snResolution k) b a = false) ∧
        (snConsecutive (snResolution k) a b = true ↔
          snResolution k ≠ 0 ∧ b = snIncrement (snResolution k) a)) ∧
      (∀ a, a ≤ snResolution k → snPrecedes (snResolution k) a a = false) ∧
      ∀ start, start ≤ snResolution k → ∀ i j l, i ≤ (snHalf (snResolution k)).toNat →
        j ≤ (snHalf (snResolution k)).toNat → l ≤ (snHalf (snResolution k)).toNat →
        snPrecedes (snResolution k) ((snIncrement (snResolution k))^[i] start)
          ((snIncrement (snResolution k))^[j] start) = true →
        snPrecedes (snResolution k) ((snIncrement (snResolution k))^[j] start)
          ((snIncrement (snResolution k))^[l] start) = true →
        snPrecedes (snResolution k) ((snIncrement (snResolution k))^[i] start)
          ((snIncrement (snResolution k))^[l] start) = true := by
  refine ⟨⟨snTurn hk, fun _ ↦ rfl, fun _ ↦ rfl⟩, ?_, fun a ↦ snPrecedes_self hk, ?_⟩
  · intro a b ha hb
    exact ⟨snPrecedes_iff_iterate hk ha hb, snPrecedes_asymm hk ha hb,
      snConsecutive_iff_snIncrement hk ha hb⟩
  · intro start hstart i j l hi hj hl hij hjl
    have hlt := (snPrecedes_iterate hk hstart hi hj).mp hij
    have hlt' := (snPrecedes_iterate hk hstart hj hl).mp hjl
    exact (snPrecedes_iterate hk hstart hi hl).mpr (hlt.trans hlt')

/-- The resolution announced with `0x02` has 28 bits; around its largest number the circle closes. -/
theorem sequenceNumber_arithmetic_28 : (28 ≤ 64) ∧
    (∃ turn : Equiv.Perm { sn : UInt64 // sn ≤ snResolution 28 },
      (∀ sn, (turn sn).val = snIncrement (snResolution 28) sn.val) ∧
        ∀ sn, (turn.symm sn).val = snDecrement (snResolution 28) sn.val) ∧
    (∃ n, 1 ≤ n ∧ n ≤ (snHalf (snResolution 28)).toNat ∧
      1 = (snIncrement (snResolution 28))^[n] (snResolution 28)) ∧
    snPrecedes (snResolution 28) 1 (snResolution 28) = false ∧
    snConsecutive (snResolution 28) (snResolution 28) 0 = true ∧
    snPrecedes (snResolution 28) 1 1 = false ∧
    snPrecedes (snResolution 28) (snResolution 28)
      ((snIncrement (snResolution 28))^[2] (snResolution 28)) = true := by
  obtain ⟨hturn, hpair, hself, htrans⟩ := sequenceNumber_arithmetic (k := 28) (by decide)
  obtain ⟨hprecedes, hasymm, -⟩ := hpair (snResolution 28) 1 (by decide) (by decide)
  have hconsecutive := (hpair (snResolution 28) 0 (by decide) (by decide)).2.2
  exact ⟨by decide, hturn, hprecedes.mp (by decide), hasymm (by decide),
    hconsecutive.mpr ⟨by decide, by decide⟩, hself 1 (by decide),
    htrans (snResolution 28) (by decide) 0 1 2 (by decide) (by decide) (by decide) (by decide)
      (by decide)⟩

/-- Under no mask the only number is its own increment, and yet not consecutive to itself. -/
theorem not_snConsecutive_of_no_bits : ¬ ∀ k ≤ 64, ∀ a b, a ≤ snResolution k → b ≤ snResolution k →
      (snConsecutive (snResolution k) a b = true ↔ b = snIncrement (snResolution k) a) := by
  intro h
  have hzero := h 0 (by decide) 0 0 (by decide) (by decide)
  exact absurd (hzero.mpr (by decide)) (by decide)

end ZenohPico.Transport
