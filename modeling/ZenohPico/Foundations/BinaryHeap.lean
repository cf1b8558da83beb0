import Mathlib.Data.List.Perm.Basic
import Mathlib.Order.Lattice
import Mathlib.Tactic.Common

/-!
Binary heaps over a list in level order, with a key that may change while an element is in the
heap. No order of the heap is assumed: what is kept for an element is a bound on the keys of its
path to the root (`PathBound`). As long as the key of an element does not grow, nothing that the
heap does raises the bound, so the root is under the bound of every element.
-/

open List Option

namespace ZenohPico.Foundations

variable {α κ : Type*} [LinearOrder κ]

/-! ### The operations -/

/-- The element at `i` comes before the one at `j`; a position behind the end comes before none. -/
def before (key : α → κ) (h : List α) (i j : ℕ) : Bool :=
  match h[i]?, h[j]? with
  | some a, some b => key a < key b
  | _, _ => false

theorem before_eq_true_iff {key : α → κ} {h : List α} {i j : ℕ} :
    before key h i j = true ↔ ∃ a b, h[i]? = some a ∧ h[j]? = some b ∧ key a < key b := by
  rw [before]
  split
  · next a b ha hb => simp [ha, hb]
  · next hnone =>
    refine ⟨fun hfalse ↦ absurd hfalse Bool.false_ne_true, fun ⟨a, b, ha, hb, _⟩ ↦ ?_⟩
    exact absurd hb (hnone a b ha)

theorem lt_length_of_before {key : α → κ} {h : List α} {i j : ℕ} (hbefore : before key h i j) :
    i < h.length ∧ j < h.length := by
  obtain ⟨a, b, ha, hb, -⟩ := before_eq_true_iff.mp hbefore
  exact ⟨(List.getElem?_eq_some_iff.mp ha).1, (List.getElem?_eq_some_iff.mp hb).1⟩

/-- Sifts the element at `i` up. -/
def siftUp (key : α → κ) (h : List α) (i : ℕ) : List α :=
  if 0 < i ∧ before key h i ((i - 1) / 2) then siftUp key (h.swap i ((i - 1) / 2)) ((i - 1) / 2)
  else h
termination_by i
decreasing_by omega

/-- The first of the children of `i` to come, or `i` itself -/
def bestOf (key : α → κ) (h : List α) (i : ℕ) : ℕ :=
  let best := if before key h (2 * i + 1) i then 2 * i + 1 else i
  if before key h (2 * i + 2) best then 2 * i + 2 else best

theorem bestOf_cases (key : α → κ) (h : List α) (i : ℕ) :
    bestOf key h i = i ∨ (i < bestOf key h i ∧ (bestOf key h i - 1) / 2 = i ∧
      before key h (bestOf key h i) i) := by
  rw [bestOf]
  by_cases hleft : before key h (2 * i + 1) i
  · rw [if_pos hleft]
    by_cases hright : before key h (2 * i + 2) (2 * i + 1)
    · rw [if_pos hright]
      refine .inr ⟨by omega, by omega, ?_⟩
      obtain ⟨a, b, ha, hb, hab⟩ := before_eq_true_iff.mp hright
      obtain ⟨b', c, hb', hc, hbc⟩ := before_eq_true_iff.mp hleft
      obtain rfl : b = b' := some.inj (hb.symm.trans hb')
      exact before_eq_true_iff.mpr ⟨a, c, ha, hc, hab.trans hbc⟩
    · rw [if_neg hright]
      exact .inr ⟨by omega, by omega, hleft⟩
  · rw [if_neg hleft]
    by_cases hright : before key h (2 * i + 2) i
    · rw [if_pos hright]
      exact .inr ⟨by omega, by omega, hright⟩
    · rw [if_neg hright]
      exact .inl rfl

/-- Sifts the element at `i` down. -/
def siftDown (key : α → κ) (h : List α) (i : ℕ) : List α :=
  if _hbest : bestOf key h i = i then h else siftDown key (h.swap i (bestOf key h i)) (bestOf key h i)
termination_by h.length - i
decreasing_by
  obtain heq | ⟨hlt, -, hbefore⟩ := bestOf_cases key h i
  · exact absurd heq _hbest
  · have hlen := (lt_length_of_before hbefore).1
    rw [length_swap]
    omega

/-- Adds an element. -/
def heapPush (key : α → κ) (h : List α) (a : α) : List α := siftUp key (h ++ [a]) h.length

/-- Takes the root. -/
def heapPop (key : α → κ) : List α → Option (α × List α)
  | [] => none
  | root :: rest =>
    match rest.getLast? with
    | none => some (root, [])
    | some last => some (root, siftDown key (last :: rest.dropLast) 0)

/-! ### The elements -/

theorem siftUp_perm (key : α → κ) (h : List α) (i : ℕ) : (siftUp key h i).Perm h := by
  induction h, i using siftUp.induct key with
  | case1 h i hup ih =>
    rw [siftUp, if_pos hup]
    exact ih.trans (swap_perm ..)
  | case2 h i hup =>
    rw [siftUp, if_neg hup]

theorem siftDown_perm (key : α → κ) (h : List α) (i : ℕ) : (siftDown key h i).Perm h := by
  induction h, i using siftDown.induct key with
  | case1 h i hbest => rw [siftDown, dif_pos hbest]
  | case2 h i hbest ih =>
    rw [siftDown, dif_neg hbest]
    exact ih.trans (swap_perm ..)

theorem heapPush_perm (key : α → κ) (h : List α) (a : α) : (heapPush key h a).Perm (a :: h) :=
  (siftUp_perm key _ _).trans (perm_append_singleton a h)

theorem heapPop_perm {key : α → κ} {h rest : List α} {root : α}
    (hpop : heapPop key h = some (root, rest)) : h.head? = some root ∧ (root :: rest).Perm h := by
  cases h with
  | nil => cases hpop
  | cons a tail =>
    rw [heapPop] at hpop
    split at hpop
    · next hlast =>
      obtain ⟨rfl, rfl⟩ := Prod.mk.inj (some.inj hpop)
      exact ⟨rfl, by rw [List.getLast?_eq_none_iff.mp hlast]⟩
    · next last hlast =>
      obtain ⟨rfl, rfl⟩ := Prod.mk.inj (some.inj hpop)
      refine ⟨rfl, List.Perm.cons _ ((siftDown_perm key _ 0).trans ?_)⟩
      have hsplit : tail.dropLast ++ [last] = tail :=
        dropLast_append_getLast? last hlast
      calc (last :: tail.dropLast).Perm (tail.dropLast ++ [last]) :=
            (perm_append_singleton ..).symm
        _ = tail := hsplit

theorem heapPop_of_head {key : α → κ} {h : List α} {root : α} (hhead : h.head? = some root) :
    ∃ rest, heapPop key h = some (root, rest) := by
  cases h with
  | nil => cases hhead
  | cons a tail =>
    obtain rfl := some.inj hhead
    rw [heapPop]
    split
    · exact ⟨_, rfl⟩
    · exact ⟨_, rfl⟩

/-! ### Paths to the root -/

/-- `Above j i` is that `j` is `i` or one of the positions above it. -/
inductive Above (j : ℕ) : ℕ → Prop
  | self : Above j j
  | up {i : ℕ} (hpos : 0 < i) (h : Above j ((i - 1) / 2)) : Above j i

theorem Above.le {j i : ℕ} (h : Above j i) : j ≤ i := by
  induction h with
  | self => exact Nat.le_refl j
  | up hpos _ ih => omega

theorem Above.trans {k j i : ℕ} (hkj : Above k j) (hji : Above j i) : Above k i := by
  induction hji with
  | self => exact hkj
  | up hpos _ ih => exact .up hpos ih

theorem Above.root (i : ℕ) : Above 0 i := by
  induction i using Nat.strongRecOn with
  | ind i ih =>
    rcases Nat.eq_zero_or_pos i with rfl | hpos
    · exact .self
    · exact .up hpos (ih _ (by omega))

theorem Above.parent {i : ℕ} (hpos : 0 < i) : Above ((i - 1) / 2) i := .up hpos .self

/-- A position with another one below it has a child on the way there. -/
theorem Above.child {j i : ℕ} (h : Above j i) (hne : j ≠ i) :
    ∃ k, 0 < k ∧ (k - 1) / 2 = j ∧ Above k i := by
  induction h with
  | self => exact absurd rfl hne
  | up hpos h ih =>
    rename_i i
    by_cases hparent : j = (i - 1) / 2
    · exact ⟨i, hpos, hparent.symm, .self⟩
    · obtain ⟨k, hk, hkj, habove⟩ := ih hparent
      exact ⟨k, hk, hkj, .up hpos habove⟩

/-- The elements on the path of a position are under a bound. -/
def LowPath (key : α → κ) (bound : κ) (h : List α) (i : ℕ) : Prop :=
  ∀ j, Above j i → ∀ a, h[j]? = some a → key a ≤ bound

/-- An element of the heap has a path under a bound. -/
def PathBound (key : α → κ) (bound : κ) (h : List α) (c : α) : Prop :=
  ∃ i, h[i]? = some c ∧ LowPath key bound h i

theorem PathBound.mem {key : α → κ} {bound : κ} {h : List α} {c : α}
    (hc : PathBound key bound h c) : c ∈ h :=
  let ⟨_, hi, _⟩ := hc
  mem_of_getElem? hi

theorem PathBound.root_le {key : α → κ} {bound : κ} {h : List α} {c root : α}
    (hc : PathBound key bound h c) (hroot : h.head? = some root) : key root ≤ bound := by
  obtain ⟨i, -, hlow⟩ := hc
  exact hlow 0 (.root i) root (List.head?_eq_getElem? ▸ hroot)

theorem PathBound.of_forall {key : α → κ} {bound : κ} {h : List α} {c : α} (hc : c ∈ h)
    (hbound : ∀ a ∈ h, key a ≤ bound) : PathBound key bound h c := by
  obtain ⟨i, hi⟩ := mem_iff_getElem?.mp hc
  exact ⟨i, hi, fun _ _ a ha ↦ hbound a (mem_of_getElem? ha)⟩

/-- Keys may fall. -/
theorem PathBound.mono {key key' : α → κ} {bound : κ} {h : List α} {c : α}
    (hc : PathBound key bound h c) (hkey : ∀ a ∈ h, key' a ≤ key a) : PathBound key' bound h c := by
  obtain ⟨i, hi, hlow⟩ := hc
  exact ⟨i, hi, fun j hj a ha ↦ (hkey a (mem_of_getElem? ha)).trans (hlow j hj a ha)⟩

/-! ### Sifting keeps the paths -/

section Swap

variable {key : α → κ} {bound : κ} {h : List α} {c : α} {k p : ℕ}

/-- What is at a position after a swap -/
theorem getElem?_swap_cases {i j : ℕ} (hi : i < h.length) (hj : j < h.length) (n : ℕ) :
    (n = i ∧ (h.swap i j)[n]? = h[j]?) ∨ (n = j ∧ (h.swap i j)[n]? = h[i]?) ∨
      (n ≠ i ∧ n ≠ j ∧ (h.swap i j)[n]? = h[n]?) := by
  rw [swap_eq_of_lt hi hj]
  by_cases hni : n = i
  · subst hni
    refine .inl ⟨rfl, ?_⟩
    by_cases hnj : j = n
    · subst hnj
      simp [hi]
    · simp [hnj, hi, hj]
  · by_cases hnj : n = j
    · subst hnj
      refine .inr (.inl ⟨rfl, ?_⟩)
      simp [hi, hj]
    · refine .inr (.inr ⟨hni, hnj, ?_⟩)
      simp [Ne.symm hni, Ne.symm hnj]

/-- A child that comes before its parent takes its place. -/
theorem PathBound.swap (hc : PathBound key bound h c) (hk : 0 < k)
    (hbefore : before key h k ((k - 1) / 2)) : PathBound key bound (h.swap k ((k - 1) / 2)) c := by
  obtain ⟨i, hi, hlow⟩ := hc
  obtain ⟨a, b, ha, hb, hab⟩ := before_eq_true_iff.mp hbefore
  obtain ⟨hklen, hplen⟩ := lt_length_of_before hbefore
  have hcases := getElem?_swap_cases hklen hplen
  -- wherever the path goes, what it meets is no later than what it met before
  have hpath : ∀ n, Above n i → ∀ x, (h.swap k ((k - 1) / 2))[n]? = some x → key x ≤ bound := by
    intro n hn x hx
    rcases hcases n with ⟨rfl, heq⟩ | ⟨rfl, heq⟩ | ⟨-, -, heq⟩
    · exact hlow _ ((Above.parent hk).trans hn) x (heq ▸ hx)
    · obtain rfl : a = x := some.inj (ha.symm.trans (heq ▸ hx))
      exact hab.le.trans (hlow _ hn b hb)
    · exact hlow n hn x (heq ▸ hx)
  rcases hcases i with ⟨rfl, -⟩ | ⟨rfl, -⟩ | ⟨hik, hip, heq⟩
  · -- the element itself goes up
    refine ⟨(i - 1) / 2, ?_, fun n hn ↦ hpath n (hn.trans (Above.parent hk))⟩
    rcases hcases ((i - 1) / 2) with ⟨hself, -⟩ | ⟨-, heq⟩ | ⟨-, hne, -⟩
    · omega
    · rwa [heq]
    · exact absurd rfl hne
  · -- the element itself goes down
    have hnew : (h.swap k ((k - 1) / 2))[k]? = some c := by
      rcases hcases k with ⟨-, heq⟩ | ⟨hself, -⟩ | ⟨hne, -, -⟩
      · rwa [heq]
      · omega
      · exact absurd rfl hne
    refine ⟨k, hnew, fun n hn x hx ↦ ?_⟩
    rcases hn with _ | ⟨-, hn⟩
    · obtain rfl : c = x := some.inj (hnew.symm.trans hx)
      exact hlow _ .self c hi
    · exact hpath n hn x hx
  · exact ⟨i, heq.trans hi, hpath⟩

theorem PathBound.siftUp (hc : PathBound key bound h c) (i : ℕ) :
    PathBound key bound (siftUp key h i) c := by
  induction h, i using siftUp.induct key with
  | case1 h i hup ih =>
    rw [Foundations.siftUp, if_pos hup]
    exact ih (hc.swap hup.1 hup.2)
  | case2 h i hup =>
    rw [Foundations.siftUp, if_neg hup]
    exact hc

theorem PathBound.push (hc : PathBound key bound h c) (a : α) :
    PathBound key bound (heapPush key h a) c := by
  obtain ⟨i, hi, hlow⟩ := hc
  have hlen := (List.getElem?_eq_some_iff.mp hi).1
  have happend : ∀ j, Above j i → (h ++ [a])[j]? = h[j]? := fun j hj ↦
    List.getElem?_append_left (Nat.lt_of_le_of_lt hj.le hlen)
  refine PathBound.siftUp ⟨i, (happend i .self).trans hi, fun j hj x hx ↦ ?_⟩ _
  exact hlow j hj x (happend j hj ▸ hx)

theorem swap_bestOf {i : ℕ} (hne : bestOf key h i ≠ i) :
    h.swap i (bestOf key h i) = h.swap (bestOf key h i) ((bestOf key h i - 1) / 2) ∧
      0 < bestOf key h i ∧ before key h (bestOf key h i) ((bestOf key h i - 1) / 2) := by
  obtain heq | ⟨hlt, hparent, hbefore⟩ := bestOf_cases key h i
  · exact absurd heq hne
  · rw [hparent]
    exact ⟨swap_comm, by omega, hbefore⟩

theorem PathBound.siftDown (hc : PathBound key bound h c) (i : ℕ) :
    PathBound key bound (siftDown key h i) c := by
  induction h, i using siftDown.induct key with
  | case1 h i hbest =>
    rw [Foundations.siftDown, dif_pos hbest]
    exact hc
  | case2 h i hbest ih =>
    rw [Foundations.siftDown, dif_neg hbest]
    obtain ⟨hswap, hpos, hbefore⟩ := swap_bestOf hbest
    refine ih ?_
    rw [hswap]
    exact hc.swap hpos hbefore

/-- The best of a position and its children is not after any of the children. -/
theorem key_bestOf_le {i k : ℕ} (hk : 0 < k) (hparent : (k - 1) / 2 = i) {a x : α}
    (ha : h[k]? = some a) (hx : h[bestOf key h i]? = some x) : key x ≤ key a := by
  have hkind : k = 2 * i + 1 ∨ k = 2 * i + 2 := by omega
  have hnot : ∀ {m n : ℕ} {y z : α}, h[m]? = some y → h[n]? = some z →
      ¬ before key h m n = true → key z ≤ key y := by
    intro m n y z hy hz hb
    exact not_lt.mp fun hlt ↦ hb (before_eq_true_iff.mpr ⟨y, z, hy, hz, hlt⟩)
  have hyes : ∀ {m n : ℕ} {y z : α}, h[m]? = some y → h[n]? = some z →
      before key h m n = true → key y ≤ key z := by
    intro m n y z hy hz hb
    obtain ⟨y', z', hy', hz', hlt⟩ := before_eq_true_iff.mp hb
    obtain rfl : y = y' := some.inj (hy.symm.trans hy')
    obtain rfl : z = z' := some.inj (hz.symm.trans hz')
    exact hlt.le
  rw [bestOf] at hx
  by_cases hleft : before key h (2 * i + 1) i
  · simp only [if_pos hleft] at hx
    by_cases hright : before key h (2 * i + 2) (2 * i + 1)
    · rw [if_pos hright] at hx
      rcases hkind with rfl | rfl
      · exact hyes hx ha hright
      · exact (congrArg key (some.inj (hx.symm.trans ha))).le
    · rw [if_neg hright] at hx
      rcases hkind with rfl | rfl
      · exact (congrArg key (some.inj (hx.symm.trans ha))).le
      · exact hnot ha hx hright
  · simp only [if_neg hleft] at hx
    by_cases hright : before key h (2 * i + 2) i
    · rw [if_pos hright] at hx
      rcases hkind with rfl | rfl
      · obtain ⟨y, z, hy, hz, hlt⟩ := before_eq_true_iff.mp hright
        obtain rfl : y = x := some.inj (hy.symm.trans hx)
        exact hlt.le.trans (hnot ha hz hleft)
      · exact (congrArg key (some.inj (hx.symm.trans ha))).le
    · rw [if_neg hright] at hx
      rcases hkind with rfl | rfl
      · exact hnot ha hx hleft
      · exact hnot ha hx hright

/-- The element at `p` may be over the bound: it was put there to be sifted down. -/
def PathBoundBut (key : α → κ) (bound : κ) (h : List α) (p : ℕ) (c : α) : Prop :=
  ∃ i, i ≠ p ∧ h[i]? = some c ∧ ∀ j, Above j i → j ≠ p → ∀ a, h[j]? = some a → key a ≤ bound

/-- Where nothing under the element remains to be compared, the bound holds. -/
theorem PathBoundBut.of_bestOf (hc : PathBoundBut key bound h p c) (hbest : bestOf key h p = p) :
    PathBound key bound h c := by
  obtain ⟨i, hip, hi, hlow⟩ := hc
  refine ⟨i, hi, fun j hj a ha ↦ ?_⟩
  by_cases hjp : j = p
  · subst hjp
    obtain ⟨m, hm, hmj, hmi⟩ := hj.child (Ne.symm hip)
    have hmlen : m < h.length :=
      Nat.lt_of_le_of_lt hmi.le (List.getElem?_eq_some_iff.mp hi).1
    have hmem : h[m]? = some h[m] := List.getElem?_eq_getElem hmlen
    have hle := key_bestOf_le hm hmj hmem (hbest.symm ▸ ha)
    exact hle.trans (hlow m hmi (by omega) _ hmem)
  · exact hlow j hj hjp a ha

/-- The element that is sifted down leaves the path, or stays over the bound on it. -/
theorem PathBoundBut.swap (hc : PathBoundBut key bound h p c) (hbest : bestOf key h p ≠ p) :
    PathBound key bound (h.swap p (bestOf key h p)) c ∨
      PathBoundBut key bound (h.swap p (bestOf key h p)) (bestOf key h p) c := by
  obtain ⟨i, hip, hi, hlow⟩ := hc
  obtain ⟨hswap, hpos, hup⟩ := swap_bestOf hbest
  obtain heq | ⟨hlt, -, hbefore⟩ := bestOf_cases key h p
  · exact absurd heq hbest
  obtain ⟨hblen, hplen⟩ := lt_length_of_before hbefore
  have hcases := getElem?_swap_cases hplen hblen
  have hxbest : h[bestOf key h p]? = some h[bestOf key h p] := List.getElem?_eq_getElem hblen
  by_cases habove : Above p i
  · obtain ⟨m, hm, hmp, hmi⟩ := habove.child (Ne.symm hip)
    have hmlen : m < h.length :=
      Nat.lt_of_le_of_lt hmi.le (List.getElem?_eq_some_iff.mp hi).1
    have hmem : h[m]? = some h[m] := List.getElem?_eq_getElem hmlen
    -- what comes up to `p` is no later than the child on the path
    have hcomes : key h[bestOf key h p] ≤ bound :=
      (key_bestOf_le hm hmp hmem hxbest).trans (hlow m hmi (by omega) _ hmem)
    have hpath : ∀ j, Above j i → j ≠ bestOf key h p → ∀ a,
        (h.swap p (bestOf key h p))[j]? = some a → key a ≤ bound := by
      intro j hj hjb a ha
      rcases hcases j with ⟨-, heq⟩ | ⟨hself, -⟩ | ⟨hjp, -, heq⟩
      · obtain rfl := some.inj ((heq.symm.trans ha).symm.trans hxbest)
        exact hcomes
      · exact absurd hself hjb
      · exact hlow j hj hjp a (heq ▸ ha)
    rcases hcases i with ⟨hself, -⟩ | ⟨hself, -⟩ | ⟨-, hib, heq⟩
    · exact absurd hself hip
    · -- the element is the one that comes up
      refine .inl ⟨p, ?_, fun j hj ↦ hpath j (hj.trans habove) ?_⟩
      · rcases hcases p with ⟨-, heq⟩ | ⟨hpb, -⟩ | ⟨hne, -, -⟩
        · rw [heq, ← hself, hi]
        · exact absurd hpb.symm hbest
        · exact absurd rfl hne
      · have := hj.le
        omega
    · exact .inr ⟨i, hib, heq.trans hi, hpath⟩
  · have hfull : PathBound key bound h c :=
      ⟨i, hi, fun j hj ↦ hlow j hj fun hjp ↦ habove (hjp ▸ hj)⟩
    rw [hswap]
    exact .inl (hfull.swap hpos hup)

theorem PathBoundBut.siftDown (hc : PathBoundBut key bound h p c) :
    PathBound key bound (siftDown key h p) c := by
  induction h, p using siftDown.induct key with
  | case1 h p hbest =>
    rw [Foundations.siftDown, dif_pos hbest]
    exact hc.of_bestOf hbest
  | case2 h p hbest ih =>
    rw [Foundations.siftDown, dif_neg hbest]
    rcases hc.swap hbest with hfull | hbut
    · exact hfull.siftDown _
    · exact ih hbut

/-- An element that is not the root keeps its bound when the root goes. -/
theorem PathBound.pop (hc : PathBound key bound h c) {root : α} {rest : List α}
    (hpop : heapPop key h = some (root, rest)) (hne : c ≠ root) : PathBound key bound rest c := by
  cases h with
  | nil => cases hpop
  | cons a tail =>
    obtain ⟨i, hi, hlow⟩ := hc
    obtain rfl : a = root := some.inj (heapPop_perm hpop).1
    obtain ⟨i, rfl⟩ : ∃ n, i = n + 1 := by
      refine Nat.exists_eq_succ_of_ne_zero fun hzero ↦ ?_
      subst hzero
      exact hne (some.inj hi).symm
    rw [List.getElem?_cons_succ] at hi
    rw [heapPop] at hpop
    split at hpop
    · next hlast =>
      rw [List.getLast?_eq_none_iff.mp hlast] at hi
      cases hi
    · next last hlast =>
      obtain ⟨-, rfl⟩ := Prod.mk.inj (some.inj hpop)
      have hsplit : tail.dropLast ++ [last] = tail := dropLast_append_getLast? last hlast
      have hlen : tail.length = tail.dropLast.length + 1 := by
        conv_lhs => rw [← hsplit, length_append, length_singleton]
      have htail : i < tail.length := (List.getElem?_eq_some_iff.mp hi).1
      by_cases hlastpos : i = tail.dropLast.length
      · -- the element is the last one, and goes to the root
        have hclast : last = c := by
          rw [← hsplit, hlastpos, List.getElem?_append_right (Nat.le_refl _), Nat.sub_self] at hi
          exact some.inj hi
        subst hclast
        refine PathBound.siftDown ⟨0, rfl, fun j hj x hx ↦ ?_⟩ 0
        obtain rfl := Nat.le_zero.mp hj.le
        obtain rfl := some.inj hx
        exact hlow _ .self _ (by rw [List.getElem?_cons_succ, hi])
      · have hkeep : ∀ n, n ≤ i → tail.dropLast[n]? = tail[n]? := by
          intro n hn
          conv_rhs => rw [← hsplit]
          exact (List.getElem?_append_left (by omega)).symm
        refine PathBoundBut.siftDown ⟨i + 1, Nat.succ_ne_zero i, ?_, fun j hj hj0 x hx ↦ ?_⟩
        · rw [List.getElem?_cons_succ, hkeep i (Nat.le_refl i), hi]
        · obtain ⟨n, rfl⟩ := Nat.exists_eq_succ_of_ne_zero hj0
          have hn : n ≤ i := Nat.le_of_succ_le_succ hj.le
          refine hlow (n + 1) hj x ?_
          rwa [Nat.succ_eq_add_one, List.getElem?_cons_succ, hkeep n hn] at hx

end Swap

/-! ### The element that is pushed -/

/-- On the way from `i` to the root, above an element that is no later than the bound there is none
that is later. -/
def ClearAbove (key : α → κ) (bound : κ) (h : List α) (i : ℕ) : Prop :=
  ∀ m < i, Above m i → ∀ n, Above n m → ∀ x y, h[m]? = some x → h[n]? = some y →
    key x ≤ bound → key y ≤ bound

section Push

variable {key : α → κ} {h : List α} {a : α}

theorem Above.parent_of_lt {m i : ℕ} (h : Above m i) (hlt : m < i) : Above m ((i - 1) / 2) := by
  rcases h with _ | ⟨-, h⟩
  · exact absurd hlt (Nat.lt_irrefl m)
  · exact h

/-- What a swap of a position with the one above it leaves -/
theorem getElem?_swap_parent {i : ℕ} (hi : h[i]? = some a) (hpos : 0 < i) :
    (h.swap i ((i - 1) / 2))[(i - 1) / 2]? = some a ∧
      ∀ n < (i - 1) / 2, (h.swap i ((i - 1) / 2))[n]? = h[n]? := by
  have hlen : i < h.length := (List.getElem?_eq_some_iff.mp hi).1
  have hcases := getElem?_swap_cases hlen (show (i - 1) / 2 < h.length by omega)
  constructor
  · rcases hcases ((i - 1) / 2) with ⟨hself, -⟩ | ⟨-, heq⟩ | ⟨-, hne, -⟩
    · omega
    · rw [heq, hi]
    · exact absurd rfl hne
  · intro n hn
    rcases hcases n with ⟨hself, -⟩ | ⟨hself, -⟩ | ⟨-, -, heq⟩
    · omega
    · omega
    · exact heq

theorem ClearAbove.congr {key' : α → κ} {bound : κ} {i : ℕ} (hclear : ClearAbove key bound h i)
    (hkey : ∀ x ∈ h, key' x = key x) : ClearAbove key' bound h i := by
  intro m hm habove n hn x y hx hy hle
  rw [hkey x (mem_of_getElem? hx)] at hle
  rw [hkey y (mem_of_getElem? hy)]
  exact hclear m hm habove n hn x y hx hy hle

/-- An element that is sifted up stops at the first one that is no later. -/
theorem ClearAbove.siftUp {i : ℕ} (hi : h[i]? = some a) (hclear : ClearAbove key (key a) h i) :
    PathBound key (key a) (siftUp key h i) a := by
  induction h, i using siftUp.induct key with
  | case1 h i hup ih =>
    rw [Foundations.siftUp, if_pos hup]
    obtain ⟨hnew, hkept⟩ := getElem?_swap_parent hi hup.1
    refine ih hnew fun m hm habove n hn x y hx hy hle ↦ ?_
    have hnm := hn.le
    rw [hkept m hm] at hx
    rw [hkept n (by omega)] at hy
    exact hclear m (by omega) (.up hup.1 habove) n hn x y hx hy hle
  | case2 h i hup =>
    rw [Foundations.siftUp, if_neg hup]
    refine ⟨i, hi, fun n hn y hy ↦ ?_⟩
    rcases Nat.eq_or_lt_of_le hn.le with rfl | hlt
    · exact (congrArg key (some.inj (hy.symm.trans hi))).le
    · -- the parent is where it stops
      have hpos : 0 < i := by omega
      have hlen : i < h.length := (List.getElem?_eq_some_iff.mp hi).1
      have hparent : h[(i - 1) / 2]? = some h[(i - 1) / 2] := List.getElem?_eq_getElem (by omega)
      have hle : key h[(i - 1) / 2] ≤ key a := not_lt.mp fun hbefore ↦
        hup ⟨hpos, before_eq_true_iff.mpr ⟨a, _, hi, hparent, hbefore⟩⟩
      exact hclear _ (by omega) (Above.parent hpos) n (hn.parent_of_lt hlt) _ y hparent hy hle

theorem clearAbove_append {bound : κ} :
    ClearAbove key bound (h ++ [a]) h.length ↔ ClearAbove key bound h h.length := by
  have hkept : ∀ m < h.length, (h ++ [a])[m]? = h[m]? := fun m hm ↦
    List.getElem?_append_left hm
  constructor
  · intro hclear m hm habove n hn x y hx hy
    have hnm := hn.le
    exact hclear m hm habove n hn x y ((hkept m hm).trans hx) ((hkept n (by omega)).trans hy)
  · intro hclear m hm habove n hn x y hx hy
    have hnm := hn.le
    exact hclear m hm habove n hn x y (hkept m hm ▸ hx) (hkept n (by omega) ▸ hy)

/-- An element does not pass one that is no later than it. -/
theorem siftUp_below {i m : ℕ} {x : α} (hi : h[i]? = some a) (hm : m < i) (habove : Above m i)
    (hx : h[m]? = some x) (hle : key x ≤ key a) : (∀ n ≤ m, (siftUp key h i)[n]? = h[n]?) ∧
      ∃ k, Above m k ∧ (siftUp key h i)[k]? = some a := by
  induction h, i using siftUp.induct key with
  | case1 h i hup ih =>
    rw [Foundations.siftUp, if_pos hup]
    obtain ⟨hnew, hkept⟩ := getElem?_swap_parent hi hup.1
    have hparent := habove.parent_of_lt hm
    have hlt : m < (i - 1) / 2 := by
      refine Nat.lt_of_le_of_ne hparent.le fun heq ↦ ?_
      obtain ⟨b, y, hb, hy, hlt⟩ := before_eq_true_iff.mp hup.2
      obtain rfl : a = b := some.inj (hi.symm.trans hb)
      obtain rfl : x = y := some.inj (hx.symm.trans (heq ▸ hy))
      exact absurd hle (not_le.mpr hlt)
    obtain ⟨hsame, hfound⟩ := ih hnew hlt hparent ((hkept m hlt).trans hx)
    exact ⟨fun n hn ↦ (hsame n hn).trans (hkept n (by omega)), hfound⟩
  | case2 h i hup =>
    rw [Foundations.siftUp, if_neg hup]
    exact ⟨fun _ _ ↦ rfl, i, habove, hi⟩

/-- An element that is pushed comes under no later one exactly if nothing hides one on its way. -/
theorem heapPush_pathBound_iff (hnodup : (a :: h).Nodup) :
    PathBound key (key a) (heapPush key h a) a ↔ ClearAbove key (key a) h h.length := by
  have hlast : (h ++ [a])[h.length]? = some a := by simp
  constructor
  · rintro ⟨i, hi, hlow⟩ m hm habove n hn x y hx hy hle
    have hmlen : (h ++ [a])[m]? = some x := (List.getElem?_append_left hm).trans hx
    obtain ⟨hsame, k, hmk, hk⟩ := siftUp_below hlast hm habove hmlen hle
    -- it is in one place only
    have hnodup' : (heapPush key h a).Nodup := (heapPush_perm key h a).nodup_iff.mpr hnodup
    obtain rfl : i = k := (List.getElem?_inj (List.getElem?_eq_some_iff.mp hi).1 hnodup').mp
      (hi.trans hk.symm)
    refine hlow n (hn.trans hmk) y ((hsame n hn.le).trans ?_)
    have hnm := hn.le
    exact (List.getElem?_append_left (by omega)).trans hy
  · intro hclear
    exact (clearAbove_append.mpr hclear).siftUp hlast

end Push

/-! ### Keys that do not change -/

section Ordered

variable {key : α → κ} {h : List α} {i : ℕ}

/-- No element comes before the one above it. -/
def HeapOrdered (key : α → κ) (h : List α) : Prop :=
  ∀ k, 0 < k → ∀ a b, h[k]? = some a → h[(k - 1) / 2]? = some b → key b ≤ key a

/-- The root of an ordered heap comes before all others, or with them. -/
theorem HeapOrdered.root_le (hord : HeapOrdered key h) {root a : α} (hroot : h.head? = some root)
    (ha : a ∈ h) : key root ≤ key a := by
  rw [List.head?_eq_getElem?] at hroot
  obtain ⟨k, hk⟩ := mem_iff_getElem?.mp ha
  clear ha
  induction k using Nat.strongRecOn generalizing a with
  | ind k ih =>
    rcases Nat.eq_zero_or_pos k with rfl | hpos
    · exact (congrArg key (some.inj (hroot.symm.trans hk))).le
    · have hlt : (k - 1) / 2 < h.length := by
        have := (List.getElem?_eq_some_iff.mp hk).1
        omega
      have hparent : h[(k - 1) / 2]? = some h[(k - 1) / 2] := List.getElem?_eq_getElem hlt
      exact (ih _ (by omega) hparent).trans (hord k hpos _ _ hk hparent)

/-- The heap is ordered but for `i`, which may come before its parent; what is below `i` does not
come before what is above it. -/
def OrderedUp (key : α → κ) (h : List α) (i : ℕ) : Prop :=
  (∀ k, 0 < k → k ≠ i → ∀ a b, h[k]? = some a → h[(k - 1) / 2]? = some b → key b ≤ key a) ∧
    ∀ k, 0 < k → (k - 1) / 2 = i → 0 < i → ∀ a b, h[k]? = some a →
      h[(i - 1) / 2]? = some b → key b ≤ key a

theorem OrderedUp.swap (hord : OrderedUp key h i) (hi : 0 < i)
    (hbefore : before key h i ((i - 1) / 2)) :
    OrderedUp key (h.swap i ((i - 1) / 2)) ((i - 1) / 2) := by
  obtain ⟨x, y, hx, hy, hxy⟩ := before_eq_true_iff.mp hbefore
  obtain ⟨hilen, hplen⟩ := lt_length_of_before hbefore
  have hcases := getElem?_swap_cases hilen hplen
  have hself : (h.swap i ((i - 1) / 2))[i]? = some y := by
    obtain ⟨-, heq⟩ | ⟨hne, -⟩ | ⟨hne, -, -⟩ := hcases i
    · rwa [heq]
    · omega
    · exact absurd rfl hne
  have hparent : (h.swap i ((i - 1) / 2))[(i - 1) / 2]? = some x := by
    obtain ⟨hne, -⟩ | ⟨-, heq⟩ | ⟨-, hne, -⟩ := hcases ((i - 1) / 2)
    · omega
    · rwa [heq]
    · exact absurd rfl hne
  have hother {k : ℕ} (hki : k ≠ i) (hkp : k ≠ (i - 1) / 2) :
      (h.swap i ((i - 1) / 2))[k]? = h[k]? := by
    obtain ⟨heq, -⟩ | ⟨heq, -⟩ | ⟨-, -, heq⟩ := hcases k
    · exact absurd heq hki
    · exact absurd heq hkp
    · exact heq
  constructor
  · intro k hk hkp a b ha hb
    by_cases hki : k = i
    · subst hki
      obtain rfl := some.inj (hself.symm.trans ha)
      obtain rfl := some.inj (hparent.symm.trans hb)
      exact hxy.le
    · rw [hother hki hkp] at ha
      by_cases hchild : (k - 1) / 2 = i
      · rw [hchild] at hb
        obtain rfl := some.inj (hself.symm.trans hb)
        exact hord.2 k hk hchild hi a y ha hy
      · by_cases hsibling : (k - 1) / 2 = (i - 1) / 2
        · rw [hsibling] at hb
          obtain rfl := some.inj (hparent.symm.trans hb)
          exact hxy.le.trans (hord.1 k hk hki a y ha (hsibling ▸ hy))
        · rw [hother hchild hsibling] at hb
          exact hord.1 k hk hki a b ha hb
  · intro k hk hkp hp a b ha hb
    rw [hother (by omega) (by omega)] at hb
    have habove := hord.1 _ hp (by omega) y b hy hb
    by_cases hki : k = i
    · subst hki
      obtain rfl := some.inj (hself.symm.trans ha)
      exact habove
    · rw [hother hki (by omega)] at ha
      exact habove.trans (hord.1 k hk hki a y ha (hkp ▸ hy))

theorem OrderedUp.siftUp (hord : OrderedUp key h i) : HeapOrdered key (siftUp key h i) := by
  induction h, i using siftUp.induct key with
  | case1 h i hup ih =>
    rw [Foundations.siftUp, if_pos hup]
    exact ih (hord.swap hup.1 hup.2)
  | case2 h i hup =>
    rw [Foundations.siftUp, if_neg hup]
    intro k hk a b ha hb
    by_cases hki : k = i
    · subst hki
      exact not_lt.mp fun hlt ↦ hup ⟨hk, before_eq_true_iff.mpr ⟨a, b, ha, hb, hlt⟩⟩
    · exact hord.1 k hk hki a b ha hb

theorem HeapOrdered.push (hord : HeapOrdered key h) (a : α) :
    HeapOrdered key (heapPush key h a) := by
  refine OrderedUp.siftUp ⟨fun k hk hne x y hx hy ↦ ?_, fun k hk hparent _ x y hx _ ↦ ?_⟩
  · have hlt : k < h.length := by
      have := (List.getElem?_eq_some_iff.mp hx).1
      rw [length_append, length_singleton] at this
      omega
    rw [List.getElem?_append_left hlt] at hx
    rw [List.getElem?_append_left (by omega)] at hy
    exact hord k hk x y hx hy
  · have := (List.getElem?_eq_some_iff.mp hx).1
    rw [length_append, length_singleton] at this
    omega

/-- The heap is ordered but for what is below `i`, which may come before it; it does not come
before what is above `i`. -/
def OrderedDown (key : α → κ) (h : List α) (i : ℕ) : Prop :=
  (∀ k, 0 < k → (k - 1) / 2 ≠ i → ∀ a b, h[k]? = some a → h[(k - 1) / 2]? = some b →
      key b ≤ key a) ∧ ∀ k, 0 < k → (k - 1) / 2 = i → 0 < i → ∀ a b, h[k]? = some a →
      h[(i - 1) / 2]? = some b → key b ≤ key a

theorem OrderedDown.swap (hord : OrderedDown key h i) (hbest : bestOf key h i ≠ i) :
    OrderedDown key (h.swap i (bestOf key h i)) (bestOf key h i) := by
  obtain heq | ⟨hlt, hparent, hbefore⟩ := bestOf_cases key h i
  · exact absurd heq hbest
  obtain ⟨x, y, hx, hy, hxy⟩ := before_eq_true_iff.mp hbefore
  obtain ⟨hblen, hilen⟩ := lt_length_of_before hbefore
  have hcases := getElem?_swap_cases hilen hblen
  have hself : (h.swap i (bestOf key h i))[i]? = some x := by
    obtain ⟨-, heq⟩ | ⟨hne, -⟩ | ⟨hne, -, -⟩ := hcases i
    · rwa [heq]
    · omega
    · exact absurd rfl hne
  have hchild : (h.swap i (bestOf key h i))[bestOf key h i]? = some y := by
    obtain ⟨hne, -⟩ | ⟨-, heq⟩ | ⟨-, hne, -⟩ := hcases (bestOf key h i)
    · omega
    · rwa [heq]
    · exact absurd rfl hne
  have hother {k : ℕ} (hki : k ≠ i) (hkb : k ≠ bestOf key h i) :
      (h.swap i (bestOf key h i))[k]? = h[k]? := by
    obtain ⟨heq, -⟩ | ⟨heq, -⟩ | ⟨-, -, heq⟩ := hcases k
    · exact absurd heq hki
    · exact absurd heq hkb
    · exact heq
  constructor
  · intro k hk hkb a b ha hb
    by_cases hbelow : (k - 1) / 2 = i
    · rw [hbelow] at hb
      obtain rfl := some.inj (hself.symm.trans hb)
      by_cases hkbest : k = bestOf key h i
      · rw [hkbest] at ha
        obtain rfl := some.inj (hchild.symm.trans ha)
        exact hxy.le
      · rw [hother (by omega) hkbest] at ha
        exact key_bestOf_le hk hbelow ha hx
    · rw [hother hbelow hkb] at hb
      by_cases hki : k = i
      · subst hki
        obtain rfl := some.inj (hself.symm.trans ha)
        exact hord.2 _ (by omega) hparent hk x b hx hb
      · have hkbest : k ≠ bestOf key h i := by
          rintro rfl
          exact hbelow hparent
        rw [hother hki hkbest] at ha
        exact hord.1 k hk hbelow a b ha hb
  · intro k hk hkb hb0 a b ha hb
    rw [hparent] at hb
    obtain rfl := some.inj (hself.symm.trans hb)
    rw [hother (by omega) (by omega)] at ha
    exact hord.1 k hk (by omega) a x ha (hkb ▸ hx)

theorem OrderedDown.siftDown (hord : OrderedDown key h i) : HeapOrdered key (siftDown key h i) := by
  induction h, i using siftDown.induct key with
  | case1 h i hbest =>
    rw [Foundations.siftDown, dif_pos hbest]
    intro k hk a b ha hb
    by_cases hbelow : (k - 1) / 2 = i
    · rw [hbelow] at hb
      exact key_bestOf_le hk hbelow ha (hbest.symm ▸ hb)
    · exact hord.1 k hk hbelow a b ha hb
  | case2 h i hbest ih =>
    rw [Foundations.siftDown, dif_neg hbest]
    exact ih (hord.swap hbest)

theorem HeapOrdered.pop {root : α} {rest : List α} (hord : HeapOrdered key h)
    (hpop : heapPop key h = some (root, rest)) : HeapOrdered key rest := by
  cases h with
  | nil => cases hpop
  | cons a tail =>
    rw [heapPop] at hpop
    split at hpop
    · obtain ⟨-, rfl⟩ := Prod.mk.inj (some.inj hpop)
      exact fun k hk a b ha ↦ by cases ha
    · next last hlast =>
      obtain ⟨-, rfl⟩ := Prod.mk.inj (some.inj hpop)
      have hold {k : ℕ} {x : α} (hk : 0 < k) (hx : (last :: tail.dropLast)[k]? = some x) :
          (a :: tail)[k]? = some x := by
        obtain ⟨j, rfl⟩ := Nat.exists_eq_succ_of_ne_zero hk.ne'
        rw [List.getElem?_cons_succ] at hx ⊢
        have hlt := (List.getElem?_eq_some_iff.mp hx).1
        rw [length_dropLast] at hlt
        rwa [List.getElem?_dropLast, if_pos hlt] at hx
      refine OrderedDown.siftDown ⟨fun k hk hne x y hx hy ↦ ?_, fun _ _ _ hlt ↦ ?_⟩
      · exact hord k hk x y (hold hk hx) (hold (Nat.pos_of_ne_zero hne) hy)
      · exact absurd hlt (Nat.lt_irrefl 0)

end Ordered

end ZenohPico.Foundations
