import ZenohPico.Foundations.Separators

/-!
The key `_anyke` among the parameters of a query (`src/utils/query_params.c`).

The search looks for the bytes of the key and then at their neighbours. After a place without the
right neighbours it goes on behind the byte that follows the key. Nothing is lost: the key does not
overlap itself, and a second key right behind a first one has no separator in front of it
(`AnykeAt.lt`).
-/

namespace ZenohPico.Session

open Foundations List

/-- `_Z_QUERY_PARAMS_LIST_SEPARATOR` -/
def listSeparator : UInt8 := 0x3B

/-- `_Z_QUERY_PARAMS_KEY_ANYKE` -/
def keyAnyke : List UInt8 := [0x5F, 0x61, 0x6E, 0x79, 0x6B, 0x65]

/-- `_z_memmem` -/
def memmem (haystack needle : List UInt8) : Option ℕ := firstPlace needle haystack

/-- The tests of both boundaries in `_z_parameters_has_anyke` -/
def anykeBoundaries (parameters : List UInt8) (pos : ℕ) : Bool :=
  (pos = 0 ∨ parameters[pos - 1]? = some listSeparator) ∧
    (pos + keyAnyke.length = parameters.length ∨
      parameters[pos + keyAnyke.length]? = some listSeparator)

/-- The loop of `_z_parameters_has_anyke` -/
def hasAnykeFrom (parameters : List UInt8) (start : ℕ) : Bool :=
  match memmem (parameters.drop start) keyAnyke with
  | none => false
  | some len =>
    if anykeBoundaries parameters (start + len) then true
    else if parameters.length < start + len + keyAnyke.length + 1 then false
    else hasAnykeFrom parameters (start + len + keyAnyke.length + 1)
termination_by parameters.length - start

/-- `_z_parameters_has_anyke` -/
def parametersHasAnyke (parameters : List UInt8) : Bool :=
  if parameters = [] then false else hasAnykeFrom parameters 0

/-- The key stands at a place of the parameters. -/
structure AnykeAt (parameters : List UInt8) (pos : ℕ) : Prop where
  key : keyAnyke <+: parameters.drop pos
  boundaries : anykeBoundaries parameters pos = true

variable {parameters : List UInt8} {pos i : ℕ}

theorem getElem?_of_key (h : keyAnyke <+: parameters.drop pos) {j : ℕ} (hj : j < keyAnyke.length) :
    parameters[pos + j]? = keyAnyke[j]? := by
  obtain ⟨after, hafter⟩ := h
  rw [← List.getElem?_drop, ← hafter, List.getElem?_append_left hj]

/-- The key and the byte behind it hold no other place. -/
theorem AnykeAt.lt (h : AnykeAt parameters i) (hpos : keyAnyke <+: parameters.drop pos)
    (hlt : pos < i) : pos + keyAnyke.length < i := by
  by_contra hle
  have hfirst : parameters[i]? = some 0x5F := getElem?_of_key h.key (j := 0) (by decide)
  obtain ⟨j, rfl⟩ := Nat.exists_eq_add_of_lt hlt
  have hlen : keyAnyke.length = 6 := rfl
  obtain hj | rfl : j < 5 ∨ j = 5 := by omega
  · -- the first letter of the key is none of its other ones
    rw [Nat.add_assoc, getElem?_of_key hpos (by omega)] at hfirst
    have hletters : ∀ k : Fin 5, keyAnyke[k.val + 1]? ≠ some 0x5F := by decide
    exact hletters ⟨j, hj⟩ hfirst
  · -- the last letter is no separator
    have hlast : parameters[pos + 5]? = some 0x65 := getElem?_of_key hpos (by decide)
    have hleft := (of_decide_eq_true h.boundaries).1
    rcases hleft with hzero | hsep
    · exact absurd hzero (Nat.succ_ne_zero _)
    · rw [Nat.add_sub_cancel, hlast] at hsep
      exact absurd hsep (by decide)

/-- After a place without the right neighbours, the next one is where the search goes on. -/
theorem AnykeAt.behind {start len : ℕ} (h : AnykeAt parameters i)
    (hsome : memmem (parameters.drop start) keyAnyke = some len)
    (hboundaries : ¬ anykeBoundaries parameters (start + len) = true) (hle : start ≤ i) :
    start + len + keyAnyke.length + 1 ≤ i := by
  obtain ⟨hkey, -, hfirst⟩ := firstPlace_eq_some_iff.mp hsome
  rw [drop_drop] at hkey
  rcases Nat.lt_trichotomy i (start + len) with hlt | rfl | hlt
  · have hat := h.key
    rw [← Nat.add_sub_of_le hle, ← drop_drop] at hat
    exact absurd hat (hfirst _ (by omega))
  · exact absurd h.boundaries hboundaries
  · exact h.lt hkey hlt

/-- The loop finds the key if it stands anywhere from its start on. -/
theorem hasAnykeFrom_iff (start : ℕ) :
    hasAnykeFrom parameters start = true ↔ ∃ i, start ≤ i ∧ AnykeAt parameters i := by
  induction start using hasAnykeFrom.induct parameters with
  | case1 start hnone =>
    rw [hasAnykeFrom, hnone]
    refine iff_of_false Bool.false_ne_true ?_
    rintro ⟨i, hle, hat⟩
    have hkey := hat.key
    rw [← Nat.add_sub_of_le hle, ← drop_drop] at hkey
    exact firstPlace_eq_none_iff.mp hnone _ hkey
  | case2 start len hsome hboundaries =>
    rw [hasAnykeFrom, hsome]
    refine iff_of_true (if_pos hboundaries) ⟨start + len, Nat.le_add_right _ _, ?_, hboundaries⟩
    rw [← drop_drop]
    exact (firstPlace_eq_some_iff.mp hsome).1
  | case3 start len hsome hboundaries hend =>
    rw [hasAnykeFrom, hsome]
    dsimp only
    rw [if_neg hboundaries, if_pos hend]
    refine iff_of_false Bool.false_ne_true ?_
    rintro ⟨i, hle, hat⟩
    have hbehind := hat.behind hsome hboundaries hle
    have hlen := hat.key.length_le
    rw [length_drop] at hlen
    have hsix : keyAnyke.length = 6 := rfl
    omega
  | case4 start len hsome hboundaries hend ih =>
    rw [hasAnykeFrom, hsome]
    dsimp only
    rw [if_neg hboundaries, if_neg hend, ih]
    constructor
    · rintro ⟨i, hle, hat⟩
      exact ⟨i, by omega, hat⟩
    · rintro ⟨i, hle, hat⟩
      exact ⟨i, hat.behind hsome hboundaries hle, hat⟩

/-- The boundaries, by what stands before and behind the key -/
theorem anykeBoundaries_append (before after : List UInt8) :
    anykeBoundaries (before ++ (keyAnyke ++ after)) before.length = true ↔
      (before = [] ∨ before.getLast? = some listSeparator) ∧
        (after = [] ∨ after.head? = some listSeparator) := by
  have hleft : (before.length = 0 ∨
      (before ++ (keyAnyke ++ after))[before.length - 1]? = some listSeparator) ↔
      (before = [] ∨ before.getLast? = some listSeparator) := by
    rw [length_eq_zero_iff]
    refine or_congr_right' fun hne ↦ ?_
    have hpos := length_pos_iff.mpr hne
    rw [List.getElem?_append_left (by omega), List.getLast?_eq_getElem?]
  have hright : (before.length + keyAnyke.length = (before ++ (keyAnyke ++ after)).length ∨
      (before ++ (keyAnyke ++ after))[before.length + keyAnyke.length]? = some listSeparator) ↔
      (after = [] ∨ after.head? = some listSeparator) := by
    rw [List.getElem?_append_right (Nat.le_add_right _ _), Nat.add_sub_cancel_left,
      List.getElem?_append_right (Nat.le_refl _), Nat.sub_self, ← List.head?_eq_getElem?,
      length_append, length_append, ← length_eq_zero_iff]
    refine or_congr_left ?_
    omega
  rw [anykeBoundaries, decide_eq_true_eq, hleft, hright]

/-- The key is one of the parameters if and only if it stands at one of their places. -/
theorem exists_anykeAt_iff :
    (∃ i, AnykeAt parameters i) ↔ keyAnyke ∈ parameters.splitOn listSeparator := by
  rw [mem_splitOn_iff (by decide)]
  constructor
  · rintro ⟨i, ⟨after, hafter⟩, hboundaries⟩
    have hle : i ≤ parameters.length := by
      have hlen := congrArg List.length hafter
      rw [length_append, length_drop] at hlen
      have hsix : keyAnyke.length = 6 := rfl
      omega
    have heq : parameters = parameters.take i ++ (keyAnyke ++ after) := by
      rw [hafter, take_append_drop]
    have hi : (parameters.take i).length = i := by rw [length_take, Nat.min_eq_left hle]
    refine ⟨parameters.take i, after, heq, (anykeBoundaries_append _ _).mp ?_⟩
    rwa [← heq, hi]
  · rintro ⟨before, after, rfl, hboundaries⟩
    refine ⟨before.length, ?_, (anykeBoundaries_append _ _).mpr hboundaries⟩
    rw [drop_left]
    exact prefix_append _ _

/-- The key is found if and only if it is one of the parameters, whatever the other ones hold of
it. -/
theorem parametersHasAnyke_iff (parameters : List UInt8) :
    parametersHasAnyke parameters = true ↔ keyAnyke ∈ parameters.splitOn listSeparator := by
  rw [parametersHasAnyke]
  split_ifs with hnil
  · rw [hnil]
    exact iff_of_false not_false (by decide)
  · rw [hasAnykeFrom_iff, ← exists_anykeAt_iff]
    simp only [Nat.zero_le, true_and]

end ZenohPico.Session
