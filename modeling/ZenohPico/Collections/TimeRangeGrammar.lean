import ZenohPico.Collections.TimeRange

/-!
Which strings are parsed as a time range.

A duration is `Right` when the parser and the grammar agree that it is one. The parser refuses a
zero, and it takes a text that only begins with a number. These two kinds of durations decide
whether the parser and the grammar agree on a whole string.
-/

namespace ZenohPico.Collections

open Foundations List Option

/-! ### Units -/

/-- The part of a duration before its unit -/
def numberOf (text : List UInt8) : List UInt8 :=
  text.take (text.length - (unitOf text).text.length)

/-- The unit by the last byte, and by the one before it for an 's' -/
theorem unitOf_concat (front : List UInt8) (c : UInt8) : unitOf (front ++ [c]) =
    if c = 0x75 then .u
    else if c = 0x73 then if front.getLast? = some 0x6d then .ms else .s
    else if c = 0x6d then .m
    else if c = 0x68 then .h
    else if c = 0x64 then .d
    else if c = 0x77 then .w
    else .none := by
  have hsecond : (1 < (front ++ [c]).length ∧
      (front ++ [c])[(front ++ [c]).length - 2]? = some 0x6d) ↔ front.getLast? = some 0x6d := by
    rw [length_append, length_singleton]
    rcases eq_nil_or_concat front with rfl | ⟨front, b, rfl⟩
    · simp
    · rw [concat_eq_append, List.getLast?_concat, length_append, length_singleton,
        List.getElem?_append_left (by simp)]
      simp
  simp only [unitOf, List.getLast?_concat, some.injEq, hsecond]

/-- A duration is its number with its unit behind it. -/
theorem numberOf_append_unitOf (text : List UInt8) :
    numberOf text ++ (unitOf text).text = text := by
  suffices h : (unitOf text).text <:+ text by
    obtain ⟨front, hfront⟩ := h
    have hlen := congrArg List.length hfront
    rw [length_append] at hlen
    rw [numberOf, ← hlen, Nat.add_sub_cancel]
    exact (congrArg (List.take front.length · ++ _) hfront.symm).trans (by
      rw [take_left, hfront])
  rcases eq_nil_or_concat text with rfl | ⟨front, c, rfl⟩
  · exact nil_suffix
  · rw [concat_eq_append, unitOf_concat]
    split_ifs with hu hs hms hm hh hd hw
    · subst hu; exact suffix_append _ _
    · subst hs
      obtain ⟨front', rfl⟩ := List.getLast?_eq_some_iff.mp hms
      exact ⟨front', by simp [TimeUnit.text]⟩
    · subst hs; exact suffix_append _ _
    · subst hm; exact suffix_append _ _
    · subst hh; exact suffix_append _ _
    · subst hd; exact suffix_append _ _
    · subst hw; exact suffix_append _ _
    · exact nil_suffix

/-- Behind a number, the unit is found. -/
theorem unitOf_append {number : List UInt8} (h : isDecimal number = true) (unit : TimeUnit) :
    unitOf (number ++ unit.text) = unit := by
  have hother {c : UInt8} (hc : ¬ IsNumeric c) : number.getLast? ≠ some c :=
    fun heq ↦ hc (isNumeric_of_isDecimal h c (mem_of_getLast? heq))
  cases unit with
  | none =>
    rcases eq_nil_or_concat number with rfl | ⟨front, c, rfl⟩
    · exact absurd h (by decide)
    · rw [concat_eq_append] at hother ⊢
      have hne {b : UInt8} (hb : ¬ IsNumeric b) : c ≠ b := by
        simpa using hother hb
      rw [TimeUnit.text, append_nil, unitOf_concat, if_neg (hne (by decide)),
        if_neg (hne (by decide)), if_neg (hne (by decide)), if_neg (hne (by decide)),
        if_neg (hne (by decide)), if_neg (hne (by decide))]
  | u => exact unitOf_concat number _
  | ms =>
    have hsplit : number ++ TimeUnit.ms.text = (number ++ [0x6d]) ++ [0x73] := by
      simp [TimeUnit.text]
    rw [hsplit, unitOf_concat, List.getLast?_concat]
    rfl
  | s =>
    refine (unitOf_concat number _).trans ?_
    rw [if_neg (by decide), if_pos rfl, if_neg (hother (by decide))]
  | m => exact unitOf_concat number _
  | h => exact unitOf_concat number _
  | d => exact unitOf_concat number _
  | w => exact unitOf_concat number _

/-! ### Durations -/

variable (D : Doubles)

/-- The duration that a text with a number stands for, before it is said to be finite -/
def secondsOf (number : List UInt8) (unit : TimeUnit) : D.Double :=
  D.mul (D.ofDecimal number) (D.toSecs unit)

/-- A number other than zero and a unit -/
def Right (text : List UInt8) : Prop :=
  isDecimal (numberOf text) = true ∧ D.isZero (D.ofDecimal (numberOf text)) = false ∧
    D.isInf (secondsOf D (numberOf text) (unitOf text)) = false

/-- A zero and a unit -/
def Zero (text : List UInt8) : Prop :=
  isDecimal (numberOf text) = true ∧ D.isZero (D.ofDecimal (numberOf text)) = true

/-- A number other than zero with something else before the unit -/
def Trailing (text : List UInt8) : Prop :=
  isDecimal (numberOf text) = false ∧ 0 < decimalLength (numberOf text) ∧
    D.isZero (D.ofDecimal ((numberOf text).take (decimalLength (numberOf text)))) = false ∧
    D.isInf (secondsOf D ((numberOf text).take (decimalLength (numberOf text)))
      (unitOf text)) = false

variable {text : List UInt8} {c : UInt8}

/-- The durations of the grammar -/
theorem isDuration_iff : IsDuration D text ↔ Right D text ∨ Zero D text := by
  have hunits : IsDuration D text ↔ isDecimal (numberOf text) = true ∧
      D.isInf (secondsOf D (numberOf text) (unitOf text)) = false := by
    constructor
    · rintro ⟨number, unit, rfl, hnumber, hinf⟩
      have hunit := unitOf_append hnumber unit
      have hsame : numberOf (number ++ unit.text) = number := by
        rw [numberOf, hunit, length_append, Nat.add_sub_cancel, take_left]
      rw [hsame, hunit]
      exact ⟨hnumber, hinf⟩
    · rintro ⟨hnumber, hinf⟩
      exact ⟨_, _, (numberOf_append_unitOf text).symm, hnumber, hinf⟩
  rw [hunits, Right, Zero]
  cases hzero : D.isZero (D.ofDecimal (numberOf text)) with
  | false => simp
  | true => simp [secondsOf, D.isInf_mul _ _ hzero]

/-- A byte that ends the text of a duration in memory -/
structure Ends (c : UInt8) : Prop where
  not_numeric : ¬ IsNumeric c
  ne_zero : c ≠ 0

theorem not_isNumeric_unit {unit : TimeUnit} {c : UInt8} (hc : c ∈ unit.text.head?) :
    ¬ IsNumeric c := by
  cases unit <;> simp [TimeUnit.text] at hc <;> subst hc <;> decide

/-- The number of a duration ends in memory where it ends in the text. -/
theorem decimalLength_mem {rest : List UInt8} (hc : Ends c) :
    decimalLength (text ++ c :: rest) = decimalLength (numberOf text) := by
  have hsplit := numberOf_append_unitOf text
  cases hunit : (unitOf text).text with
  | nil =>
    rw [hunit, append_nil] at hsplit
    rw [hsplit, decimalLength_append hc.not_numeric]
  | cons b bs =>
    have hb : ¬ IsNumeric b := @not_isNumeric_unit (unitOf text) b (by rw [hunit]; rfl)
    rw [hunit] at hsplit
    conv_lhs => rw [← hsplit]
    rw [append_assoc, cons_append, decimalLength_append hb]

theorem getD_ne_zero {text rest : List UInt8} {c : UInt8} (hc : Ends c) (hzero : 0 ∉ text) {k : ℕ}
    (hk : k ≤ text.length) : (text ++ c :: rest).getD k 0 ≠ 0 := by
  rcases hk.lt_or_eq with hlt | rfl
  · rw [getD_eq_getElem?_getD, List.getElem?_append_left hlt, List.getElem?_eq_getElem hlt]
    exact fun heq ↦ hzero (heq ▸ getElem_mem hlt)
  · rw [getD_eq_getElem?_getD, List.getElem?_append_right le_rfl, Nat.sub_self]
    exact hc.ne_zero

/-- What the parser takes for a duration, when the text goes on in memory -/
theorem isSome_parseDuration {rest : List UInt8} (hc : Ends c) (hzero : 0 ∉ text) :
    (parseDuration D (text ++ c :: rest) text.length).isSome = true ↔
      Right D text ∨ Trailing D text := by
  have hsplit := congrArg List.length (numberOf_append_unitOf text)
  rw [length_append] at hsplit
  have hnumber : text.length - (unitOf text).text.length = (numberOf text).length := by omega
  have hk := decimalLength_le (numberOf text)
  have hempty (h : decimalLength (numberOf text) = 0) : ¬ (Right D text ∨ Trailing D text) := by
    rintro (⟨hdecimal, -, -⟩ | ⟨-, hpos, -, -⟩)
    · rw [decimalLength_of_isDecimal hdecimal] at h
      rw [eq_nil_of_length_eq_zero h] at hdecimal
      exact absurd hdecimal (by decide)
    · omega
  rw [parseDuration, take_left]
  dsimp only
  rw [hnumber]
  by_cases hlen : (numberOf text).length = 0
  · rw [if_pos hlen, ite_self]
    exact iff_of_false (by simp) (hempty (by omega))
  · rw [if_neg (by omega), if_neg hlen, strtod, decimalLength_mem hc]
    by_cases hnone : decimalLength (numberOf text) = 0
    · rw [if_pos hnone]
      dsimp only
      rw [if_pos ⟨D.isZero_zero, getD_ne_zero hc hzero (Nat.zero_le _)⟩]
      exact iff_of_false (by simp) (hempty hnone)
    · have htake {k : ℕ} (hle : k ≤ (numberOf text).length) :
          (text ++ c :: rest).take k = (numberOf text).take k := by
        have hmem : text ++ c :: rest = numberOf text ++ ((unitOf text).text ++ c :: rest) := by
          rw [← append_assoc, numberOf_append_unitOf]
        rw [hmem, take_append_of_le_length hle]
      have hgoes := @getD_ne_zero text rest c hc hzero (decimalLength (numberOf text)) (by omega)
      rw [if_neg hnone, htake hk]
      dsimp only
      simp only [ne_eq, hgoes, not_false_eq_true, and_true]
      have hright (h : isDecimal (numberOf text) = true) :
          (numberOf text).take (decimalLength (numberOf text)) = numberOf text := by
        rw [decimalLength_of_isDecimal h, take_length]
      have hpos := Nat.pos_of_ne_zero hnone
      rw [Right, Trailing, secondsOf, secondsOf]
      cases hdecimal : isDecimal (numberOf text) with
      | true =>
        rw [hright hdecimal]
        cases D.isZero (D.ofDecimal (numberOf text)) <;>
          cases D.isInf (D.mul (D.ofDecimal (numberOf text)) (D.toSecs (unitOf text))) <;> simp
      | false =>
        generalize (numberOf text).take (decimalLength (numberOf text)) = number
        cases D.isZero (D.ofDecimal number) <;>
          cases D.isInf (D.mul (D.ofDecimal number) (D.toSecs (unitOf text))) <;> simp [hpos]

/-! ### Bounds -/

/-- The durations of a bound, when it has the form of one -/
def durationsOfBound (text : List UInt8) : Option (List (List UInt8)) :=
  if text = [] then some []
  else if 5 ≤ text.length ∧ text.take 4 = [0x6e, 0x6f, 0x77, 0x28] ∧ text.getLast? = some 0x29 then
    if text.length = 5 then some [] else some [(text.drop 4).dropLast]
  else none

theorem durationsOfBound_now (duration : List UInt8) :
    durationsOfBound ([0x6e, 0x6f, 0x77, 0x28] ++ duration ++ [0x29]) =
      some (if duration = [] then [] else [duration]) := by
  have hlen : ([0x6e, 0x6f, 0x77, 0x28] ++ duration ++ [(0x29 : UInt8)]).length =
      duration.length + 5 := by simp
  have hinner : (([0x6e, 0x6f, 0x77, 0x28] ++ duration ++ [(0x29 : UInt8)]).drop 4).dropLast =
      duration := by
    rw [append_assoc]
    exact dropLast_concat
  have hfive : duration.length + 5 = 5 ↔ duration = [] := by
    rw [Nat.add_eq_right, length_eq_zero_iff]
  rw [durationsOfBound, if_neg (by simp), if_pos ⟨by omega, by simp,
    List.getLast?_concat⟩, hlen, hinner]
  simp only [hfive]
  split_ifs <;> rfl

/-- The forms of a bound -/
theorem durationsOfBound_cases {ds : List (List UInt8)} (h : durationsOfBound text = some ds) :
    text = [] ∧ ds = [] ∨ ∃ duration, text = [0x6e, 0x6f, 0x77, 0x28] ++ duration ++ [0x29] ∧
        ds = if duration = [] then [] else [duration] := by
  have hds := h
  rw [durationsOfBound] at h
  split_ifs at h with hnil hform hfive
  · exact .inl ⟨hnil, (some.inj h).symm⟩
  all_goals
    obtain ⟨hlen, htake, hlast⟩ := hform
    obtain ⟨front, rfl⟩ := List.getLast?_eq_some_iff.mp hlast
    rw [length_append, length_singleton] at hlen
    rw [take_append_of_le_length (by omega)] at htake
    have hfront : [0x6e, 0x6f, 0x77, 0x28] ++ front.drop 4 = front := by
      rw [← htake, take_append_drop]
    refine .inr ⟨front.drop 4, by rw [hfront], ?_⟩
    rw [← hfront, durationsOfBound_now] at hds
    exact (some.inj hds).symm

theorem isBound_iff : IsBound D text ↔
    ∃ ds, durationsOfBound text = some ds ∧ ∀ d ∈ ds, IsDuration D d := by
  constructor
  · rintro (rfl | ⟨duration, rfl, hduration⟩)
    · exact ⟨[], rfl, by simp⟩
    · refine ⟨_, durationsOfBound_now duration, ?_⟩
      split_ifs with hnil
      · simp
      · simpa using hduration.resolve_left hnil
  · rintro ⟨ds, hds, hall⟩
    rcases durationsOfBound_cases hds with ⟨rfl, -⟩ | ⟨duration, rfl, rfl⟩
    · exact .inl rfl
    · refine .inr ⟨duration, rfl, ?_⟩
      split_ifs at hall with hnil
      · exact .inl hnil
      · exact .inr (hall duration mem_cons_self)

theorem ends_paren : Ends 0x29 := ⟨by decide, by decide⟩

theorem ends_bracket (hc : c = 0x5b ∨ c = 0x5d) : Ends c := by
  rcases hc with rfl | rfl <;> exact ⟨by decide, by decide⟩

/-- What the parser takes for a bound, when the text goes on in memory -/
theorem isSome_parseTimeBound {text rest : List UInt8} (hzero : 0 ∉ text) (inclusive : Bool) :
    (parseTimeBound D (text ++ rest) text.length inclusive).isSome = true ↔
      ∃ ds, durationsOfBound text = some ds ∧ ∀ d ∈ ds, Right D d ∨ Trailing D d := by
  rw [parseTimeBound]
  by_cases hnil : text = []
  · subst hnil
    exact iff_of_true rfl ⟨[], rfl, by simp⟩
  have hlen : text.length ≠ 0 := fun h ↦ hnil (eq_nil_of_length_eq_zero h)
  rw [if_neg hlen, durationsOfBound, if_neg hnil]
  by_cases hfive : 5 ≤ text.length
  · have htake : (text ++ rest).take 4 = text.take 4 :=
      take_append_of_le_length (by omega)
    have hlast : (text ++ rest)[text.length - 1]? = text.getLast? := by
      rw [List.getElem?_append_left (by omega), List.getLast?_eq_getElem?]
    rw [if_pos hfive, htake, hlast]
    by_cases hform : text.take 4 = [0x6e, 0x6f, 0x77, 0x28] ∧ text.getLast? = some 0x29
    · have hcond : 5 ≤ text.length ∧ text.take 4 = [0x6e, 0x6f, 0x77, 0x28] ∧
          text.getLast? = some 0x29 := ⟨hfive, hform⟩
      rw [if_pos hform, if_pos hcond]
      obtain ⟨front, rfl⟩ := List.getLast?_eq_some_iff.mp hform.2
      rw [length_append, length_singleton] at hfive hlen
      have hlenText : (front ++ [(0x29 : UInt8)]).length = (front.drop 4).length + 5 := by
        rw [length_append, length_singleton, length_drop]
        omega
      have hdrop : (front ++ [0x29] ++ rest).drop 4 = front.drop 4 ++ 0x29 :: rest := by
        rw [append_assoc, drop_append_of_le_length (by omega)]
        rfl
      have hinner : ((front ++ [(0x29 : UInt8)]).drop 4).dropLast = front.drop 4 := by
        rw [drop_append_of_le_length (by omega), dropLast_concat]
      have hfree : 0 ∉ front.drop 4 := fun hmem ↦
        hzero (mem_append_left _ (mem_of_mem_drop hmem))
      rw [hlenText, hinner]
      by_cases hnow : (front.drop 4).length + 5 = 5
      · rw [if_pos hnow, if_pos hnow]
        exact iff_of_true rfl ⟨[], rfl, by simp⟩
      · rw [if_neg hnow, if_neg hnow, isSome_map, hdrop, Nat.add_sub_cancel,
          isSome_parseDuration D ends_paren hfree]
        simp
    · rw [if_neg hform, if_neg fun h ↦ hform h.2]
      simp
  · rw [if_neg hfive, if_neg fun h ↦ hfive h.1]
    simp

/-- The parser finds an offset in every bound but the empty one. -/
theorem isSome_nowOffset {mem : List UInt8} {len : ℕ} {inclusive : Bool}
    {bound : TimeBound D.Double} (h : parseTimeBound D mem len inclusive = some bound) :
    bound.nowOffset.isSome = true ↔ len ≠ 0 := by
  rw [parseTimeBound] at h
  by_cases hlen : len = 0
  · rw [if_pos hlen] at h
    obtain rfl := some.inj h
    exact iff_of_false (by simp [TimeBound.nowOffset]) (not_not.mpr hlen)
  · refine iff_of_true ?_ hlen
    rw [if_neg hlen] at h
    split_ifs at h
    · obtain rfl := some.inj h
      rfl
    · obtain rfl := some.inj h
      rfl
    · obtain ⟨value, -, rfl⟩ := map_eq_some_iff.mp h
      rfl
    · obtain ⟨value, -, rfl⟩ := map_eq_some_iff.mp h
      rfl

/-! ### Ranges -/

/-- The durations between the brackets, when there is a range between them: it is cut at its first
pair of points, and where it has none at its first semicolon. -/
def durationsBetween (inner : List UInt8) : Option (List (List UInt8)) :=
  match strstr inner [0x2e, 0x2e] with
  | some sep => do
    let start ← durationsOfBound (inner.take sep)
    let stop ← durationsOfBound (inner.drop (sep + 2))
    return start ++ stop
  | none => do
    let sep ← strstr inner [0x3b]
    let start ← durationsOfBound (inner.take sep)
    if inner.take sep = [] then none else return start ++ [inner.drop (sep + 1)]

/-- The durations of a text, when it has the form of a range -/
def durations (text : List UInt8) : Option (List (List UInt8)) :=
  if 4 ≤ text.length ∧ (text.head? = some 0x5b ∨ text.head? = some 0x5d) ∧
      (text.getLast? = some 0x5b ∨ text.getLast? = some 0x5d) then
    durationsBetween text.tail.dropLast
  else none

/-- There are durations, and all of them have a property. -/
def Have (P : List UInt8 → Prop) (ds : Option (List (List UInt8))) : Prop :=
  ∃ l, ds = some l ∧ ∀ d ∈ l, P d

theorem have_durationsBetween {P : List UInt8 → Prop} {inner : List UInt8} :
    Have P (durationsBetween inner) ↔
      (∃ sep, strstr inner [0x2e, 0x2e] = some sep ∧ Have P (durationsOfBound (inner.take sep)) ∧
        Have P (durationsOfBound (inner.drop (sep + 2)))) ∨
      strstr inner [0x2e, 0x2e] = none ∧ ∃ sep, strstr inner [0x3b] = some sep ∧
        inner.take sep ≠ [] ∧ Have P (durationsOfBound (inner.take sep)) ∧
          P (inner.drop (sep + 1)) := by
  rw [durationsBetween]
  cases hdots : strstr inner [0x2e, 0x2e] with
  | some sep =>
    constructor
    · rintro ⟨l, hl, hall⟩
      obtain ⟨start, hstart, hl⟩ := bind_eq_some_iff.mp hl
      obtain ⟨stop, hstop, hl⟩ := bind_eq_some_iff.mp hl
      obtain rfl := some.inj hl
      exact .inl ⟨sep, rfl, ⟨start, hstart, fun d hd ↦ hall d (mem_append_left _ hd)⟩,
        ⟨stop, hstop, fun d hd ↦ hall d (mem_append_right _ hd)⟩⟩
    · rintro (⟨_, hsep, ⟨start, hstart, hall⟩, ⟨stop, hstop, hall'⟩⟩ | ⟨hnone, -⟩)
      · obtain rfl := some.inj hsep
        refine ⟨start ++ stop, by simp [hstart, hstop], fun d hd ↦ ?_⟩
        exact (mem_append.mp hd).elim (hall d) (hall' d)
      · cases hnone
  | none =>
    constructor
    · rintro ⟨l, hl, hall⟩
      obtain ⟨sep, hsep, hl⟩ := bind_eq_some_iff.mp hl
      obtain ⟨start, hstart, hl⟩ := bind_eq_some_iff.mp hl
      by_cases hempty : inner.take sep = []
      · rw [if_pos hempty] at hl
        cases hl
      · rw [if_neg hempty] at hl
        obtain rfl := some.inj hl
        exact .inr ⟨rfl, sep, hsep, hempty,
          ⟨start, hstart, fun d hd ↦ hall d (mem_append_left _ hd)⟩,
          hall _ (mem_append_right _ (mem_singleton_self _))⟩
    · rintro (⟨_, hsep, -⟩ | ⟨-, sep, hsep, hempty, ⟨start, hstart, hall⟩, hlast⟩)
      · cases hsep
      · refine ⟨start ++ [inner.drop (sep + 1)], bind_eq_some_iff.mpr ⟨sep, hsep,
          bind_eq_some_iff.mpr ⟨start, hstart, if_neg hempty⟩⟩, fun d hd ↦ ?_⟩
        exact (mem_append.mp hd).elim (hall d) fun hd ↦ mem_singleton.mp hd ▸ hlast

/-- A word that was found, with what is before and behind it -/
theorem split_of_strstr {inner word : List UInt8} {sep n : ℕ} (h : strstr inner word = some sep)
    (hn : word.length = n) : inner = inner.take sep ++ (word ++ inner.drop (sep + n)) ∧
      (inner.take sep).length = sep ∧ sep + n ≤ inner.length := by
  obtain ⟨⟨behind, hbehind⟩, hle, -⟩ := firstPlace_eq_some_iff.mp h
  have hdrop : inner.drop (sep + n) = behind := by
    rw [← drop_drop, ← hbehind, ← hn, drop_left]
  have hlen := congrArg List.length hbehind
  rw [length_append, length_drop, hn] at hlen
  refine ⟨?_, length_take_of_le hle, by omega⟩
  rw [hdrop, hbehind, take_append_drop]

theorem isSome_bind₂ {α β γ : Type} {x : Option α} {y : Option β} {f : α → β → γ} :
    (x.bind fun a ↦ y.bind fun b ↦ some (f a b)).isSome = true ↔
      x.isSome = true ∧ y.isSome = true := by
  cases x <;> cases y <;> simp

theorem isSome_bind₃ {α β γ δ : Type} {x : Option α} {g : α → Option β} {y : Option γ}
    {f : α → β → γ → δ} :
    (x.bind fun a ↦ (g a).bind fun b ↦ y.bind fun c ↦ some (f a b c)).isSome = true ↔
      (x.bind g).isSome = true ∧ y.isSome = true := by
  cases x with
  | none => simp
  | some a =>
    rw [bind_some, bind_some]
    exact isSome_bind₂

section Between

variable {first last : UInt8} {inner after : List UInt8}

/-- What is in memory from a place behind the bracket on -/
theorem drop_between {k : ℕ} (hk : k ≤ inner.length) :
    (first :: inner ++ [last] ++ after).drop (1 + k) = inner.drop k ++ last :: after := by
  have hmem : (first :: inner ++ [last] ++ after).drop 1 = inner ++ last :: after := by simp
  rw [← drop_drop, hmem, drop_append_of_le_length hk]

/-- The bound in front of a separator -/
theorem isSome_firstBound {sep n : ℕ} {word : List UInt8} (hzero : 0 ∉ inner)
    (hsep : strstr inner word = some sep) (hn : word.length = n) (inclusiveStart : Bool) :
    (parseTimeBound D ((first :: inner ++ [last] ++ after).drop 1) sep
      inclusiveStart).isSome = true ↔
      Have (fun d ↦ Right D d ∨ Trailing D d) (durationsOfBound (inner.take sep)) := by
  obtain ⟨hsplit, hstart, -⟩ := split_of_strstr hsep hn
  have hmem : (first :: inner ++ [last] ++ after).drop 1 = inner ++ last :: after := by simp
  have happend := (congrArg (· ++ last :: after) hsplit).trans (append_assoc ..)
  have htext := @isSome_parseTimeBound D (inner.take sep)
    (word ++ inner.drop (sep + n) ++ last :: after)
    (fun hmem ↦ hzero (take_subset _ _ hmem)) inclusiveStart
  rw [hstart] at htext
  rw [hmem, happend]
  exact htext

/-- The bound behind the dots -/
theorem isSome_lastBound {sep : ℕ} (hzero : 0 ∉ inner) (hle : sep + 2 ≤ inner.length)
    (inclusiveEnd : Bool) :
    (parseTimeBound D ((first :: inner ++ [last] ++ after).drop (1 + sep + 2))
      (inner.length + 1 - (1 + sep + 2)) inclusiveEnd).isSome = true ↔
      Have (fun d ↦ Right D d ∨ Trailing D d) (durationsOfBound (inner.drop (sep + 2))) := by
  have hlen : inner.length + 1 - (1 + sep + 2) = (inner.drop (sep + 2)).length := by
    rw [length_drop]
    omega
  rw [hlen, Nat.add_assoc, drop_between hle]
  exact isSome_parseTimeBound D (fun hmem ↦ hzero (drop_subset _ _ hmem)) inclusiveEnd

/-- The bound and the duration on both sides of a semicolon -/
theorem isSome_offset {sep : ℕ} (hlast : last = 0x5b ∨ last = 0x5d) (hzero : 0 ∉ inner)
    (hsep : strstr inner [0x3b] = some sep) (inclusiveStart : Bool) :
    (((parseTimeBound D ((first :: inner ++ [last] ++ after).drop 1) sep
        inclusiveStart).bind TimeBound.nowOffset).isSome = true ↔ inner.take sep ≠ [] ∧
        Have (fun d ↦ Right D d ∨ Trailing D d) (durationsOfBound (inner.take sep))) ∧
    ((parseDuration D ((first :: inner ++ [last] ++ after).drop (1 + sep + 1))
        (inner.length + 1 - (1 + sep + 1))).isSome = true ↔
      Right D (inner.drop (sep + 1)) ∨ Trailing D (inner.drop (sep + 1))) := by
  obtain ⟨-, htake, hle⟩ := split_of_strstr (n := 1) hsep rfl
  constructor
  · have hnil : inner.take sep ≠ [] ↔ sep ≠ 0 := by
      rw [← length_pos_iff, htake, Nat.pos_iff_ne_zero]
    rw [← @isSome_firstBound D first last inner after _ _ _ hzero hsep rfl inclusiveStart, hnil]
    cases hstart : parseTimeBound D ((first :: inner ++ [last] ++ after).drop 1) sep
        inclusiveStart with
    | none => simp
    | some start => simpa using isSome_nowOffset D hstart
  · have hlen : inner.length + 1 - (1 + sep + 1) = (inner.drop (sep + 1)).length := by
      rw [length_drop]
      omega
    rw [hlen, Nat.add_assoc, drop_between hle]
    exact isSome_parseDuration D (ends_bracket hlast) fun hmem ↦ hzero (drop_subset _ _ hmem)

/-- What the parser takes for the part between the brackets -/
theorem isSome_timeRangeBetween (hlast : last = 0x5b ∨ last = 0x5d) (hzero : 0 ∉ inner)
    (inclusiveStart inclusiveEnd : Bool) :
    (timeRangeBetween D (first :: inner ++ [last] ++ after) (first :: inner ++ [last]).length
      inclusiveStart inclusiveEnd).isSome = true ↔
      Have (fun d ↦ Right D d ∨ Trailing D d) (durationsBetween inner) := by
  have hlen : (first :: inner ++ [last]).length - 1 = inner.length + 1 := by simp
  have hinner : ((first :: inner ++ [last] ++ after).take (inner.length + 1)).drop 1 = inner := by
    simp
  rw [timeRangeBetween, hlen, hinner, have_durationsBetween]
  cases hdots : strstr inner [0x2e, 0x2e] with
  | some sep =>
    have hfirst := @isSome_firstBound D first last inner after _ _ _ hzero hdots rfl inclusiveStart
    have hsecond := @isSome_lastBound D first last inner after _ hzero
      (split_of_strstr hdots rfl).2.2 inclusiveEnd
    refine isSome_bind₂.trans ((and_congr hfirst hsecond).trans ⟨fun h ↦ ?_, ?_⟩)
    · exact .inl ⟨sep, rfl, h⟩
    · rintro (⟨_, hsep, h⟩ | ⟨hnone, -⟩)
      · exact some.inj hsep ▸ h
      · cases hnone
  | none =>
    cases hsemicolon : strstr inner [0x3b] with
    | none =>
      refine iff_of_false (by simp) ?_
      rintro (⟨_, hsep, -⟩ | ⟨-, _, hsep, -⟩)
      · cases hsep
      · cases hsep
    | some sep =>
      obtain ⟨hparts, hduration⟩ :=
        @isSome_offset D first last inner after _ hlast hzero hsemicolon inclusiveStart
      refine isSome_bind₃.trans ((and_congr hparts hduration).trans ⟨fun h ↦ ?_, ?_⟩)
      · exact .inr ⟨rfl, sep, rfl, h.1.1, h.1.2, h.2⟩
      · rintro (⟨_, hsep, -⟩ | ⟨-, _, hsep, hne, hstart, hlastDuration⟩)
        · cases hsep
        · obtain rfl := some.inj hsep
          exact ⟨⟨hne, hstart⟩, hlastDuration⟩

end Between

/-- A text of four bytes or more is its first byte, what is between, and its last one. -/
theorem exists_between (h : 4 ≤ text.length) :
    ∃ first inner last, text = first :: inner ++ [last] := by
  cases text with
  | nil => exact absurd h (by simp)
  | cons first rest =>
    rcases eq_nil_or_concat rest with rfl | ⟨inner, last, rfl⟩
    · exact absurd h (by simp)
    · exact ⟨first, inner, last, by rw [concat_eq_append]; rfl⟩

theorem durations_eq {first last : UInt8} {inner : List UInt8} :
    durations (first :: inner ++ [last]) =
      if 2 ≤ inner.length ∧ (first = 0x5b ∨ first = 0x5d) ∧ (last = 0x5b ∨ last = 0x5d) then
        durationsBetween inner
      else none := by
  have hlen : 4 ≤ (first :: inner ++ [last]).length ↔ 2 ≤ inner.length := by
    rw [length_append, length_cons, length_singleton]
    omega
  have hfirst : (first :: inner ++ [last]).head? = some first := rfl
  have hinner : (first :: inner ++ [last]).tail.dropLast = inner := dropLast_concat
  rw [durations, hinner]
  simp only [hlen, hfirst, List.getLast?_concat, some.injEq]

/-- The parser takes a text if and only if it has the form of a range and all its durations are
taken. -/
theorem isSome_timeRangeFromStr {after : List UInt8} (hzero : 0 ∉ text) :
    (timeRangeFromStr D (text ++ after) text.length).isSome = true ↔
      Have (fun d ↦ Right D d ∨ Trailing D d) (durations text) := by
  by_cases hshort : text.length < 4
  · have hlen : ¬ 4 ≤ text.length := by omega
    rw [timeRangeFromStr, if_pos hshort, durations, if_neg fun h ↦ hlen h.1]
    exact iff_of_false (by simp) fun ⟨_, hnone, _⟩ ↦ by cases hnone
  · obtain ⟨first, inner, last, rfl⟩ := exists_between (Nat.not_lt.mp hshort)
    have hlong : 2 ≤ inner.length := by
      rw [length_append, length_cons, length_singleton] at hshort
      omega
    have hfirst : (first :: inner ++ [last] ++ after)[0]? = some first := rfl
    have hlast : (first :: inner ++ [last] ++ after)[(first :: inner ++ [last]).length - 1]? =
        some last := by
      rw [List.getElem?_append_left (by simp), ← List.getLast?_eq_getElem?, List.getLast?_concat]
    have hfree : 0 ∉ inner := fun hmem ↦
      hzero (mem_append_left _ (mem_cons_of_mem _ hmem))
    rw [timeRangeFromStr, if_neg hshort, durations_eq, hfirst, hlast]
    simp only [some.injEq]
    by_cases hform : 2 ≤ inner.length ∧ (first = 0x5b ∨ first = 0x5d) ∧ (last = 0x5b ∨ last = 0x5d)
    · rw [if_pos hform]
      obtain ⟨-, hopens, hcloses⟩ := hform
      rcases hopens with rfl | rfl <;> rcases hcloses with rfl | rfl <;>
        exact isSome_timeRangeBetween D (by simp) hfree _ _
    · rw [if_neg hform]
      refine iff_of_false ?_ fun ⟨_, hnone, _⟩ ↦ by cases hnone
      by_cases hopens : first = 0x5b ∨ first = 0x5d
      · have hcloses : ¬ (last = 0x5b ∨ last = 0x5d) := fun h ↦ hform ⟨hlong, hopens, h⟩
        rw [not_or] at hcloses
        rcases hopens with rfl | rfl <;> simp [hcloses.1, hcloses.2]
      · rw [not_or] at hopens
        simp [hopens.1, hopens.2]

/-! ### The grammar -/

/-- A text with one point at most has no pair of points. -/
theorem strstr_points_eq_none (h : text.count 0x2e ≤ 1) : strstr text [0x2e, 0x2e] = none := by
  refine firstPlace_eq_none_iff.mpr fun i hpair ↦ ?_
  have hcount := (hpair.sublist.trans (drop_sublist i text)).count_le 0x2e
  simp at hcount
  omega

/-- A pair of points is found behind a text with none that ends with another byte. -/
theorem strstr_points_append {front : List UInt8} (hc : c ≠ 0x2e)
    (hfront : strstr front [0x2e, 0x2e] = none) (rest : List UInt8) :
    strstr (front ++ c :: rest) [0x2e, 0x2e] =
      (strstr rest [0x2e, 0x2e]).map (· + (front.length + 1)) := by
  induction front with
  | nil =>
    have hstarts : ¬ ([0x2e, 0x2e] : List UInt8).isPrefixOf (c :: rest) = true := by
      rw [List.isPrefixOf_iff_prefix, cons_prefix_cons]
      exact fun h ↦ hc h.1.symm
    rw [nil_append, strstr, firstPlace, if_neg hstarts]
    rfl
  | cons b front ih =>
    rw [strstr, firstPlace] at hfront
    split_ifs at hfront with hb
    have hrest := ih (map_eq_none_iff.mp hfront)
    have hstarts : ¬ ([0x2e, 0x2e] : List UInt8).isPrefixOf (b :: (front ++ c :: rest)) = true := by
      rw [List.isPrefixOf_iff_prefix] at hb ⊢
      cases front with
      | nil =>
        intro h
        rw [nil_append, cons_prefix_cons, cons_prefix_cons] at h
        exact hc h.2.1.symm
      | cons a front =>
        intro h
        rw [cons_append, cons_prefix_cons, cons_prefix_cons] at h
        refine hb ?_
        rw [cons_prefix_cons, cons_prefix_cons]
        exact ⟨h.1, h.2.1, nil_prefix⟩
    rw [cons_append, strstr, firstPlace, if_neg hstarts]
    rw [strstr] at hrest
    rw [hrest, Option.map_map]
    rfl

/-- A duration has one point at most and no semicolon. -/
theorem count_point_of_isDuration (h : IsDuration D text) : text.count 0x2e ≤ 1 ∧ 0x3b ∉ text := by
  obtain ⟨number, unit, rfl, hnumber, -⟩ := h
  constructor
  · have hunit : unit.text.count 0x2e = 0 := by cases unit <;> decide
    rw [count_append, hunit]
    exact count_point_le_one hnumber
  · rw [mem_append]
    rintro (hmem | hmem)
    · exact absurd (isNumeric_of_isDecimal hnumber _ hmem) (by decide)
    · revert hmem
      cases unit <;> decide

/-- Before its last byte, a bound that is not empty has no pair of points and no semicolon. -/
theorem exists_of_isBound (h : IsBound D text) (hne : text ≠ []) :
    ∃ front, text = front ++ [0x29] ∧ strstr front [0x2e, 0x2e] = none ∧ 0x3b ∉ front := by
  obtain ⟨duration, rfl, hduration⟩ := h.resolve_left hne
  refine ⟨_, rfl, ?_⟩
  have hparts : duration.count 0x2e ≤ 1 ∧ 0x3b ∉ duration := by
    rcases hduration with rfl | hduration
    · exact ⟨Nat.zero_le _, not_mem_nil⟩
    · exact count_point_of_isDuration D hduration
  constructor
  · refine strstr_points_eq_none ?_
    rw [count_append]
    exact (Nat.zero_add _).le.trans hparts.1
  · rw [mem_append]
    rintro (hmem | hmem)
    · exact absurd hmem (by decide)
    · exact hparts.2 hmem

/-- The separator of two bounds is where the first of them ends. -/
theorem strstr_points_of_isBound {start stop : List UInt8} (h : IsBound D start) :
    strstr (start ++ [0x2e, 0x2e] ++ stop) [0x2e, 0x2e] = some start.length := by
  have hzero : strstr ([0x2e, 0x2e] ++ stop) [0x2e, 0x2e] = some 0 :=
    firstPlace_append not_mem_nil [0x2e] stop
  by_cases hne : start = []
  · subst hne
    exact hzero
  · obtain ⟨front, rfl, hfront, -⟩ := exists_of_isBound D h hne
    rw [append_assoc, append_assoc, singleton_append,
      strstr_points_append (by decide) hfront, hzero, length_append]
    exact congrArg some (Nat.zero_add _)

/-- A bound and a duration with a semicolon between them have no pair of points, and the semicolon
is the first one. -/
theorem strstr_semicolon {start duration : List UInt8} (h : IsBound D start) (hne : start ≠ [])
    (hduration : IsDuration D duration) : strstr (start ++ [0x3b] ++ duration) [0x2e, 0x2e] = none ∧
      strstr (start ++ [0x3b] ++ duration) [0x3b] = some start.length := by
  obtain ⟨front, rfl, hfront, hfree⟩ := exists_of_isBound D h hne
  have hpoints : strstr duration [0x2e, 0x2e] = none :=
    strstr_points_eq_none (count_point_of_isDuration D hduration).1
  constructor
  · have hbehind : strstr ([] ++ 0x3b :: duration) [0x2e, 0x2e] = none := by
      rw [strstr_points_append (by decide) rfl, hpoints]
      rfl
    rw [append_assoc, append_assoc, singleton_append, strstr_points_append (by decide) hfront]
    exact map_eq_none_iff.mpr hbehind
  · have hnot : 0x3b ∉ front ++ [0x29] := by
      rw [mem_append, mem_singleton]
      rintro (hmem | heq)
      · exact hfree hmem
      · exact absurd heq (by decide)
    rw [append_assoc]
    exact firstPlace_append hnot [] duration

/-- The grammar takes a text if and only if it has the form of a range and all its durations are
durations of the grammar. -/
theorem isTimeRange_iff : IsTimeRange D text ↔ Have (IsDuration D) (durations text) := by
  constructor
  · rintro ⟨first, inner, last, rfl, hopens, hcloses, hinner⟩
    rw [durations_eq]
    rcases hinner with ⟨start, stop, rfl, hstart, hstop⟩ | ⟨start, duration, rfl, hne, hstart,
      hduration⟩
    · rw [if_pos ⟨by simp; omega, hopens, hcloses⟩, have_durationsBetween]
      have htake : (start ++ [0x2e, 0x2e] ++ stop).take start.length = start := by
        rw [append_assoc, take_left]
      have hdrop : (start ++ [0x2e, 0x2e] ++ stop).drop (start.length + 2) = stop :=
        drop_left' (by rw [length_append]; rfl)
      refine .inl ⟨_, strstr_points_of_isBound D hstart, ?_, ?_⟩
      · rw [htake]
        exact (isBound_iff D).mp hstart
      · rw [hdrop]
        exact (isBound_iff D).mp hstop
    · obtain ⟨hpoints, hsemicolon⟩ := strstr_semicolon D hstart hne hduration
      have hpos := length_pos_iff.mpr hne
      rw [if_pos ⟨by
        rw [length_append, length_append, length_singleton]
        omega, hopens, hcloses⟩, have_durationsBetween]
      have htake : (start ++ [0x3b] ++ duration).take start.length = start := by
        rw [append_assoc, take_left]
      have hdrop : (start ++ [0x3b] ++ duration).drop (start.length + 1) = duration :=
        drop_left' (by rw [length_append]; rfl)
      refine .inr ⟨hpoints, _, hsemicolon, htake.symm ▸ hne, ?_, hdrop.symm ▸ hduration⟩
      rw [htake]
      exact (isBound_iff D).mp hstart
  · intro h
    by_cases hlong : 4 ≤ text.length
    · obtain ⟨first, inner, last, rfl⟩ := exists_between hlong
      rw [durations_eq] at h
      split_ifs at h with hform
      · refine ⟨first, inner, last, rfl, hform.2.1, hform.2.2, ?_⟩
        rcases have_durationsBetween.mp h with ⟨sep, hsep, hstart, hstop⟩ |
          ⟨-, sep, hsep, hne, hstart, hduration⟩
        · have hsplit := (split_of_strstr hsep rfl).1
          rw [← append_assoc] at hsplit
          exact .inl ⟨_, _, hsplit, (isBound_iff D).mpr hstart, (isBound_iff D).mpr hstop⟩
        · have hsplit := (split_of_strstr hsep rfl).1
          rw [← append_assoc] at hsplit
          exact .inr ⟨_, _, hsplit, hne, (isBound_iff D).mpr hstart, hduration⟩
      · obtain ⟨_, hnone, _⟩ := h
        cases hnone
    · rw [durations, if_neg fun hform ↦ hlong hform.1] at h
      obtain ⟨_, hnone, _⟩ := h
      cases hnone

/-- Where a text has the form of a range, its durations are not all right or trailing with a
trailing one among them, and not all right or zero with a zero among them. -/
def Decided (text : List UInt8) : Prop :=
  ∀ ds, durations text = some ds →
    ¬ ((∃ d ∈ ds, Trailing D d) ∧ ∀ d ∈ ds, Right D d ∨ Trailing D d) ∧
      ¬ ((∃ d ∈ ds, Zero D d) ∧ ∀ d ∈ ds, Right D d ∨ Zero D d)

theorem not_trailing_of_isDecimal (h : isDecimal (numberOf text) = true) :
    ¬ Trailing D text := fun ht ↦ Bool.false_ne_true (ht.1.symm.trans h)

theorem not_right_of_zero (h : Zero D text) : ¬ Right D text :=
  fun hr ↦ Bool.false_ne_true (hr.2.1.symm.trans h.2)

/-- The parser takes exactly the texts of the grammar, apart from those whose durations decide
otherwise. -/
theorem timeRangeFromStr_iff (text after : List UInt8) (hzero : 0 ∉ text) :
    ((timeRangeFromStr D (text ++ after) text.length).isSome = true ↔ IsTimeRange D text) ↔
      Decided D text := by
  rw [isSome_timeRangeFromStr D hzero, isTimeRange_iff]
  simp only [Decided]
  cases hds : durations text with
  | none => simp [Have]
  | some ds =>
    have hhave (P : List UInt8 → Prop) : Have P (some ds) ↔ ∀ d ∈ ds, P d :=
      ⟨fun ⟨l, hl, hall⟩ ↦ some.inj hl ▸ hall, fun hall ↦ ⟨ds, rfl, hall⟩⟩
    rw [hhave, hhave]
    simp only [isDuration_iff]
    constructor
    · rintro hiff _ ⟨⟩
      refine ⟨fun ⟨⟨d, hd, ht⟩, hall⟩ ↦ ?_, fun ⟨⟨d, hd, hz⟩, hall⟩ ↦ ?_⟩
      · rcases hiff.mp hall d hd with hr | hz
        · exact not_trailing_of_isDecimal D hr.1 ht
        · exact not_trailing_of_isDecimal D hz.1 ht
      · rcases hiff.mpr hall d hd with hr | ht
        · exact not_right_of_zero D hz hr
        · exact not_trailing_of_isDecimal D hz.1 ht
    · intro hdecided
      obtain ⟨htrailing, hzeros⟩ := hdecided ds rfl
      refine ⟨fun hall d hd ↦ .inl ?_, fun hall d hd ↦ .inl ?_⟩
      · exact (hall d hd).resolve_right fun ht ↦ htrailing ⟨⟨d, hd, ht⟩, hall⟩
      · exact (hall d hd).resolve_right fun hz ↦ hzeros ⟨⟨d, hd, hz⟩, hall⟩

/-- Floating-point numbers by a mantissa and a decimal exponent, without rounding -/
def decimalFloats : Doubles where
  Double := ℤ × ℤ
  zero := (0, 0)
  ofDecimal text :=
    let rest := (unsigned text).dropWhile (IsDigit ·)
    let frac := if rest.head? = some 0x2e then rest.tail.takeWhile (IsDigit ·) else []
    let exponent := if rest.head? = some 0x2e then rest.tail.dropWhile (IsDigit ·) else rest
    let signed (text : List UInt8) (n : ℕ) : ℤ := if text.head? = some 0x2d then -n else n
    (signed text (numberFrom 0 ((unsigned text).takeWhile (IsDigit ·) ++ frac)),
      signed exponent.tail (numberFrom 0 (unsigned exponent.tail)) - frac.length)
  isZero x := x.1 = 0
  isInf x := x.1 ≠ 0 ∧ 308 < x.2
  mul x y := (x.1 * y.1, x.2 + y.2)
  add x y := (x.1 * 10 ^ (x.2 - min x.2 y.2).toNat + y.1 * 10 ^ (y.2 - min x.2 y.2).toNat,
    min x.2 y.2)
  toSecs
    | .none => (1, 0)
    | .u => (1, -6)
    | .ms => (1, -3)
    | .s => (1, 0)
    | .m => (60, 0)
    | .h => (3600, 0)
    | .d => (86400, 0)
    | .w => (604800, 0)
  isZero_zero := rfl
  isInf_mul x y h := by
    have hx : x.1 = 0 := of_decide_eq_true h
    simp [hx]

/-- The text "[now(2h)..]" -/
theorem timeRangeFromStr_two_hours :
    (timeRangeFromStr decimalFloats ([0x5b, 0x6e, 0x6f, 0x77, 0x28, 0x32, 0x68, 0x29, 0x2e, 0x2e,
      0x5d] ++ []) 11).isSome = true ↔
      IsTimeRange decimalFloats [0x5b, 0x6e, 0x6f, 0x77, 0x28, 0x32, 0x68, 0x29, 0x2e, 0x2e,
        0x5d] := by
  refine (timeRangeFromStr_iff decimalFloats [0x5b, 0x6e, 0x6f, 0x77, 0x28, 0x32, 0x68, 0x29, 0x2e,
    0x2e, 0x5d] [] (by decide)).mpr fun ds hds ↦ ?_
  obtain rfl : [[0x32, 0x68]] = ds := some.inj hds
  refine ⟨fun ⟨⟨d, hd, ht⟩, _⟩ ↦ ?_, fun ⟨⟨d, hd, hz⟩, _⟩ ↦ ?_⟩
  · obtain rfl := mem_singleton.mp hd
    exact absurd ht.1 (by decide)
  · obtain rfl := mem_singleton.mp hd
    exact absurd hz.2 (by decide)

/-- The text "[now(0s)..]", which is a range, is refused. -/
theorem timeRangeFromStr_zero :
    ¬ ((timeRangeFromStr decimalFloats [0x5b, 0x6e, 0x6f, 0x77, 0x28, 0x30, 0x73, 0x29, 0x2e, 0x2e,
      0x5d] 11).isSome = true ↔
      IsTimeRange decimalFloats [0x5b, 0x6e, 0x6f, 0x77, 0x28, 0x30, 0x73, 0x29, 0x2e, 0x2e,
        0x5d]) := by
  have hduration : IsDuration decimalFloats [0x30, 0x73] :=
    ⟨[0x30], .s, rfl, by decide, by decide⟩
  have hrange : IsTimeRange decimalFloats [0x5b, 0x6e, 0x6f, 0x77, 0x28, 0x30, 0x73, 0x29, 0x2e,
      0x2e, 0x5d] :=
    ⟨0x5b, [0x6e, 0x6f, 0x77, 0x28, 0x30, 0x73, 0x29, 0x2e, 0x2e], 0x5d, rfl, .inl rfl, .inr rfl,
      .inl ⟨[0x6e, 0x6f, 0x77, 0x28, 0x30, 0x73, 0x29], [], rfl,
        .inr ⟨[0x30, 0x73], rfl, .inr hduration⟩, .inl rfl⟩⟩
  exact fun hiff ↦ absurd (hiff.mpr hrange) (by decide)

end ZenohPico.Collections
