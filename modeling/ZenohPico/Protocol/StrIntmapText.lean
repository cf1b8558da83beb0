import ZenohPico.Protocol.StrIntmap

/-!
Maps of strings as texts (`src/protocol/config.c`), with memory for everything.

`IntmapReads` is what the loop of `_z_str_intmap_from_strn` does with an arbitrary text, one
component after the other. `strIntmapToStr_eq` says that the length that is computed for the printed
text is enough for all of it.
-/

namespace ZenohPico.Protocol

open Collections Foundations List Option

/-! ### Reading -/

/-- `_z_str_intmap_from_strn`, where every allocation succeeds. Each pass takes bytes off the
text. -/
def strIntmapFromStr (argv : List StrIntmapping) (s : List UInt8) : IntmapResult × StrIntmap :=
  (strIntmapFromStrn (fun _ ↦ true) argv s (s.length + 1)).getD (.systemOutOfMemory, strIntmapMake)

/-- What is read of a text: the keys with their values, and how the reading ends -/
inductive IntmapReads (argv : List StrIntmapping) :
    List UInt8 → List (UInt8 × List UInt8) → IntmapResult → Prop
  | empty : IntmapReads argv [] [] .ok
  | malformed {s : List UInt8} : s ≠ [] → intmapKeyValueSeparator ∉ s →
    IntmapReads argv s [] .configInvalidValue
  | unknown {name tail : List UInt8} : intmapKeyValueSeparator ∉ name → keyOf argv name = none →
    IntmapReads argv (name ++ intmapKeyValueSeparator :: tail) [] .ok
  | known {name tail : List UInt8} {key : UInt8} {values : List (UInt8 × List UInt8)}
    {ret : IntmapResult} : intmapKeyValueSeparator ∉ name → keyOf argv name = some key →
    IntmapReads argv (valueSplit tail).2 values ret →
    IntmapReads argv (name ++ intmapKeyValueSeparator :: tail)
      ((key, strNCopy (valueSplit tail).1) :: values) ret

/-- A map with more values -/
def insertValues (map : StrIntmap) (values : List (UInt8 × List UInt8)) : StrIntmap :=
  values.foldl (fun map e ↦ map.insert e.1 e.2 true) map

theorem length_valueSplit (tail : List UInt8) : (valueSplit tail).2.length ≤ tail.length := by
  rw [valueSplit]
  split
  · exact Nat.zero_le _
  · rw [length_drop]
    exact Nat.sub_le _ _

theorem exists_intmapReads (argv : List StrIntmapping) (s : List UInt8) :
    ∃ values ret, IntmapReads argv s values ret := by
  induction hlen : s.length using Nat.strong_induction_on generalizing s with
  | _ n ih =>
    by_cases hempty : s = []
    · subst hempty
      exact ⟨[], .ok, .empty⟩
    by_cases hsep : intmapKeyValueSeparator ∈ s
    · obtain ⟨name, tail, rfl, hname⟩ := eq_append_cons_of_mem hsep
      cases hkey : keyOf argv name with
      | none => exact ⟨[], .ok, .unknown hname hkey⟩
      | some key =>
        have hshort : (valueSplit tail).2.length < n := by
          have hle := length_valueSplit tail
          rw [length_append, length_cons] at hlen
          omega
        obtain ⟨values, ret, hreads⟩ := ih _ hshort _ rfl
        exact ⟨_, ret, .known hname hkey hreads⟩
    · exact ⟨[], .configInvalidValue, .malformed hempty hsep⟩

theorem strIntmapInsert_of_memory (mem : IntmapMemory) (k : UInt8) (v : List UInt8) :
    (strIntmapInsert (fun _ ↦ true) mem k v).map = mem.map.insert k v true := by
  rw [strIntmapInsert_eq, insertion_of_memory]

variable {argv : List StrIntmapping} {s written : List UInt8} {values : List (UInt8 × List UInt8)}
  {ret : IntmapResult}

/-- A run of the loop over a text -/
theorem runLoop_of_reads (h : IntmapReads argv s values ret) (mem : IntmapMemory) {budget : ℕ}
    (hbudget : s.length < budget) :
    runLoop (fun scan ↦ some (strIntmapPass (fun _ ↦ true) argv scan)) budget ⟨mem, s, .ok⟩ =
      some (ret, insertValues mem.map values) := by
  induction h generalizing mem budget with
  | empty =>
    obtain ⟨n, rfl⟩ : ∃ n, budget = n + 1 := ⟨budget - 1, by omega⟩
    rfl
  | malformed hne hsep =>
    obtain ⟨n, rfl⟩ : ∃ n, budget = n + 1 := ⟨budget - 1, by omega⟩
    rw [runLoop, bind_some, strIntmapPass, if_neg hne, List.idxOf?_eq_none_iff.mpr hsep]
    rfl
  | @unknown name tail hname hkey =>
    obtain ⟨n, rfl⟩ : ∃ n, budget = n + 1 := ⟨budget - 1, by omega⟩
    have htake : (name ++ intmapKeyValueSeparator :: tail).take name.length = name :=
      take_left
    rw [runLoop, bind_some, strIntmapPass, if_neg (by simp)]
    simp only [idxOf?_append_cons hname, htake, hkey]
    rfl
  | @known name tail key values ret hname hkey _ ih =>
    obtain ⟨n, rfl⟩ : ∃ n, budget = n + 1 := ⟨budget - 1, by omega⟩
    have htake : (name ++ intmapKeyValueSeparator :: tail).take name.length = name :=
      take_left
    have hdrop : (name ++ intmapKeyValueSeparator :: tail).drop (name.length + 1) = tail := by
      rw [drop_append, drop_eq_nil_of_le (by omega)]
      simp
    have hle := length_valueSplit tail
    have hn : (valueSplit tail).2.length < n := by
      rw [length_append, length_cons] at hbudget
      omega
    rw [runLoop, bind_some, strIntmapPass, if_neg (by simp)]
    simp only [idxOf?_append_cons hname, htake, hkey, hdrop, if_true]
    rw [ih _ hn, strIntmapInsert_of_memory]
    rfl

theorem strIntmapFromStr_of_reads (h : IntmapReads argv s values ret) :
    strIntmapFromStr argv s = (ret, insertValues strIntmapMake values) := by
  rw [strIntmapFromStr, strIntmapFromStrn, runLoop_of_reads h _ (Nat.lt_succ_self _)]
  rfl

theorem get_insertValues (map : StrIntmap) (values : List (UInt8 × List UInt8)) (key : UInt8) :
    (insertValues map values).get key = (latestValue values key).or (map.get key) := by
  induction values generalizing map with
  | nil => rfl
  | cons e values ih =>
    rw [insertValues, foldl_cons, ← insertValues, ih, HashMap.get_insert]
    by_cases he : e.1 = key
    · cases hlast : (values.filter fun e ↦ e.1 = key).getLast? <;>
        simp [latestValue, he, hlast, List.getLast?_cons]
    · simp [latestValue, he, Ne.symm he]

/-- What was read under a key is one of the values under it. -/
theorem mem_of_latestValue {key : UInt8} {v : List UInt8} (h : latestValue values key = some v) :
    (key, v) ∈ values := by
  obtain ⟨⟨k, w⟩, hlast, rfl⟩ := map_eq_some_iff.mp h
  have hmem := mem_of_getLast? hlast
  rw [mem_filter, decide_eq_true_eq] at hmem
  obtain ⟨hmem, rfl⟩ := hmem
  exact hmem

/-- The keys that are read are keys of the table. -/
theorem IntmapReads.key_mem (h : IntmapReads argv s values ret) :
    ∀ e ∈ values, e.1 ∈ argv.map StrIntmapping.key := by
  induction h with
  | empty => simp
  | malformed => simp
  | unknown => simp
  | known _ hkey _ ih =>
    intro e he
    rcases mem_cons.mp he with rfl | he
    · rw [keyOf, map_eq_some_iff] at hkey
      obtain ⟨mapping, hfind, rfl⟩ := hkey
      exact mem_map_of_mem (mem_of_find?_eq_some hfind)
    · exact ih e he

theorem strIntmapFromStr_nil (hne : s ≠ []) : strIntmapFromStr [] s =
      (if intmapKeyValueSeparator ∈ s then .ok else .configInvalidValue, strIntmapMake) := by
  by_cases hsep : intmapKeyValueSeparator ∈ s
  · rw [if_pos hsep]
    obtain ⟨name, tail, rfl, hname⟩ := eq_append_cons_of_mem hsep
    exact strIntmapFromStr_of_reads (.unknown hname rfl)
  · rw [if_neg hsep]
    exact strIntmapFromStr_of_reads (.malformed hne hsep)

/-- A map that was read has values under keys of the table only. -/
theorem get_strIntmapFromStr {argv : List StrIntmapping} {s : List UInt8} {key : UInt8}
    (hkey : key ∉ argv.map StrIntmapping.key) : (strIntmapFromStr argv s).2.get key = none := by
  obtain ⟨values, ret, hreads⟩ := exists_intmapReads argv s
  rw [strIntmapFromStr_of_reads hreads, get_insertValues, strIntmapMake, HashMap.get_make, or_none]
  cases hlatest : latestValue values key with
  | none => rfl
  | some v => exact absurd (hreads.key_mem _ (mem_of_latestValue hlatest)) hkey

/-! ### Printing -/

/-- One pass of the loop of `_z_str_intmap_strlen` -/
def strlenPass (map : StrIntmap) (len : ℕ) (mapping : StrIntmapping) : ℕ :=
  match map.get mapping.key with
  | none => len
  | some v => (if len ≠ 0 then len + 1 else len) + mapping.str.length + 1 + v.length

/-- `_z_str_intmap_strlen` -/
def strIntmapStrlen (argv : List StrIntmapping) (map : StrIntmap) : ℕ :=
  argv.foldl (strlenPass map) 0

/-- Bytes appended to `dst`, as far as there is room for them -/
def appendWithin (p : List UInt8 × ℕ) (bytes : List UInt8) : List UInt8 × ℕ :=
  if 0 < p.2 then (p.1 ++ bytes.take p.2, p.2 - min bytes.length p.2) else p

/-- One pass of the loop of `_z_str_intmap_onto_str`, over what is written and the room left -/
def ontoStrPass (map : StrIntmap) (p : List UInt8 × ℕ) (mapping : StrIntmapping) : List UInt8 × ℕ :=
  match map.get mapping.key with
  | none => p
  | some v =>
    let p := if 0 < p.2 ∧ p.1 ≠ [] then (p.1 ++ [intmapListSeparator], p.2 - 1) else p
    appendWithin (appendWithin (appendWithin p mapping.str) [intmapKeyValueSeparator]) v

/-- `_z_str_intmap_onto_str` -/
def strIntmapOntoStr (dstLen : ℕ) (argv : List StrIntmapping) (map : StrIntmap) : List UInt8 :=
  (argv.foldl (ontoStrPass map) ([], dstLen - 1)).1

/-- `_z_str_intmap_to_str` -/
def strIntmapToStr (argv : List StrIntmapping) (map : StrIntmap) : List UInt8 :=
  strIntmapOntoStr (strIntmapStrlen argv map + 1) argv map

/-- The text of the entries of a table, in the order of the table -/
def intmapText (map : StrIntmap) : List UInt8 → List StrIntmapping → List UInt8
  | written, [] => written
  | written, mapping :: argv =>
    match map.get mapping.key with
    | none => intmapText map written argv
    | some v =>
      intmapText map ((if written = [] then [] else written ++ [intmapListSeparator]) ++
        (mapping.str ++ intmapKeyValueSeparator :: v)) argv

theorem appendWithin_of_room {bytes : List UInt8} {room : ℕ} (h : bytes.length ≤ room) :
    appendWithin (written, room) bytes = (written ++ bytes, room - bytes.length) := by
  rw [appendWithin]
  split_ifs with hpos
  · rw [take_of_length_le h, min_eq_left h]
  · have hzero : bytes = [] := length_eq_zero_iff.mp (by simp only at hpos; omega)
    simp [hzero]

theorem appendWithin_entry {written name v : List UInt8} {room : ℕ}
    (h : name.length + 1 + v.length ≤ room) :
    appendWithin (appendWithin (appendWithin (written, room) name) [intmapKeyValueSeparator]) v =
      (written ++ (name ++ intmapKeyValueSeparator :: v), room - (name.length + 1 + v.length)) := by
  have hname : name.length ≤ room := by omega
  have hsep : [intmapKeyValueSeparator].length ≤ room - name.length := by
    rw [length_singleton]
    omega
  have hv : v.length ≤ room - name.length - [intmapKeyValueSeparator].length := by
    rw [length_singleton]
    omega
  rw [appendWithin_of_room hname, appendWithin_of_room hsep, appendWithin_of_room hv,
    length_singleton, Nat.sub_sub, Nat.sub_sub, Nat.add_assoc]
  simp

theorem length_intmapText_ge (map : StrIntmap) (written : List UInt8) (argv : List StrIntmapping) :
    written.length ≤ (intmapText map written argv).length := by
  induction argv generalizing written with
  | nil => exact le_rfl
  | cons mapping argv ih =>
    rw [intmapText]
    cases map.get mapping.key with
    | none => exact ih written
    | some v =>
      refine le_trans ?_ (ih _)
      split_ifs with h <;> simp [h]

theorem foldl_strlenPass (map : StrIntmap) (written : List UInt8) (argv : List StrIntmapping) :
    argv.foldl (strlenPass map) written.length = (intmapText map written argv).length := by
  induction argv generalizing written with
  | nil => rfl
  | cons mapping argv ih =>
    rw [foldl_cons, intmapText, strlenPass]
    cases map.get mapping.key with
    | none => exact ih written
    | some v =>
      rw [← ih]
      congr 1
      by_cases hwritten : written = []
      · simp [hwritten]
        omega
      · have hlen : written.length ≠ 0 := fun h ↦ hwritten (length_eq_zero_iff.mp h)
        simp [hwritten, hlen]
        omega

theorem foldl_ontoStrPass (map : StrIntmap) (written : List UInt8) (room : ℕ)
    (argv : List StrIntmapping)
    (hroom : (intmapText map written argv).length ≤ written.length + room) :
    (argv.foldl (ontoStrPass map) (written, room)).1 = intmapText map written argv := by
  induction argv generalizing written room with
  | nil => rfl
  | cons mapping argv ih =>
    rw [foldl_cons, ontoStrPass]
    rw [intmapText] at hroom ⊢
    cases hget : map.get mapping.key with
    | none =>
      simp only [hget] at hroom
      exact ih written room hroom
    | some v =>
      simp only [hget] at hroom
      dsimp only
      have hge := length_intmapText_ge map ((if written = [] then [] else
        written ++ [intmapListSeparator]) ++ (mapping.str ++ intmapKeyValueSeparator :: v)) argv
      by_cases hwritten : written = []
      · subst hwritten
        rw [if_pos rfl, nil_append] at hroom hge ⊢
        rw [if_neg (by simp)]
        simp only [length_append, length_cons, length_nil] at hroom hge
        rw [appendWithin_entry (by omega), nil_append]
        refine ih _ _ (hroom.trans ?_)
        simp only [length_append, length_cons]
        omega
      · rw [if_neg hwritten] at hroom hge ⊢
        simp only [length_append, length_cons, length_nil] at hge
        rw [if_pos ⟨by omega, hwritten⟩, appendWithin_entry (by omega)]
        refine ih _ _ (hroom.trans ?_)
        simp only [length_append, length_cons, length_nil]
        omega

theorem strIntmapToStr_eq (argv : List StrIntmapping) (map : StrIntmap) :
    strIntmapToStr argv map = intmapText map [] argv := by
  have hlen := foldl_strlenPass map [] argv
  rw [length_nil] at hlen
  rw [strIntmapToStr, strIntmapOntoStr, strIntmapStrlen, hlen, Nat.add_sub_cancel]
  exact foldl_ontoStrPass map [] _ argv (by simp)

/-- The text of a map is empty where no key of the table has a value, and else begins with a name
of the table. -/
theorem intmapText_nil (map : StrIntmap) (argv : List StrIntmapping) :
    (∀ mapping ∈ argv, map.get mapping.key = none) ∧ intmapText map [] argv = [] ∨
      ∃ mapping ∈ argv, ∃ v tail, map.get mapping.key = some v ∧
        intmapText map [] argv = mapping.str ++ intmapKeyValueSeparator :: tail := by
  have hfront : ∀ (rest : List StrIntmapping) (written : List UInt8), written ≠ [] →
      ∃ tail, intmapText map written rest = written ++ tail := by
    intro rest
    induction rest with
    | nil => exact fun written _ ↦ ⟨[], (append_nil written).symm⟩
    | cons mapping rest ih =>
      intro written hwritten
      rw [intmapText]
      cases map.get mapping.key with
      | none => exact ih written hwritten
      | some v =>
        rw [if_neg hwritten]
        obtain ⟨tail, htail⟩ := ih (written ++ [intmapListSeparator] ++
          (mapping.str ++ intmapKeyValueSeparator :: v)) (by simp)
        exact ⟨_, htail.trans (by rw [append_assoc, append_assoc])⟩
  induction argv with
  | nil => exact .inl ⟨by simp, rfl⟩
  | cons mapping argv ih =>
    rw [intmapText]
    cases hget : map.get mapping.key with
    | none =>
      rcases ih with ⟨hnone, htext⟩ | ⟨found, hmem, hfound⟩
      · refine .inl ⟨fun m hm ↦ ?_, htext⟩
        rcases mem_cons.mp hm with rfl | hm
        · exact hget
        · exact hnone m hm
      · exact .inr ⟨found, mem_cons_of_mem _ hmem, hfound⟩
    | some v =>
      obtain ⟨tail, htail⟩ := hfront argv (mapping.str ++ intmapKeyValueSeparator :: v) (by simp)
      refine .inr ⟨mapping, mem_cons_self, v, v ++ tail, hget, ?_⟩
      simpa using htail

end ZenohPico.Protocol
